import MemoSequence.Proofs.Codec.Accepted
import MemoSequence.Proofs.Codec.Blocks
import MemoSequence.Proofs.Codec.Transcoding
import MemoSequence.Proofs.Demand.Pipelines
import MemoSequence.Proofs.Guard
import MemoSequence.Proofs.Json.Canonical
import MemoSequence.Proofs.Json.Edits
import MemoSequence.Proofs.Json.Reread
import MemoSequence.Session.Perform
import MemoSequence.Proofs.Composites
import MemoSequence.Proofs.Representation
import MemoSequence.Proofs.Prefixes
import MemoSequence.Proofs.Flattening
import MemoSequence.Proofs.Codec.Endless
import MemoSequence.Proofs.Cutting
import MemoSequence.Proofs.Threading
import MemoSequence.Proofs.Materializing
import MemoSequence.Proofs.Codec.Standard
import MemoSequence.Proofs.Codec.Validation
import MemoSequence.Proofs.Scanning
import MemoSequence.Proofs.Searching
import MemoSequence.Proofs.Json.Typed
import MemoSequence.Proofs.Serializing
import MemoSequence.Proofs.Codec.Hazards
import MemoSequence.Proofs.SharedCells
