import MemoSequence.Element
import MemoSequence.Consume
set_option autoImplicit false

namespace MemoSequence

/-- Every text with the separator before it, the first one without. -/
def Plan.separatedBy (separator : String) (input : Plan .text) : Plan .text :=
  .scan input true (.silent fun (first, piece) =>
    (if first then piece else separator ++ piece, false))

def Sequence.join (separator : String) (fuel : Nat) (s : Sequence .text) : Run Atom String := do
  let pieces ← Run.build (.separatedBy separator (.given s))
  Sequence.fold (.silent fun (joined, piece) => joined ++ piece) "" fuel pieces

end MemoSequence
