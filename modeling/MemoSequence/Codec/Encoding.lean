import MemoSequence.Codec.Utf8
import MemoSequence.Codec.Utf16
import MemoSequence.Consume
set_option autoImplicit false

namespace MemoSequence

inductive Encoding where
  | utf8
  | utf16
  deriving DecidableEq, Repr

namespace Encoding

def name : Encoding → String
  | utf8 => "utf8"
  | utf16 => "utf16"

def ofName? : String → Option Encoding
  | "utf8" => some utf8
  | "utf16" => some utf16
  | _ => none

def title : Encoding → String
  | utf8 => "Utf8"
  | utf16 => "Utf16"

def encodeCodePoint : Encoding → UInt32 → List (Except CodecError UInt8)
  | utf8 => Utf8.encodeCodePoint
  | utf16 => Utf16.encodeCodePoint

def encode : Encoding → Plan .codePoint → Plan .encoded
  | utf8 => Utf8.encode
  | utf16 => Utf16.encode

def decode : Encoding → Plan .byte → Plan .decoded
  | utf8 => Utf8.decode
  | utf16 => Utf16.decode

def successes (decoded : Plan .decoded) : Plan .codePoint :=
  decoded.flatMap
    (fun
      | .ok c => .single c
      | .error _ => .empty)
    fun _ => none

def transcode (source target : Encoding) (bytes : Plan .byte) : Plan .encoded :=
  target.encode (successes (source.decode bytes))

/-- All code points, or all faults if there is one. -/
def verdict (decoded : List (Except CodecError UInt32)) : Except (List CodecError) (List UInt32) :=
  let faults := decoded.filterMap fun
    | .ok _ => none
    | .error e => some e
  if faults.isEmpty then .ok (decoded.filterMap Except.toOption) else .error faults

def validate (encoding : Encoding) (fuel : Nat) (bytes : Plan .byte) :
    Run Atom (Except (List CodecError) (List UInt32)) := do
  let decoded ← Run.build (encoding.decode bytes)
  return verdict (← Sequence.toList fuel decoded)

end Encoding

def codePoints (text : String) : List UInt32 := text.toList.map Char.val

end MemoSequence
