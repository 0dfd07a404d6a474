import MemoSequence.Plan
import MemoSequence.Codec.Error
set_option autoImplicit false

namespace MemoSequence

inductive Atom where
  | int
  | text
  | byte
  | codePoint
  | encoded
  | decoded
  deriving DecidableEq, Repr

instance : Basis Atom where
  Carrier
    | .int => Int64
    | .text => String
    | .byte => UInt8
    | .codePoint => UInt32
    | .encoded => Except CodecError UInt8
    | .decoded => Except CodecError UInt32
  decEq := inferInstance

namespace Kind

abbrev int : Kind Atom := .base .int
abbrev text : Kind Atom := .base .text
abbrev byte : Kind Atom := .base .byte
abbrev codePoint : Kind Atom := .base .codePoint
abbrev encoded : Kind Atom := .base .encoded
abbrev decoded : Kind Atom := .base .decoded

end Kind

end MemoSequence
