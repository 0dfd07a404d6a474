set_option autoImplicit false

namespace MemoSequence

inductive CodecError where
  | invalidCodePoint (codePoint : UInt32)
  | invalidSequence (bytes : List UInt8)
  | unexpectedEnd (bytes : List UInt8)
  deriving DecidableEq, Repr

namespace CodecError

def hex (n : Nat) : String := String.ofList (Nat.toDigits 16 n)

def hexByte (b : UInt8) : String :=
  String.ofList [Nat.digitChar (b.toNat / 16), Nat.digitChar (b.toNat % 16)]

def hexBytes (bytes : List UInt8) : String := "[" ++ ", ".intercalate (bytes.map hexByte) ++ "]"

def message : CodecError → String
  | invalidCodePoint c => "Invalid code point 0x" ++ hex c.toNat
  | invalidSequence bytes => "Invalid byte sequence " ++ hexBytes bytes
  | unexpectedEnd bytes => "Unexpected end of input after " ++ hexBytes bytes

def bytes : CodecError → List UInt8
  | invalidCodePoint _ => []
  | invalidSequence bytes | unexpectedEnd bytes => bytes

end CodecError

end MemoSequence
