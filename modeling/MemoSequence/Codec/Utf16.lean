import MemoSequence.Element
set_option autoImplicit false

namespace MemoSequence.Utf16

def isHighSurrogate (unit : Nat) : Bool := 0xD800 ≤ unit && unit ≤ 0xDBFF

def isLowSurrogate (unit : Nat) : Bool := 0xDC00 ≤ unit && unit ≤ 0xDFFF

def unitBytes (unit : Nat) : List UInt8 := [.ofNat (unit / 0x100), .ofNat (unit % 0x100)]

def unit (high low : UInt8) : Nat := high.toNat * 0x100 + low.toNat

def units? (c : Nat) : Option (List Nat) :=
  if c < 0x10000 then
    if isHighSurrogate c || isLowSurrogate c then none else some [c]
  else if c < 0x110000 then
    some [0xD800 + (c - 0x10000) / 0x400, 0xDC00 + (c - 0x10000) % 0x400]
  else none

def encodeCodePoint (c : UInt32) : List (Except CodecError UInt8) :=
  match units? c.toNat with
  | some units => (units.flatMap unitBytes).map .ok
  | none => [.error (.invalidCodePoint c)]

def encode (codePoints : Plan .codePoint) : Plan .encoded :=
  codePoints.flatMap (fun c => .ofList (encodeCodePoint c)) fun _ => none

def paired (high low : Nat) : Nat := 0x10000 + (high - 0xD800) * 0x400 + (low - 0xDC00)

/-- What a byte makes of the pending ones: an output, if any, and the bytes pending next. -/
def decodeByte (pending : List UInt8) (b : UInt8) :
    List (Except CodecError UInt32) × List UInt8 :=
  match pending with
  | [] => ([], [b])
  | [a] =>
    if isHighSurrogate (unit a b) then ([], [a, b])
    else if isLowSurrogate (unit a b) then ([.error (.invalidSequence [a, b])], [])
    else ([.ok (.ofNat (unit a b))], [])
  | [h, l] => ([], [h, l, b])
  | h :: l :: a :: more =>
    if isLowSurrogate (unit a b) then ([.ok (.ofNat (paired (unit h l) (unit a b)))], [])
    else ([.error (.invalidSequence (h :: l :: a :: more ++ [b]))], [])

def decodeStep (pending : List UInt8) (input : Option UInt8) :
    List (Except CodecError UInt32) × List UInt8 :=
  match input with
  | some b => decodeByte pending b
  | none => if pending.isEmpty then ([], []) else ([.error (.unexpectedEnd pending)], [])

def decode (bytes : Plan .byte) : Plan .decoded :=
  bytes.terminated.stateScanned [] (.silent fun (pending, input) => decodeStep pending input)

end MemoSequence.Utf16
