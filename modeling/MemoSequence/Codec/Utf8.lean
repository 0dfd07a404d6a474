import MemoSequence.Element
set_option autoImplicit false

namespace MemoSequence.Utf8

/-- The bytes of a code point: a lead byte with the highest bits, then six bits each. -/
def bytes? (c : Nat) : Option (List UInt8) :=
  if c < 0x80 then some [.ofNat c]
  else if c < 0x800 then some [.ofNat (0xC0 + c / 0x40), continuing c]
  else if c < 0x10000 then some [.ofNat (0xE0 + c / 0x1000), continuing (c / 0x40), continuing c]
  else if c < 0x110000 then
    some [.ofNat (0xF0 + c / 0x40000), continuing (c / 0x1000), continuing (c / 0x40), continuing c]
  else none
where
  continuing (n : Nat) : UInt8 := .ofNat (0x80 + n % 0x40)

def encodeCodePoint (c : UInt32) : List (Except CodecError UInt8) :=
  match bytes? c.toNat with
  | some bytes => bytes.map .ok
  | none => [.error (.invalidCodePoint c)]

def encode (codePoints : Plan .codePoint) : Plan .encoded :=
  codePoints.flatMap (fun c => .ofList (encodeCodePoint c)) fun _ => none

def isLead (b : UInt8) : Bool := 0xC2 ≤ b && b ≤ 0xF4

def isContinuation (b : UInt8) : Bool := 0x80 ≤ b && b ≤ 0xBF

def width (lead : UInt8) : Nat := if lead < 0xE0 then 2 else if lead < 0xF0 then 3 else 4

def leadBits (lead : UInt8) : Nat := lead.toNat % (1 <<< (7 - width lead))

def payload (lead : UInt8) (more : List UInt8) : Nat :=
  more.foldl (fun n b => n * 0x40 + b.toNat % 0x40) (leadBits lead)

/-- What a byte makes of the pending ones: an output, if any, and the bytes pending next. -/
def decodeByte (pending : List UInt8) (b : UInt8) :
    List (Except CodecError UInt32) × List UInt8 :=
  match pending with
  | [] =>
    if b < 0x80 then ([.ok b.toUInt32], [])
    else if isLead b then ([], [b])
    else ([.error (.invalidSequence [b])], [])
  | lead :: more =>
    if !isContinuation b then ([.error (.invalidSequence (lead :: more ++ [b]))], [])
    else if more.length + 2 = width lead then ([.ok (.ofNat (payload lead (more ++ [b])))], [])
    else ([], lead :: more ++ [b])

def decodeStep (pending : List UInt8) (input : Option UInt8) :
    List (Except CodecError UInt32) × List UInt8 :=
  match input with
  | some b => decodeByte pending b
  | none => if pending.isEmpty then ([], []) else ([.error (.unexpectedEnd pending)], [])

def decode (bytes : Plan .byte) : Plan .decoded :=
  bytes.terminated.stateScanned [] (.silent fun (pending, input) => decodeStep pending input)

end MemoSequence.Utf8
