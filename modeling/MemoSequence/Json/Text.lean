import MemoSequence.Json.Value
import MemoSequence.Binary64.Shortest
set_option autoImplicit false

namespace MemoSequence

namespace Quoted

def hexDigit (n : Nat) : Char := (Nat.digitChar n)

def escape (c : Char) : List Char :=
  match c with
  | '"' => ['\\', '"']
  | '\\' => ['\\', '\\']
  | '\x08' => ['\\', 'b']
  | '\x0c' => ['\\', 'f']
  | '\n' => ['\\', 'n']
  | '\r' => ['\\', 'r']
  | '\t' => ['\\', 't']
  | c =>
    if c.toNat < 0x20 then ['\\', 'u', '0', '0', hexDigit (c.toNat / 16), hexDigit (c.toNat % 16)]
    else [c]

def write (s : String) : String := String.ofList ('"' :: s.toList.flatMap escape ++ ['"'])

end Quoted

/-- Where the decimal point of `0.d₁d₂… · 10 ^ k` may stand: between the two bounds of `k` the number
is written out, otherwise with an exponent. -/
structure RealLayout where
  leastPoint : Int
  greatestPoint : Int

def realLayout : RealLayout := ⟨-4, 16⟩

namespace Number

def decimal (n : Nat) : List Char := Nat.toDigits 10 n

def integerText (value : Int) : List Char :=
  if value < 0 then '-' :: decimal value.natAbs else decimal value.natAbs

def zeros (n : Nat) : List Char := List.replicate n '0'

def pointed (digits : List Char) (k : Int) : List Char :=
  if k ≤ 0 then '0' :: '.' :: zeros (-k).toNat ++ digits
  else if digits.length ≤ k.toNat then digits ++ zeros (k.toNat - digits.length) ++ ['.', '0']
  else digits.take k.toNat ++ '.' :: digits.drop k.toNat

def scientific (digits : List Char) (k : Int) : List Char :=
  let exponent := k - 1
  let mark := if exponent < 0 then ['e', '-'] else ['e', '+']
  let fraction := if digits.length ≤ 1 then [] else '.' :: digits.drop 1
  digits.take 1 ++ fraction ++ mark ++ decimal exponent.natAbs

def decimalText (layout : RealLayout) (d : Decimal) : List Char :=
  let digits := decimal d.digits
  let k := digits.length + d.exponent
  if layout.leastPoint ≤ k ∧ k ≤ layout.greatestPoint then pointed digits k
  else scientific digits k

def realText (value : Binary64) : List Char :=
  let text := decimalText realLayout value.magnitude.shortest
  if value.negative then '-' :: text else text

def write : Number → String
  | .integer value => String.ofList (integerText value)
  | .real value => String.ofList (realText value)

end Number

end MemoSequence
