import MemoSequence.Json.Reader
import MemoSequence.Json.Value
set_option autoImplicit false

/-!
# Reading numbers

The digits of a number go into a significand of 64 bits as long as they fit, and a decimal exponent
stands for the others. A number with neither point nor exponent that fits is an integer. Every other
one is the double that comes of scaling the rounded significand by a rounded power of ten, which need
not be the double nearest to the number written.
-/
namespace MemoSequence

namespace Numeral

def maxSignificand : Nat := (1 <<< 64) - 1

def maxExponent : Nat := (1 <<< 31) - 1

def digitValue (c : Char) : Nat := c.toNat - '0'.toNat

/-- A significand, the decimal exponent it is to be scaled by, and whether every digit has fitted. -/
structure Scaled where
  significand : Nat
  exponent : Int
  fits : Bool

/-- A digit before the point: one that does not fit, and all after it, count as a power of ten. -/
def Scaled.whole (s : Scaled) (c : Char) : Scaled :=
  let next := s.significand * 10 + digitValue c
  if s.fits && next ≤ maxSignificand then { s with significand := next }
  else { s with exponent := s.exponent + 1, fits := false }

def Scaled.fraction (s : Scaled) (c : Char) : Scaled :=
  let next := s.significand * 10 + digitValue c
  if s.fits && next ≤ maxSignificand then
    { s with significand := next, exponent := s.exponent - 1 }
  else { s with fits := false }

def digits : Reader (List Char) := do
  let rest ← get
  set (rest.dropWhile Char.isDigit)
  return rest.takeWhile Char.isDigit

def largestPower : Nat := 308

def power? (n : Nat) : Option Magnitude := Magnitude.ofNat? (Nat.pow 10 n)

/-- Scales by powers of ten in steps that doubles can hold; none when the result is out of range. -/
def scale? : (steps : Nat) → Magnitude → Int → Option Magnitude
  | 0, x, _ => some x
  | steps + 1, x, exponent =>
    if exponent.natAbs ≤ largestPower then do
      let power ← power? exponent.natAbs
      if 0 ≤ exponent then x.mul? power else x.div? power
    else if x.mantissa = 0 then some x
    else if 0 ≤ exponent then none
    else do scale? steps (← x.div? (← power? largestPower)) (exponent + largestPower)

/-- Scaling down by `10 ^ 308` four times leaves nothing of any significand. -/
def real (negative : Bool) (significand : Nat) (exponent : Int) : Reader Number :=
  match Magnitude.ofNat? significand >>= (scale? 8 · exponent) with
  | some magnitude => return .real ⟨negative, magnitude⟩
  | none => Reader.fail .numberOutOfRange

def clamp (exponent : Int) : Int := max (-(maxExponent + 1 : Int)) (min maxExponent exponent)

/-- The digits of an exponent. Where they leave the range of an exponent, the number is zero, or out
of range if its significand is not zero and the exponent is positive. -/
def exponentDigits (negative : Bool) (s : Scaled) (down : Bool) :
    (exponent : Nat) → List Char → Except Fault (Number × List Char)
  | exponent, c :: rest =>
    if c.isDigit then
      let next := exponent * 10 + digitValue c
      if next ≤ maxExponent then exponentDigits negative s down next rest
      else if s.significand ≠ 0 ∧ !down then .error ⟨.numberOutOfRange, rest, 0⟩
      else .ok (.real ⟨negative, .zero⟩, rest.dropWhile Char.isDigit)
    else finish exponent (c :: rest)
  | exponent, [] => finish exponent []
where
  finish (exponent : Nat) (rest : List Char) : Except Fault (Number × List Char) :=
    let shift : Int := if down then -exponent else exponent
    StateT.run (real negative s.significand (clamp (s.exponent + shift))) rest

def exponentPart (negative : Bool) (s : Scaled) : Reader Number := do
  let down ← match ← get with
    | '+' :: rest => set rest; pure false
    | '-' :: rest => set rest; pure true
    | _ => pure false
  match ← get with
  | [] => Reader.fail .endOfValue
  | c :: rest =>
    if c.isDigit then
      let (number, rest) ← exponentDigits negative s down (digitValue c) rest
      set rest
      return number
    else Reader.failNext .invalidNumber

def scaled (negative : Bool) (s : Scaled) : Reader Number := do
  match ← get with
  | 'e' :: rest | 'E' :: rest => set rest; exponentPart negative s
  | _ => real negative s.significand s.exponent

def fractionPart (negative : Bool) (s : Scaled) : Reader Number := do
  let ds ← digits
  if ds.isEmpty then
    if (← get).isEmpty then Reader.fail .endOfValue else Reader.failNext .invalidNumber
  else scaled negative (ds.foldl .fraction { s with fits := true })

/-- An integer within 64 bits, where `-0` and what is too small for a signed one are doubles. -/
def integer (negative : Bool) (significand : Nat) : Reader Number :=
  if !negative then return .integer significand
  else if significand = 0 ∨ 1 <<< 63 < significand then real true significand 0
  else return .integer (-significand)

def unsigned (negative : Bool) : Reader Number := do
  let ds ← digits
  match ds, ← get with
  | [], [] => Reader.fail .endOfValue
  | [], _ => Reader.failNext .invalidNumber
  | '0' :: more :: ds, rest =>
    set (more :: ds ++ rest)
    Reader.failNext .invalidNumber
  | ds, rest =>
    let s := ds.foldl Scaled.whole ⟨0, 0, true⟩
    match rest with
    | '.' :: rest => set rest; fractionPart negative s
    | 'e' :: _ | 'E' :: _ => scaled negative s
    | _ => if s.fits then integer negative s.significand else scaled negative s

def read : Reader Number := do
  match ← get with
  | '-' :: rest => set rest; unsigned true
  | _ => unsigned false

end Numeral

end MemoSequence
