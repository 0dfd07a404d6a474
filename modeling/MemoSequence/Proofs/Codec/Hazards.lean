import MemoSequence.Proofs.Codec.Endless
import MemoSequence.Proofs.Codec.Standard
import MemoSequence.Proofs.Threading
set_option autoImplicit false

/-!
# Decoders without hazards

The decoders can also be told with words of 32 bits and positions in the buffer, where the branch depends on
the number of pending bytes and on the lead byte alone. Then a position may lie behind the buffer, a
difference may fall below zero, and a shift or a sum may not fit into a word. Here each of these is tested and
ends the decoding. None of them ever comes to pass: whatever has been fed, the buffer holds an unfinished
character, and of such a buffer the tested step makes the same as the plain one.
-/
namespace MemoSequence

inductive Hazard where
  | outOfBounds
  | belowZero
  | overflow
  deriving DecidableEq, Repr

abbrev Checked (α : Type) : Type := Except Hazard α

namespace Checked

def byteAt (bytes : List UInt8) (i : ℕ) : Checked UInt8 :=
  match bytes[i]? with
  | some b => .ok b
  | none => .error .outOfBounds

def word (b : Checked UInt8) : Checked UInt32 := b.map UInt8.toUInt32

def shiftLeft (x : Checked UInt32) (i : UInt32) : Checked UInt32 := do
  let x ← x
  if i < 32 ∧ x.toNat <<< i.toNat < UInt32.size then .ok (x <<< i) else .error .overflow

def or (x y : Checked UInt32) : Checked UInt32 := do
  return (← x) ||| (← y)

def add (x y : Checked UInt32) : Checked UInt32 := do
  let x ← x
  let y ← y
  if x.toNat + y.toNat < UInt32.size then .ok (x + y) else .error .overflow

def sub (x y : Checked UInt32) : Checked UInt32 := do
  let x ← x
  let y ← y
  if y ≤ x then .ok (x - y) else .error .belowZero

/-- The computation meets no hazard, and its word is this number. -/
def Reckons (x : Checked UInt32) (n : ℕ) : Prop := ∃ v : UInt32, x = .ok v ∧ v.toNat = n

theorem ok_bind {α β : Type} (a : α) (f : α → Checked β) : (Except.ok a : Checked α) >>= f = f a := rfl

variable {x y : Checked UInt32} {m n : ℕ}

theorem reckons_ok (v : UInt32) : Reckons (.ok v) v.toNat := ⟨v, rfl, rfl⟩

theorem reckons_word (b : UInt8) : Reckons (word (.ok b)) b.toNat := ⟨b.toUInt32, rfl, b.toNat_toUInt32⟩

theorem Reckons.shiftLeft {i : UInt32} (k : ℕ) (h : Reckons x n) (hi : i.toNat = k) (hk : k < 32)
    (hn : n * 2 ^ k < UInt32.size) : Reckons (x.shiftLeft i) (n * 2 ^ k) := by
  obtain ⟨v, rfl, rfl⟩ := h
  have hshift : v.toNat <<< i.toNat = v.toNat * 2 ^ k := by rw [Nat.shiftLeft_eq, hi]
  have hlt : i < 32 := UInt32.lt_iff_toNat_lt.2 (hi ▸ hk)
  refine ⟨v <<< i, if_pos ⟨hlt, hshift ▸ hn⟩, ?_⟩
  rw [UInt32.toNat_shiftLeft, hi, Nat.mod_eq_of_lt hk, Nat.shiftLeft_eq]
  exact Nat.mod_eq_of_lt hn

theorem Reckons.or (k a : ℕ) (hx : Reckons x n) (hy : Reckons y m) (hn : n = 2 ^ k * a)
    (hm : m < 2 ^ k) : Reckons (x.or y) (n + m) := by
  obtain ⟨v, rfl, rfl⟩ := hx
  obtain ⟨u, rfl, rfl⟩ := hy
  refine ⟨v ||| u, rfl, ?_⟩
  rw [UInt32.or_comm, toNat_or_of_lt k a hn hm]

theorem Reckons.add (hx : Reckons x n) (hy : Reckons y m) (h : n + m < UInt32.size) :
    Reckons (x.add y) (n + m) := by
  obtain ⟨v, rfl, rfl⟩ := hx
  obtain ⟨u, rfl, rfl⟩ := hy
  refine ⟨v + u, if_pos h, ?_⟩
  rw [UInt32.toNat_add]
  exact Nat.mod_eq_of_lt h

theorem Reckons.sub (hx : Reckons x n) (hy : Reckons y m) (h : m ≤ n) : Reckons (x.sub y) (n - m) := by
  obtain ⟨v, rfl, rfl⟩ := hx
  obtain ⟨u, rfl, rfl⟩ := hy
  have hle : u ≤ v := UInt32.le_iff_toNat_le.2 h
  exact ⟨v - u, if_pos hle, UInt32.toNat_sub_of_le _ _ hle⟩

theorem Reckons.eq_ok (h : Reckons x n) : x = .ok (.ofNat n) := by
  obtain ⟨v, rfl, rfl⟩ := h
  rw [UInt32.ofNat_toNat]

end Checked

abbrev CheckedStep : Type :=
  List UInt8 → Option UInt8 → Checked (List (Except CodecError UInt32) × List UInt8)

namespace Utf8
open Checked

def sixBits (b : Checked UInt8) : Checked UInt32 := word (b.map (· &&& 0x3F))

def completed? (pending : List UInt8) (lead b : UInt8) : Option (Checked UInt32) :=
  match pending.length with
  | 1 =>
    if lead < 0xE0 then
      some (((word (.ok (lead &&& 0x1F))).shiftLeft 6).or (sixBits (.ok b)))
    else none
  | 2 =>
    if lead < 0xF0 then
      some ((((word (.ok (lead &&& 0x0F))).shiftLeft 12).or ((sixBits (byteAt pending 1)).shiftLeft 6)).or
        (sixBits (.ok b)))
    else none
  | 3 =>
    some (((((word (.ok (lead &&& 0x07))).shiftLeft 18).or ((sixBits (byteAt pending 1)).shiftLeft 12)).or
      ((sixBits (byteAt pending 2)).shiftLeft 6)).or (sixBits (.ok b)))
  | _ => none

def checkedByte (pending : List UInt8) (b : UInt8) :
    Checked (List (Except CodecError UInt32) × List UInt8) :=
  match pending.head? with
  | none => .ok (decodeByte [] b)
  | some lead =>
    if !isContinuation b then .ok ([.error (.invalidSequence (pending ++ [b]))], [])
    else
      match completed? pending lead b with
      | some c => c.map fun c => ([.ok c], [])
      | none => .ok ([], pending ++ [b])

theorem toNat_and_mask (b : UInt8) (i : ℕ) {m : UInt8} (hm : m.toNat = 2 ^ i - 1) :
    (b &&& m).toNat = b.toNat % 2 ^ i := by
  rw [UInt8.toNat_and, hm, Nat.and_two_pow_sub_one_eq_mod]

theorem reckons_masked (b : UInt8) (i : ℕ) {m : UInt8} (hm : m.toNat = 2 ^ i - 1) :
    Reckons (word (.ok (b &&& m))) (b.toNat % 2 ^ i) := by
  rw [← toNat_and_mask b i hm]
  exact reckons_word _

theorem reckons_sixBits (b : UInt8) : Reckons (sixBits (.ok b)) (b.toNat % 0x40) :=
  reckons_masked b 6 rfl

theorem reckons_shifted (b m : UInt8) (j : UInt32) (i k : ℕ) (hm : m.toNat = 2 ^ i - 1)
    (hj : j.toNat = k) (hk : k ≤ 18) :
    Reckons ((word (.ok (b &&& m))).shiftLeft j) (b.toNat % 2 ^ i * 2 ^ k) := by
  have hb : b.toNat % 2 ^ i < 2 ^ 8 := (Nat.mod_le _ _).trans_lt b.toNat_lt
  have hpow : 2 ^ k ≤ 2 ^ 18 := Nat.pow_le_pow_right (by decide) hk
  have hlt : b.toNat % 2 ^ i * 2 ^ k < 2 ^ 8 * 2 ^ 18 := Nat.mul_lt_mul_of_lt_of_le hb hpow (by decide)
  exact (reckons_masked b i hm).shiftLeft k hj (by omega) (by rw [UInt32.size]; omega)

section Completing
variable {lead : UInt8} {more : List UInt8} {n : ℕ}

theorem completed?_of_short (h : Lead lead n) (hn : more.length + 1 < n) (b : UInt8) :
    completed? (lead :: more) lead b = none := by
  cases h with
  | two h => omega
  | three h =>
    have hlead : ¬ lead < 0xE0 := UInt8.not_lt.2 h.1
    obtain rfl : more = [] := List.eq_nil_of_length_eq_zero (by omega)
    exact if_neg hlead
  | four h =>
    have hlead : ¬ lead < 0xF0 := UInt8.not_lt.2 h.1
    have hlead' : ¬ lead < 0xE0 := fun hlt => hlead (UInt8.lt_trans hlt (by decide))
    match more with
    | [] => exact if_neg hlead'
    | [x] => exact if_neg hlead
    | x :: y :: rest =>
      rw [List.length_cons, List.length_cons] at hn
      omega

theorem completed?_reckons (h : Lead lead n) (hn : more.length + 1 = n) (b : UInt8) :
    ∃ c, completed? (lead :: more) lead b = some c ∧ Reckons c (payload lead (more ++ [b])) := by
  have hbits : leadBits lead = lead.toNat % 2 ^ (6 - n) := by
    rw [leadBits, Nat.one_shiftLeft, h.width_eq, show 7 - (n + 1) = 6 - n by omega]
  have hlast : b.toNat % 0x40 < 2 ^ 6 := Nat.mod_lt _ (by decide)
  cases h with
  | two h =>
    have hlead : lead < 0xE0 := UInt8.lt_of_le_of_lt h.2 (by decide)
    obtain rfl : more = [] := List.eq_nil_of_length_eq_zero (by omega)
    have hpayload : payload lead [b] = lead.toNat % 2 ^ 5 * 2 ^ 6 + b.toNat % 0x40 := by
      rw [← hbits]
      rfl
    have hfirst := reckons_shifted lead 0x1F 6 5 6 rfl rfl (by decide)
    refine ⟨_, if_pos hlead, ?_⟩
    rw [List.nil_append, hpayload]
    exact hfirst.or 6 _ (reckons_sixBits b) (Nat.mul_comm _ _) hlast
  | three h =>
    have hlead : lead < 0xF0 := UInt8.lt_of_le_of_lt h.2 (by decide)
    obtain ⟨x, rfl⟩ : ∃ x, more = [x] := List.length_eq_one_iff.1 (by omega)
    have hpayload : payload lead [x, b] =
        lead.toNat % 2 ^ 4 * 2 ^ 12 + x.toNat % 2 ^ 6 * 2 ^ 6 + b.toNat % 0x40 := by
      have hfold : payload lead [x, b] = (leadBits lead * 0x40 + x.toNat % 0x40) * 0x40 + b.toNat % 0x40 := rfl
      rw [hfold, hbits]
      omega
    have hfirst := reckons_shifted lead 0x0F 12 4 12 rfl rfl (by decide)
    have hsecond := reckons_shifted x 0x3F 6 6 6 rfl rfl (by decide)
    have hboth := hfirst.or 12 _ hsecond (Nat.mul_comm _ _) (by omega)
    refine ⟨_, if_pos hlead, ?_⟩
    rw [List.singleton_append, hpayload]
    exact hboth.or 6 (lead.toNat % 2 ^ 4 * 2 ^ 6 + x.toNat % 2 ^ 6) (reckons_sixBits b) (by omega) hlast
  | four h =>
    obtain ⟨x, y, rfl⟩ : ∃ x y, more = [x, y] := List.length_eq_two.1 (by omega)
    have hpayload : payload lead [x, y, b] = lead.toNat % 2 ^ 3 * 2 ^ 18 + x.toNat % 2 ^ 6 * 2 ^ 12 +
        y.toNat % 2 ^ 6 * 2 ^ 6 + b.toNat % 0x40 := by
      have hfold : payload lead [x, y, b] =
          ((leadBits lead * 0x40 + x.toNat % 0x40) * 0x40 + y.toNat % 0x40) * 0x40 + b.toNat % 0x40 := rfl
      rw [hfold, hbits]
      omega
    have hfirst := reckons_shifted lead 0x07 18 3 18 rfl rfl (by decide)
    have hsecond := reckons_shifted x 0x3F 12 6 12 rfl rfl (by decide)
    have hthird := reckons_shifted y 0x3F 6 6 6 rfl rfl (by decide)
    have hboth := hfirst.or 18 _ hsecond (Nat.mul_comm _ _) (by omega)
    have hall := hboth.or 12 (lead.toNat % 2 ^ 3 * 2 ^ 6 + x.toNat % 2 ^ 6) hthird (by omega) (by omega)
    refine ⟨_, rfl, ?_⟩
    rw [List.cons_append, List.singleton_append, hpayload]
    exact hall.or 6 (lead.toNat % 2 ^ 3 * 2 ^ 12 + x.toNat % 2 ^ 6 * 2 ^ 6 + y.toNat % 2 ^ 6)
      (reckons_sixBits b) (by omega) hlast

end Completing

/-- With an unfinished character, or nothing, in the buffer no hazard is met. -/
theorem checkedByte_eq {pending : List UInt8} (hp : Pending pending) (b : UInt8) :
    checkedByte pending b = .ok (decodeByte pending b) := by
  obtain rfl | hu := hp
  · rfl
  cases hu with
  | @short lead more n hl hn ht =>
    simp only [checkedByte, List.head?_cons, decodeByte, List.cons_append, hl.width_eq]
    by_cases hb : isContinuation b = true
    · rw [if_neg (by simp [hb]), if_neg (by simp [hb])]
      by_cases hlast : more.length + 2 = n + 1
      · obtain ⟨c, hc, hreckons⟩ := completed?_reckons hl (Nat.succ.inj hlast) b
        rw [hc, if_pos hlast, hreckons.eq_ok]
        rfl
      · rw [completed?_of_short hl (by omega), if_neg hlast]
    · rw [if_pos (by simp [hb]), if_pos (by simp [hb])]

end Utf8

namespace Utf16
open Checked

def checkedUnit (high low : Checked UInt8) : Checked UInt32 := ((word high).shiftLeft 8).or (word low)

def checkedPair (pending : List UInt8) (low : UInt32) : Checked UInt32 :=
  ((((checkedUnit (byteAt pending 0) (byteAt pending 1)).sub (.ok 0xD800)).shiftLeft 10).add
    (sub (.ok low) (.ok 0xDC00))).add (.ok 0x10000)

def checkedByte (pending : List UInt8) (b : UInt8) :
    Checked (List (Except CodecError UInt32) × List UInt8) :=
  match pending.length with
  | 0 | 2 => .ok ([], pending ++ [b])
  | 1 => do
    let u ← checkedUnit (byteAt pending 0) (.ok b)
    if u ≤ 0xD7FF ∨ (0xE000 ≤ u ∧ u ≤ 0xFFFF) then return ([.ok u], [])
    else if isHighSurrogate u.toNat then return ([], pending ++ [b])
    else return ([.error (.invalidSequence (pending ++ [b]))], [])
  | _ => do
    let low ← checkedUnit (byteAt pending 2) (.ok b)
    if isLowSurrogate low.toNat then return ([.ok (← checkedPair pending low)], [])
    else return ([.error (.invalidSequence (pending ++ [b]))], [])

theorem checkedUnit_reckons (a b : UInt8) : Reckons (checkedUnit (.ok a) (.ok b)) (unit a b) := by
  have ha := a.toNat_lt
  have hhigh : Reckons ((word (.ok a)).shiftLeft 8) (a.toNat * 2 ^ 8) :=
    (reckons_word a).shiftLeft 8 rfl (by decide) (by rw [UInt32.size]; omega)
  exact hhigh.or 8 _ (reckons_word b) (Nat.mul_comm _ _) b.toNat_lt

theorem checkedUnit_eq (a b : UInt8) : checkedUnit (.ok a) (.ok b) = .ok (.ofNat (unit a b)) :=
  (checkedUnit_reckons a b).eq_ok

theorem toNat_unit (a b : UInt8) : (UInt32.ofNat (unit a b)).toNat = unit a b := by
  have hlt := unit_lt a b
  rw [UInt32.toNat_ofNat']
  exact Nat.mod_eq_of_lt (by omega)

theorem checkedPair_reckons {h l a b : UInt8} (hh : HighSurrogate (unit h l))
    (hl : LowSurrogate (unit a b)) (more : List UInt8) :
    Reckons (checkedPair (h :: l :: more) (.ofNat (unit a b))) (paired (unit h l) (unit a b)) := by
  obtain ⟨hh₁, hh₂⟩ := hh
  obtain ⟨hl₁, hl₂⟩ := hl
  have hunit : Reckons (.ok (.ofNat (unit a b))) (unit a b) := ⟨_, rfl, toNat_unit a b⟩
  have hhigh : Reckons ((checkedUnit (.ok h) (.ok l)).sub (.ok 0xD800)) (unit h l - 0xD800) :=
    (checkedUnit_reckons h l).sub (reckons_ok 0xD800) hh₁
  have hlow : Reckons (sub (.ok (.ofNat (unit a b))) (.ok 0xDC00)) (unit a b - 0xDC00) :=
    hunit.sub (reckons_ok 0xDC00) hl₁
  have hshift : Reckons (((checkedUnit (.ok h) (.ok l)).sub (.ok 0xD800)).shiftLeft 10)
      ((unit h l - 0xD800) * 2 ^ 10) :=
    hhigh.shiftLeft 10 rfl (by decide) (by rw [UInt32.size]; omega)
  have hoffset := hshift.add hlow (by rw [UInt32.size]; omega)
  have hbase : Reckons (.ok 0x10000) 0x10000 := reckons_ok 0x10000
  have hpaired : paired (unit h l) (unit a b) =
      (unit h l - 0xD800) * 2 ^ 10 + (unit a b - 0xDC00) + 0x10000 := by
    unfold paired
    omega
  rw [hpaired]
  exact hoffset.add hbase (by rw [UInt32.size]; omega)

theorem no_surrogate_iff (a b : UInt8) :
    (UInt32.ofNat (unit a b) ≤ 0xD7FF ∨
        (0xE000 ≤ UInt32.ofNat (unit a b) ∧ UInt32.ofNat (unit a b) ≤ 0xFFFF)) ↔
      ¬ HighSurrogate (unit a b) ∧ ¬ LowSurrogate (unit a b) := by
  have hlt := unit_lt a b
  simp only [UInt32.le_iff_toNat_le, toNat_unit, UInt32.reduceToNat, HighSurrogate, LowSurrogate]
  omega

theorem checkedByte_eq {pending : List UInt8} (hp : Pending pending) (b : UInt8) :
    checkedByte pending b = .ok (decodeByte pending b) := by
  cases hp with
  | nothing => rfl
  | @half a =>
    have hread : checkedUnit (byteAt [a] 0) (.ok b) = .ok (.ofNat (unit a b)) := checkedUnit_eq a b
    simp only [checkedByte, List.length_singleton, hread, ok_bind, decodeByte, toNat_unit, no_surrogate_iff,
      ← isHighSurrogate_iff, ← isLowSurrogate_iff]
    by_cases hh : isHighSurrogate (unit a b) = true
    · rw [if_neg (fun h => h.1 hh), if_pos hh, if_pos hh]
      rfl
    · by_cases hl : isLowSurrogate (unit a b) = true
      · rw [if_neg (fun h => h.2 hl), if_neg hh, if_neg hh, if_pos hl]
        rfl
      · rw [if_pos ⟨hh, hl⟩, if_neg hh, if_neg hl]
        rfl
  | high hh => rfl
  | @highHalf h l a hh =>
    have hread : checkedUnit (byteAt [h, l, a] 2) (.ok b) = .ok (.ofNat (unit a b)) := checkedUnit_eq a b
    simp only [checkedByte, List.length_cons, List.length_nil, hread, ok_bind, decodeByte, toNat_unit]
    by_cases hl : isLowSurrogate (unit a b) = true
    · have hpair := checkedPair_reckons hh ((isLowSurrogate_iff _).1 hl) [a]
      rw [if_pos hl, if_pos hl, hpair.eq_ok]
      rfl
    · rw [if_neg hl, if_neg hl]
      rfl

/-- Behind any other unit a difference could fall below zero. -/
example : checkedByte [0x00, 0x41, 0xDC] 0x00 = .error .belowZero := by rfl

end Utf16

/-- All outputs for some inputs, and the bytes that are pending then. The first hazard ends the run. -/
def checkedRun (step : CheckedStep) (pending : List UInt8) :
    List (Option UInt8) → Checked (List (Except CodecError UInt32) × List UInt8)
  | [] => .ok ([], pending)
  | input :: rest => do
    let made ← step pending input
    let left ← checkedRun step made.2 rest
    return (made.1 ++ left.1, left.2)

namespace Encoding

def checkedByte : Encoding → List UInt8 → UInt8 → Checked (List (Except CodecError UInt32) × List UInt8)
  | utf8 => Utf8.checkedByte
  | utf16 => Utf16.checkedByte

def checkedStep (e : Encoding) : CheckedStep
  | pending, some b => e.checkedByte pending b
  | pending, none => .ok (if pending.isEmpty then ([], []) else ([.error (.unexpectedEnd pending)], []))

def buffered (e : Encoding) (inputs : List (Option UInt8)) : List UInt8 :=
  scanState (fun x => e.step x.1 x.2) [] inputs

/-- What a step may make of an input: an element, and nothing is pending any more, or nothing, and the byte
is pending too. -/
inductive Makes (e : Encoding) (pending : List UInt8) :
    Option UInt8 → List (Except CodecError UInt32) × List UInt8 → Prop
  | element (input : Option UInt8) (x : Except CodecError UInt32) : Makes e pending input ([x], [])
  | held {b : UInt8} (h : e.Pending (pending ++ [b])) : Makes e pending (some b) ([], pending ++ [b])
  | nothing (h : pending = []) : Makes e pending none ([], [])

variable {e : Encoding} {pending : List UInt8} {input : Option UInt8}

theorem Makes.keeps {made : List (Except CodecError UInt32) × List UInt8}
    (h : e.Makes pending input made) : e.Pending made.2 := by
  cases h with
  | element => exact e.cuts.start
  | held h => exact h
  | nothing => exact e.cuts.start

theorem step_makes (hp : e.Pending pending) (input : Option UInt8) :
    e.Makes pending input (e.step pending input) := by
  cases input with
  | some b =>
    obtain ⟨x, hx, -⟩ | ⟨hx, hp'⟩ := e.cuts.byte hp b
    · exact hx ▸ .element _ x
    · exact hx ▸ .held hp'
  | none =>
    rw [e.cuts.mark]
    cases pending with
    | nil => exact .nothing rfl
    | cons b rest => exact .element _ _

theorem checkedStep_eq (hp : e.Pending pending) (input : Option UInt8) :
    e.checkedStep pending input = .ok (e.step pending input) := by
  cases input with
  | some b =>
    cases e with
    | utf8 => exact Utf8.checkedByte_eq hp b
    | utf16 => exact Utf16.checkedByte_eq hp b
  | none => exact congrArg Except.ok (e.cuts.mark pending).symm

theorem pending_scanState (hp : e.Pending pending) (inputs : List (Option UInt8)) :
    e.Pending (scanState (fun x => e.step x.1 x.2) pending inputs) := by
  induction inputs generalizing pending with
  | nil => exact hp
  | cons input rest ih => exact ih (step_makes hp input).keeps

/-- The run with tests is the run without them. -/
theorem checkedRun_eq (hp : e.Pending pending) (inputs : List (Option UInt8)) :
    checkedRun e.checkedStep pending inputs =
      .ok (emitted e.step pending inputs, scanState (fun x => e.step x.1 x.2) pending inputs) := by
  induction inputs generalizing pending with
  | nil => rfl
  | cons input rest ih =>
    rw [checkedRun, checkedStep_eq hp input, Checked.ok_bind, ih (step_makes hp input).keeps]
    rfl

/-- What is certain of the buffer between two steps, whatever comes next. -/
structure Steady (e : Encoding) (pending : List UInt8) : Prop where
  unfinished : e.Pending pending
  short : pending.length ≤ 3
  makes : ∀ input, e.Makes pending input (e.step pending input)
  checked : ∀ input, e.checkedStep pending input = .ok (e.step pending input)

/-- Whatever has been fed, the buffer is well formed and the next step meets no hazard, so none is met in
decoding a whole input. -/
theorem decoding_safe (e : Encoding) :
    (∀ inputs, e.Steady (e.buffered inputs)) ∧
      ∀ bytes : List UInt8, ∃ out : List (Except CodecError UInt32),
        (e.decode (.ofList bytes)).Collects out ∧
          checkedRun e.checkedStep [] (bytes.map some ++ [none]) = .ok (out, []) := by
  refine ⟨fun inputs => ?_, fun bytes => ⟨_, e.decode_collects bytes, ?_⟩⟩
  · have hp := pending_scanState e.cuts.start inputs
    exact ⟨hp, e.pending_short hp, step_makes hp, checkedStep_eq hp⟩
  · have hlast : scanState (fun x => e.step x.1 x.2) [] (bytes.map some ++ [none]) = [] := by
      rw [scanState, List.foldl_append, List.foldl_cons, List.foldl_nil, e.cuts.mark]
      split_ifs <;> rfl
    rw [checkedRun_eq e.cuts.start, hlast, emitted, scanOutputs_terminated]

end Encoding

end MemoSequence
