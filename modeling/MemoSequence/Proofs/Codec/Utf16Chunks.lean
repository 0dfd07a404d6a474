import MemoSequence.Proofs.Codec.Decoding
set_option autoImplicit false

namespace MemoSequence.Utf16

/-- The bytes that an output stands for. -/
def original : Except CodecError UInt32 → List UInt8
  | .ok c => (encodeCodePoint c).filterMap Except.toOption
  | .error e => e.bytes

def HighSurrogate (u : Nat) : Prop := 0xD800 ≤ u ∧ u ≤ 0xDBFF

def LowSurrogate (u : Nat) : Prop := 0xDC00 ≤ u ∧ u ≤ 0xDFFF

def Scalar (c : UInt32) : Prop :=
  c.toNat ≤ 0x10FFFF ∧ ¬ HighSurrogate c.toNat ∧ ¬ LowSurrogate c.toNat

/-- Bytes of a low surrogate alone, or of a high surrogate before a unit that is no low one. -/
inductive Unpaired : List UInt8 → Prop
  | low {a b : UInt8} (h : LowSurrogate (unit a b)) : Unpaired [a, b]
  | high {h l a b : UInt8} (hh : HighSurrogate (unit h l)) (hl : ¬ LowSurrogate (unit a b)) :
      Unpaired [h, l, a, b]

def Regular : Except CodecError UInt32 → Prop
  | .ok c => Scalar c ∧ ∃ bytes : List UInt8, encodeCodePoint c = bytes.map .ok
  | .error (.invalidSequence bytes) => Unpaired bytes
  | .error (.unexpectedEnd bytes) => 1 ≤ bytes.length ∧ bytes.length ≤ 3
  | .error (.invalidCodePoint _) => False

def Chunk (e : Except CodecError UInt32) (chunk : List UInt8) : Prop :=
  original e = chunk ∧ Regular e

section Units
variable {a b : UInt8} {high low : Nat}

theorem unit_lt (a b : UInt8) : unit a b < 0x10000 := by
  have ha := a.toNat_lt
  have hb := b.toNat_lt
  rw [unit]
  omega

theorem unitBytes_unit (a b : UInt8) : unitBytes (unit a b) = [a, b] := by
  have hb := b.toNat_lt
  have hhigh : unit a b / 0x100 = a.toNat := by
    rw [unit]
    omega
  have hlow : unit a b % 0x100 = b.toNat := by
    rw [unit]
    omega
  rw [unitBytes, hhigh, hlow, UInt8.ofNat_toNat, UInt8.ofNat_toNat]

theorem isHighSurrogate_iff (u : Nat) : isHighSurrogate u = true ↔ HighSurrogate u := by
  simp [isHighSurrogate, HighSurrogate]

theorem isLowSurrogate_iff (u : Nat) : isLowSurrogate u = true ↔ LowSurrogate u := by
  simp [isLowSurrogate, LowSurrogate]

theorem units?_of_lt {c : Nat} (hc : c < 0x10000) (hh : ¬ HighSurrogate c) (hl : ¬ LowSurrogate c) :
    units? c = some [c] := by
  have hnone : ¬ (isHighSurrogate c || isLowSurrogate c) = true := by
    rw [Bool.or_eq_true, isHighSurrogate_iff, isLowSurrogate_iff]
    tauto
  rw [units?, if_pos hc, if_neg hnone]

theorem paired_bounds (hh : HighSurrogate high) (hl : LowSurrogate low) :
    0x10000 ≤ paired high low ∧ paired high low < 0x110000 := by
  unfold HighSurrogate LowSurrogate paired at *
  omega

theorem units?_paired (hh : HighSurrogate high) (hl : LowSurrogate low) :
    units? (paired high low) = some [high, low] := by
  obtain ⟨hlow, hhigh⟩ := paired_bounds hh hl
  have hdiv : 0xD800 + (paired high low - 0x10000) / 0x400 = high := by
    unfold HighSurrogate LowSurrogate paired at *
    omega
  have hmod : 0xDC00 + (paired high low - 0x10000) % 0x400 = low := by
    unfold HighSurrogate LowSurrogate paired at *
    omega
  rw [units?, if_neg (by omega), if_pos hhigh, hdiv, hmod]

theorem encodeCodePoint_of_units {c : Nat} {units : List Nat} (hc : c < 2 ^ 32)
    (h : units? c = some units) :
    encodeCodePoint (.ofNat c) = (units.flatMap unitBytes).map .ok := by
  rw [encodeCodePoint, UInt32.toNat_ofNat', Nat.mod_eq_of_lt hc, h]

theorem filterMap_ok (bytes : List UInt8) :
    (bytes.map (Except.ok : UInt8 → Except CodecError UInt8)).filterMap Except.toOption = bytes := by
  rw [List.filterMap_map]
  exact List.filterMap_some

theorem chunk_of_units {c : Nat} {units : List Nat} {bytes : List UInt8} (hc : c < 0x110000)
    (hh : ¬ HighSurrogate c) (hl : ¬ LowSurrogate c) (h : units? c = some units)
    (hbytes : units.flatMap unitBytes = bytes) : Chunk (.ok (.ofNat c)) bytes := by
  have henc := encodeCodePoint_of_units (show c < 2 ^ 32 by omega) h
  have hnat : (UInt32.ofNat c).toNat = c := by
    rw [UInt32.toNat_ofNat']
    exact Nat.mod_eq_of_lt (by omega)
  rw [hbytes] at henc
  refine ⟨?_, ⟨?_, ?_, ?_⟩, bytes, henc⟩
  · rw [original, henc, filterMap_ok]
  · rw [hnat]
    omega
  · rwa [hnat]
  · rwa [hnat]

theorem chunk_unit (hh : ¬ HighSurrogate (unit a b)) (hl : ¬ LowSurrogate (unit a b)) :
    Chunk (.ok (.ofNat (unit a b))) [a, b] := by
  have hlt := unit_lt a b
  refine chunk_of_units (by omega) hh hl (units?_of_lt hlt hh hl) ?_
  rw [List.flatMap_singleton, unitBytes_unit]

theorem chunk_pair {h l : UInt8} (hh : HighSurrogate (unit h l)) (hl : LowSurrogate (unit a b)) :
    Chunk (.ok (.ofNat (paired (unit h l) (unit a b)))) [h, l, a, b] := by
  obtain ⟨hlow, hhigh⟩ := paired_bounds hh hl
  have hnothigh : ¬ HighSurrogate (paired (unit h l) (unit a b)) := by
    unfold HighSurrogate
    omega
  have hnotlow : ¬ LowSurrogate (paired (unit h l) (unit a b)) := by
    unfold LowSurrogate
    omega
  refine chunk_of_units hhigh hnothigh hnotlow (units?_paired hh hl) ?_
  rw [List.flatMap_cons, List.flatMap_singleton, unitBytes_unit, unitBytes_unit]
  rfl

end Units

section Steps

inductive Pending : List UInt8 → Prop
  | nothing : Pending []
  | half {a : UInt8} : Pending [a]
  | high {h l : UInt8} (hh : HighSurrogate (unit h l)) : Pending [h, l]
  | highHalf {h l a : UInt8} (hh : HighSurrogate (unit h l)) : Pending [h, l, a]

theorem decodeByte_cases {pending : List UInt8} (hp : Pending pending) (b : UInt8) :
    (∃ e, decodeByte pending b = ([e], []) ∧ ¬ EndsEarly e ∧ Chunk e (pending ++ [b])) ∨
      (decodeByte pending b = ([], pending ++ [b]) ∧ Pending (pending ++ [b])) := by
  cases hp with
  | nothing => exact .inr ⟨rfl, .half⟩
  | @half a =>
    by_cases hh : HighSurrogate (unit a b)
    · right
      have hb := (isHighSurrogate_iff _).2 hh
      exact ⟨by simp [decodeByte, hb], .high hh⟩
    · left
      have hb : ¬ isHighSurrogate (unit a b) = true := mt (isHighSurrogate_iff _).1 hh
      by_cases hl : LowSurrogate (unit a b)
      · have hc := (isLowSurrogate_iff _).2 hl
        exact ⟨.error (.invalidSequence [a, b]), by simp [decodeByte, hb, hc], nofun, rfl, .low hl⟩
      · have hc : ¬ isLowSurrogate (unit a b) = true := mt (isLowSurrogate_iff _).1 hl
        exact ⟨.ok (.ofNat (unit a b)), by simp [decodeByte, hb, hc], nofun, chunk_unit hh hl⟩
  | high hh => exact .inr ⟨rfl, .highHalf hh⟩
  | @highHalf h l a hh =>
    left
    by_cases hl : LowSurrogate (unit a b)
    · have hc := (isLowSurrogate_iff _).2 hl
      exact ⟨.ok (.ofNat (paired (unit h l) (unit a b))), by simp [decodeByte, hc], nofun,
        chunk_pair hh hl⟩
    · have hc : ¬ isLowSurrogate (unit a b) = true := mt (isLowSurrogate_iff _).1 hl
      exact ⟨.error (.invalidSequence [h, l, a, b]), by simp [decodeByte, hc], nofun, rfl,
        .high hh hl⟩

theorem decodeStep_cuts : Cuts decodeStep Pending Chunk where
  start := .nothing
  byte hp b := decodeByte_cases hp b
  mark _ := rfl
  final hp hne := by
    cases hp with
    | nothing => exact absurd rfl hne
    | _ => exact ⟨rfl, by simp [Regular]⟩

end Steps

theorem flatMap_original {out : List (Except CodecError UInt32)} {chunks : List (List UInt8)}
    (h : List.Forall₂ Chunk out chunks) : out.flatMap original = chunks.flatten := by
  induction h with
  | nil => rfl
  | cons hc _ ih => rw [List.flatMap_cons, List.flatten_cons, hc.1, ih]

theorem forall_regular {out : List (Except CodecError UInt32)} {chunks : List (List UInt8)}
    (h : List.Forall₂ Chunk out chunks) : ∀ e ∈ out, Regular e := by
  induction h with
  | nil => simp
  | cons hc _ ih => exact List.forall_mem_cons.2 ⟨hc.2, ih⟩

/-- Decoding loses and alters nothing, and an early end is reported at most once, at the end. -/
theorem decode_restores (bs : List UInt8) :
    ∃ out : List (Except CodecError UInt32), (decode (.ofList bs)).Collects out ∧
      out.flatMap original = bs ∧ (∀ e ∈ out, Regular e) ∧
      ∀ i bytes, out[i]? = some (.error (.unexpectedEnd bytes)) → i + 1 = out.length := by
  obtain ⟨chunks, hchunks, hflat⟩ := decodeStep_cuts.run decodeStep_cuts.start bs
  refine ⟨decodeFrom decodeStep [] bs, decoder_collects decodeStep bs, ?_, forall_regular hchunks,
    fun i bytes hi => ?_⟩
  · rw [flatMap_original hchunks, hflat, List.nil_append]
  · exact decodeStep_cuts.ends_last decodeStep_cuts.start bs hi ⟨bytes, rfl⟩

end MemoSequence.Utf16
