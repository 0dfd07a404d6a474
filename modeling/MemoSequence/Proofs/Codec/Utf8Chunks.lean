import Mathlib.Tactic.Ring
import MemoSequence.Proofs.Codec.Decoding
set_option autoImplicit false

namespace MemoSequence.Utf8

/-- The lowest bits of a byte, the highest of them first. -/
def lowBits (count : Nat) (b : UInt8) : List Bool :=
  (List.range count).reverse.map b.toNat.testBit

def ofBits (bits : List Bool) : Nat := bits.foldl (fun n bit => 2 * n + bit.toNat) 0

inductive Lead : UInt8 → Nat → Prop
  | two {b : UInt8} (h : 0xC2 ≤ b ∧ b ≤ 0xDF) : Lead b 1
  | three {b : UInt8} (h : 0xE0 ≤ b ∧ b ≤ 0xEF) : Lead b 2
  | four {b : UInt8} (h : 0xF0 ≤ b ∧ b ≤ 0xF4) : Lead b 3

def Continuation (b : UInt8) : Prop := 0x80 ≤ b ∧ b ≤ 0xBF

/-- The bytes of a character, and the number that their payload bits write. -/
inductive Character : List UInt8 → Nat → Prop
  | ascii {b : UInt8} (h : b ≤ 0x7F) : Character [b] (ofBits (lowBits 7 b))
  | many {lead : UInt8} {more : List UInt8} (h : Lead lead more.length)
      (ht : ∀ b ∈ more, Continuation b) :
      Character (lead :: more) (ofBits (lowBits (6 - more.length) lead ++ more.flatMap (lowBits 6)))

/-- A lead byte with fewer continuation bytes than it needs. -/
inductive Unfinished : List UInt8 → Prop
  | short {lead : UInt8} {more : List UInt8} {n : Nat} (h : Lead lead n) (hn : more.length < n)
      (ht : ∀ b ∈ more, Continuation b) : Unfinished (lead :: more)

/-- A byte that begins no character, or an unfinished character before a byte that cannot go on with
it. -/
inductive Malformed : List UInt8 → Prop
  | alone {b : UInt8} (h : (0x80 ≤ b ∧ b ≤ 0xC1) ∨ (0xF5 ≤ b ∧ b ≤ 0xFF)) : Malformed [b]
  | broken {front : List UInt8} {b : UInt8} (h : Unfinished front) (hb : ¬ Continuation b) :
      Malformed (front ++ [b])

def Chunk : Except CodecError UInt32 → List UInt8 → Prop
  | .ok c, chunk => Character chunk c.toNat
  | .error (.invalidSequence bytes), chunk => bytes = chunk ∧ Malformed chunk
  | .error (.unexpectedEnd bytes), chunk => bytes = chunk ∧ Unfinished chunk
  | .error (.invalidCodePoint _), _ => False

section Bits

theorem foldl_bits (bits : List Bool) (n : Nat) :
    bits.foldl (fun n bit => 2 * n + bit.toNat) n = n * 2 ^ bits.length + ofBits bits := by
  induction bits generalizing n with
  | nil => simp [ofBits]
  | cons bit rest ih =>
    have hrest := ih (2 * n + bit.toNat)
    have hbit := ih (2 * 0 + bit.toNat)
    simp only [List.foldl_cons, ofBits, List.length_cons, Nat.pow_succ] at hrest hbit ⊢
    rw [hrest, hbit]
    ring

theorem ofBits_append (a b : List Bool) : ofBits (a ++ b) = ofBits a * 2 ^ b.length + ofBits b := by
  rw [ofBits, List.foldl_append, foldl_bits]
  rfl

theorem ofBits_lt (bits : List Bool) : ofBits bits < 2 ^ bits.length := by
  induction bits using List.reverseRecOn with
  | nil => simp [ofBits]
  | append_singleton bits bit ih =>
    have hbit : ofBits [bit] ≤ 1 := by cases bit <;> simp [ofBits]
    rw [ofBits_append, List.length_append, List.length_singleton, Nat.pow_succ]
    omega

@[simp] theorem length_lowBits (count : Nat) (b : UInt8) : (lowBits count b).length = count := by
  simp [lowBits]

theorem ofBits_lowBits (count : Nat) (b : UInt8) : ofBits (lowBits count b) = b.toNat % 2 ^ count := by
  induction count with
  | zero => simp [lowBits, ofBits, Nat.mod_one]
  | succ count ih =>
    have hsplit : lowBits (count + 1) b = b.toNat.testBit count :: lowBits count b := by
      simp [lowBits, List.range_succ]
    have hcons := ofBits_append [b.toNat.testBit count] (lowBits count b)
    rw [List.singleton_append, ← hsplit, ih, length_lowBits] at hcons
    have hbit : ofBits [b.toNat.testBit count] = b.toNat / 2 ^ count % 2 := by
      rw [Nat.testBit_eq_decide_div_mod_eq]
      simp only [ofBits, List.foldl_cons, List.foldl_nil]
      have hlt := Nat.mod_lt (b.toNat / 2 ^ count) (show 0 < 2 by omega)
      by_cases h : b.toNat / 2 ^ count % 2 = 1
      · simp [h]
      · have h0 : b.toNat / 2 ^ count % 2 = 0 := by omega
        simp [h0]
    rw [hcons, hbit, Nat.mod_pow_succ, Nat.add_comm, Nat.mul_comm]

theorem length_flatMap_lowBits (more : List UInt8) :
    (more.flatMap (lowBits 6)).length = 6 * more.length := by
  induction more with
  | nil => rfl
  | cons b rest ih =>
    rw [List.flatMap_cons, List.length_append, length_lowBits, ih, List.length_cons]
    omega

theorem foldl_payload (more : List UInt8) (n : Nat) :
    more.foldl (fun n b => n * 0x40 + b.toNat % 0x40) n =
      n * 2 ^ (more.flatMap (lowBits 6)).length + ofBits (more.flatMap (lowBits 6)) := by
  induction more generalizing n with
  | nil => simp [ofBits]
  | cons b rest ih =>
    have hb : ofBits (lowBits 6 b) = b.toNat % 0x40 := ofBits_lowBits 6 b
    rw [List.foldl_cons, ih, List.flatMap_cons, ofBits_append, hb, List.length_append,
      length_lowBits, Nat.pow_add]
    ring

end Bits

section Leads
variable {b lead : UInt8} {m n : Nat}

theorem Lead.unique (hm : Lead lead m) (hn : Lead lead n) : m = n := by
  cases hm <;> cases hn <;> simp only [UInt8.le_iff_toNat_le, UInt8.reduceToNat] at * <;> omega

theorem Lead.width_eq (h : Lead lead n) : width lead = n + 1 := by
  cases h <;> simp only [width, UInt8.le_iff_toNat_le, UInt8.lt_iff_toNat_lt, UInt8.reduceToNat] at *
    <;> split_ifs <;> omega

theorem Lead.not_ascii (h : Lead b n) : ¬ b ≤ 0x7F := by
  cases h <;> simp only [UInt8.le_iff_toNat_le, UInt8.reduceToNat] at * <;> omega

theorem Lead.bounds (h : Lead lead n) : 0 < n ∧ n ≤ 3 := by
  cases h <;> omega

theorem isLead_iff : isLead b = true ↔ ∃ n, Lead b n := by
  constructor
  · intro h
    simp only [isLead, Bool.and_eq_true, decide_eq_true_eq] at h
    by_cases h2 : b ≤ 0xDF
    · exact ⟨1, .two ⟨h.1, h2⟩⟩
    by_cases h3 : b ≤ 0xEF
    · refine ⟨2, .three ⟨?_, h3⟩⟩
      simp only [UInt8.le_iff_toNat_le, UInt8.reduceToNat] at *
      omega
    · refine ⟨3, .four ⟨?_, h.2⟩⟩
      simp only [UInt8.le_iff_toNat_le, UInt8.reduceToNat] at *
      omega
  · rintro ⟨n, h⟩
    simp only [isLead, Bool.and_eq_true, decide_eq_true_eq]
    cases h <;> simp only [UInt8.le_iff_toNat_le, UInt8.reduceToNat] at * <;> omega

theorem isContinuation_iff : isContinuation b = true ↔ Continuation b := by
  simp [isContinuation, Continuation]

theorem payload_eq {more : List UInt8} (h : Lead lead more.length) :
    (UInt32.ofNat (payload lead more)).toNat =
      ofBits (lowBits (6 - more.length) lead ++ more.flatMap (lowBits 6)) := by
  have hbits : leadBits lead = ofBits (lowBits (6 - more.length) lead) := by
    rw [ofBits_lowBits, leadBits, Nat.one_shiftLeft, h.width_eq,
      show 7 - (more.length + 1) = 6 - more.length by omega]
  have hpayload : payload lead more =
      ofBits (lowBits (6 - more.length) lead ++ more.flatMap (lowBits 6)) := by
    rw [payload, foldl_payload, ofBits_append, hbits]
  have hlen : (lowBits (6 - more.length) lead ++ more.flatMap (lowBits 6)).length ≤ 21 := by
    have hb := h.bounds
    rw [List.length_append, length_lowBits, length_flatMap_lowBits]
    omega
  have hlt := ofBits_lt (lowBits (6 - more.length) lead ++ more.flatMap (lowBits 6))
  have hpow := Nat.pow_le_pow_right (show 0 < 2 by omega) hlen
  rw [hpayload, UInt32.toNat_ofNat']
  exact Nat.mod_eq_of_lt (by omega)

end Leads

section Steps

theorem toNat_ascii {b : UInt8} (h : b ≤ 0x7F) : b.toUInt32.toNat = ofBits (lowBits 7 b) := by
  rw [ofBits_lowBits, UInt8.toNat_toUInt32]
  simp only [UInt8.le_iff_toNat_le, UInt8.reduceToNat] at h
  omega

theorem chunk_ascii {b : UInt8} (h : b ≤ 0x7F) : Chunk (.ok b.toUInt32) [b] := by
  have hc := Character.ascii h
  rwa [← toNat_ascii h] at hc

theorem chunk_many {lead : UInt8} {more : List UInt8} (h : Lead lead more.length)
    (ht : ∀ b ∈ more, Continuation b) :
    Chunk (.ok (.ofNat (payload lead more))) (lead :: more) := by
  have hc := Character.many h ht
  rwa [← payload_eq h] at hc

theorem chunk_alone {b : UInt8} (h : ¬ b ≤ 0x7F) (hb : ¬ ∃ n, Lead b n) :
    Chunk (.error (.invalidSequence [b])) [b] := by
  refine ⟨rfl, .alone ?_⟩
  rw [← isLead_iff, isLead, Bool.and_eq_true, decide_eq_true_eq, decide_eq_true_eq] at hb
  simp only [UInt8.le_iff_toNat_le, UInt8.reduceToNat] at *
  have hmax := b.toNat_lt
  omega

def Pending (bytes : List UInt8) : Prop := bytes = [] ∨ Unfinished bytes

def Takes (pending : List UInt8) (b : UInt8) : Prop :=
  (∃ e, decodeByte pending b = ([e], []) ∧ ¬ EndsEarly e ∧ Chunk e (pending ++ [b])) ∨
    (decodeByte pending b = ([], pending ++ [b]) ∧ Unfinished (pending ++ [b]))

theorem takes_first (b : UInt8) : Takes [] b := by
  have hiff : b < 0x80 ↔ b ≤ 0x7F := by
    simp only [UInt8.le_iff_toNat_le, UInt8.lt_iff_toNat_lt, UInt8.reduceToNat]
    omega
  by_cases hascii : b ≤ 0x7F
  · left
    have hlt : b < 0x80 := hiff.2 hascii
    exact ⟨.ok b.toUInt32, by simp [decodeByte, hlt], nofun, chunk_ascii hascii⟩
  · have hlt : ¬ b < 0x80 := mt hiff.1 hascii
    by_cases hlead : ∃ n, Lead b n
    · right
      have hb : isLead b = true := isLead_iff.2 hlead
      obtain ⟨n, hn⟩ := hlead
      exact ⟨by simp [decodeByte, hlt, hb], .short hn hn.bounds.1 (by simp)⟩
    · left
      have hb : ¬ isLead b = true := mt isLead_iff.1 hlead
      exact ⟨.error (.invalidSequence [b]), by simp [decodeByte, hlt, hb], nofun,
        chunk_alone hascii hlead⟩

theorem takes_more {pending : List UInt8} (hp : Unfinished pending) (b : UInt8) :
    Takes pending b := by
  cases hp with
  | @short lead more n hl hn ht =>
    have hwidth := hl.width_eq
    have hlength : (more ++ [b]).length = more.length + 1 := by simp
    by_cases hb : Continuation b
    · have hcont : isContinuation b = true := isContinuation_iff.2 hb
      have hall : ∀ x ∈ more ++ [b], Continuation x := by
        simp only [List.forall_mem_append, List.forall_mem_singleton]
        exact ⟨ht, hb⟩
      by_cases hlast : more.length + 1 = n
      · left
        have hwhole : more.length + 2 = width lead := by omega
        have hl' : Lead lead (more ++ [b]).length := by
          rw [hlength, hlast]
          exact hl
        exact ⟨.ok (.ofNat (payload lead (more ++ [b]))), by simp [decodeByte, hcont, hwhole],
          nofun, chunk_many hl' hall⟩
      · right
        have hpart : ¬ more.length + 2 = width lead := by omega
        have hmore : (more ++ [b]).length < n := by omega
        exact ⟨by simp [decodeByte, hcont, hpart], .short hl hmore hall⟩
    · left
      have hcont : isContinuation b = false := Bool.eq_false_iff.2 (mt isContinuation_iff.1 hb)
      exact ⟨.error (.invalidSequence (lead :: more ++ [b])), by simp [decodeByte, hcont], nofun, rfl,
        .broken (.short hl hn ht) hb⟩

theorem takes_byte {pending : List UInt8} (hp : Pending pending) (b : UInt8) : Takes pending b := by
  obtain rfl | hu := hp
  · exact takes_first b
  · exact takes_more hu b

theorem decodeStep_cuts : Cuts decodeStep Pending Chunk where
  start := .inl rfl
  byte hp b := (takes_byte hp b).imp_right fun h => ⟨h.1, .inr h.2⟩
  mark _ := rfl
  final hp hne := ⟨rfl, hp.resolve_left hne⟩

end Steps

section Uniqueness
variable {a b r s : List UInt8} {m n : Nat}

/-- Where a character ends is told by its first byte. -/
theorem Character.eq_of_append (ha : Character a m) (hb : Character b n)
    (h : a ++ r = b ++ s) : a = b := by
  cases ha with
  | @ascii x hx =>
    cases hb with
    | ascii hy => exact congrArg (· :: []) (List.cons.inj h).1
    | many hl ht =>
      obtain ⟨rfl, -⟩ := List.cons.inj h
      exact absurd hx hl.not_ascii
  | @many lead more hl ht =>
    cases hb with
    | ascii hy =>
      obtain ⟨rfl, -⟩ := List.cons.inj h
      exact absurd hy hl.not_ascii
    | many hl' ht' =>
      obtain ⟨rfl, hrest⟩ := List.cons.inj h
      exact congrArg (lead :: ·) (List.append_inj hrest (hl.unique hl')).1

theorem Chunk.eq_of_append {e : Except CodecError UInt32} (ha : Chunk e a) (hb : Chunk e b)
    (h : a ++ r = b ++ s) : a = b := by
  match e, ha, hb with
  | .ok c, ha, hb => exact Character.eq_of_append ha hb h
  | .error (.invalidSequence bytes), ha, hb => exact ha.1.symm.trans hb.1
  | .error (.unexpectedEnd bytes), ha, hb => exact ha.1.symm.trans hb.1
  | .error (.invalidCodePoint c), ha, _ => exact ha.elim

theorem chunks_unique {out : List (Except CodecError UInt32)} {xs ys : List (List UInt8)}
    (hx : List.Forall₂ Chunk out xs) (hy : List.Forall₂ Chunk out ys)
    (h : xs.flatten = ys.flatten) : xs = ys := by
  induction hx generalizing ys with
  | nil =>
    cases hy
    rfl
  | cons hc _ ih =>
    cases hy with
    | cons hc' hy =>
      rw [List.flatten_cons, List.flatten_cons] at h
      obtain rfl := Chunk.eq_of_append hc hc' h
      rw [ih hy (List.append_cancel_left h)]

theorem Character.ne_nil (h : Character a n) : a ≠ [] := by
  cases h <;> simp

theorem Chunk.ne_nil {e : Except CodecError UInt32} (h : Chunk e a) : a ≠ [] := by
  match e, h with
  | .ok c, h => exact Character.ne_nil h
  | .error (.invalidSequence bytes), h => cases h.2 <;> simp
  | .error (.unexpectedEnd bytes), h => cases h.2; simp
  | .error (.invalidCodePoint c), h => exact h.elim

theorem chunks_ne_nil {out : List (Except CodecError UInt32)} {chunks : List (List UInt8)}
    (h : List.Forall₂ Chunk out chunks) : ∀ c ∈ chunks, c ≠ [] := by
  induction h with
  | nil => simp
  | cons hc _ ih => exact List.forall_mem_cons.2 ⟨hc.ne_nil, ih⟩

end Uniqueness

/-- Every input is cut in exactly one way into chunks, one for each decoded element. -/
theorem decode_cuts_once (bs : List UInt8) :
    ∃ out : List (Except CodecError UInt32), (decode (.ofList bs)).Collects out ∧
      (∃! chunks : List (List UInt8), List.Forall₂ Chunk out chunks ∧ (∀ c ∈ chunks, c ≠ []) ∧
        chunks.flatten = bs) ∧
      ∀ i bytes, out[i]? = some (.error (.unexpectedEnd bytes)) → i + 1 = out.length := by
  obtain ⟨chunks, hchunks, hflat⟩ := decodeStep_cuts.run decodeStep_cuts.start bs
  refine ⟨decodeFrom decodeStep [] bs, decoder_collects decodeStep bs,
    ⟨chunks, ⟨hchunks, chunks_ne_nil hchunks, hflat⟩, ?_⟩, fun i bytes hi => ?_⟩
  · rintro others ⟨hothers, -, hsame⟩
    exact chunks_unique hothers hchunks (hsame.trans hflat.symm)
  · exact decodeStep_cuts.ends_last decodeStep_cuts.start bs hi ⟨bytes, rfl⟩

end MemoSequence.Utf8
