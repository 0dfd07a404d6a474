import MemoSequence.Proofs.Codec.Utf8Chunks
import MemoSequence.Proofs.Codec.Utf16Chunks
set_option autoImplicit false

namespace MemoSequence

theorem toNat_byte {n : Nat} (h : n < 0x100) : (UInt8.ofNat n).toNat = n :=
  UInt8.toNat_ofNat_of_lt' h

/-- From its empty state the decoder takes these bytes for `c`, and is back there. -/
def Restores (step : DecodeStep) (bytes : List UInt8) (c : UInt32) : Prop :=
  ∀ rest, decodeFrom step [] (bytes ++ rest) = .ok c :: decodeFrom step [] rest

theorem Restores.ne_nil {step : DecodeStep} {bytes : List UInt8} {c : UInt32}
    (h : Restores step bytes c) : bytes ≠ [] := by
  rintro rfl
  exact List.ne_cons_self (h [])

namespace Utf8

theorem decodeFrom_continuations {lead : UInt8} {more rest : List UInt8} {n : Nat} (hl : Lead lead n)
    {front : List UInt8} (hlength : front.length + more.length = n) (hmore : more ≠ [])
    (ht : ∀ b ∈ more, Continuation b) :
    decodeFrom decodeStep (lead :: front) (more ++ rest) =
      .ok (.ofNat (payload lead (front ++ more))) :: decodeFrom decodeStep [] rest := by
  have hwidth := hl.width_eq
  induction more generalizing front with
  | nil => exact absurd rfl hmore
  | cons b more ih =>
    obtain ⟨hb, ht⟩ := List.forall_mem_cons.1 ht
    have hcont : isContinuation b = true := isContinuation_iff.2 hb
    rw [List.length_cons] at hlength
    by_cases hlast : more = []
    · subst hlast
      have hwhole : front.length + 2 = width lead := by
        rw [List.length_nil] at hlength
        omega
      have hstep : decodeStep (lead :: front) (some b) =
          ([.ok (.ofNat (payload lead (front ++ [b])))], []) := by
        simp [decodeStep, decodeByte, hcont, hwhole]
      rw [List.cons_append, decodeFrom, hstep]
      rfl
    · have hpart : ¬ front.length + 2 = width lead := by
        have := List.length_pos_iff.2 hlast
        omega
      have hstep : decodeStep (lead :: front) (some b) = ([], lead :: (front ++ [b])) := by
        simp [decodeStep, decodeByte, hcont, hpart]
      have hfront : (front ++ [b]).length + more.length = n := by
        rw [List.length_append, List.length_singleton]
        omega
      have hrest := ih hfront hlast ht
      rw [List.cons_append, decodeFrom, hstep, List.nil_append, hrest, List.append_assoc,
        List.singleton_append]

theorem Character.restores {bytes : List UInt8} {c : UInt32} (h : Character bytes c.toNat) :
    Restores decodeStep bytes c := by
  intro rest
  generalize hn : c.toNat = n at h
  cases h with
  | @ascii b hb =>
    have hvalue : b.toUInt32 = c := UInt32.toNat_inj.1 ((toNat_ascii hb).trans hn.symm)
    have hlt : b < 0x80 := by
      simp only [UInt8.le_iff_toNat_le, UInt8.lt_iff_toNat_lt, UInt8.reduceToNat] at *
      omega
    have hstep : decodeStep [] (some b) = ([.ok b.toUInt32], []) := by
      simp [decodeStep, decodeByte, hlt]
    rw [List.singleton_append, decodeFrom, hstep, hvalue]
    rfl
  | @many lead more hl ht =>
    have hvalue : UInt32.ofNat (payload lead more) = c :=
      UInt32.toNat_inj.1 ((payload_eq hl).trans hn.symm)
    have hlead : isLead lead = true := isLead_iff.2 ⟨_, hl⟩
    have hlt : ¬ lead < 0x80 := by
      have := hl.not_ascii
      simp only [UInt8.le_iff_toNat_le, UInt8.lt_iff_toNat_lt, UInt8.reduceToNat] at *
      omega
    have hstep : decodeStep [] (some lead) = ([], [lead]) := by
      simp [decodeStep, decodeByte, hlt, hlead]
    have hmore : more ≠ [] := List.length_pos_iff.1 hl.bounds.1
    have hfront : ([] : List UInt8).length + more.length = more.length := Nat.zero_add _
    rw [List.cons_append, decodeFrom, hstep, List.nil_append,
      decodeFrom_continuations hl hfront hmore ht, List.nil_append, hvalue]

section Encoder

theorem toNat_continuing (n : Nat) : (bytes?.continuing n).toNat = 0x80 + n % 0x40 := by
  have hlt := Nat.mod_lt n (show 0 < 0x40 by omega)
  exact toNat_byte (by omega)

theorem continuation_continuing (n : Nat) : Continuation (bytes?.continuing n) := by
  have hlt := Nat.mod_lt n (show 0 < 0x40 by omega)
  simp only [Continuation, UInt8.le_iff_toNat_le, UInt8.reduceToNat, toNat_continuing]
  omega

theorem lead_of_toNat {b : UInt8} {m : Nat} (hb : b.toNat = m) (n : Nat)
    (h : (0xC2 ≤ m ∧ m ≤ 0xDF ∧ n = 1) ∨ (0xE0 ≤ m ∧ m ≤ 0xEF ∧ n = 2) ∨
      (0xF0 ≤ m ∧ m ≤ 0xF4 ∧ n = 3)) : Lead b n := by
  subst hb
  obtain ⟨h1, h2, rfl⟩ | ⟨h1, h2, rfl⟩ | ⟨h1, h2, rfl⟩ := h
  · exact .two ⟨UInt8.le_iff_toNat_le.2 h1, UInt8.le_iff_toNat_le.2 h2⟩
  · exact .three ⟨UInt8.le_iff_toNat_le.2 h1, UInt8.le_iff_toNat_le.2 h2⟩
  · exact .four ⟨UInt8.le_iff_toNat_le.2 h1, UInt8.le_iff_toNat_le.2 h2⟩

theorem character_of_lead {m c : Nat} (numbers : List Nat) (hm : m < 0x100)
    (hl : Lead (.ofNat m) numbers.length)
    (hc : numbers.foldl (fun n k => n * 0x40 + k % 0x40) (m % 2 ^ (6 - numbers.length)) = c) :
    Character (.ofNat m :: numbers.map bytes?.continuing) c := by
  have hall : ∀ b ∈ numbers.map bytes?.continuing, Continuation b := by
    simp only [List.forall_mem_map]
    exact fun n _ => continuation_continuing n
  have hl' : Lead (.ofNat m) (numbers.map bytes?.continuing).length := by rwa [List.length_map]
  have hvalue : ofBits (lowBits (6 - (numbers.map bytes?.continuing).length) (.ofNat m) ++
      (numbers.map bytes?.continuing).flatMap (lowBits 6)) = c := by
    rw [ofBits_append, ← foldl_payload, ofBits_lowBits, toNat_byte hm, List.length_map,
      List.foldl_map, ← hc]
    congr 1
    funext n k
    rw [toNat_continuing]
    omega
  have h := Character.many hl' hall
  rwa [hvalue] at h

theorem character_of_bytes {c : Nat} {bytes : List UInt8} (h : bytes? c = some bytes) :
    Character bytes c := by
  unfold bytes? at h
  split_ifs at h with h1 h2 h3 h4
  · obtain rfl := Option.some.inj h
    have hnat : (UInt8.ofNat c).toNat = c := toNat_byte (by omega)
    have hb : UInt8.ofNat c ≤ 0x7F := by
      simp only [UInt8.le_iff_toNat_le, UInt8.reduceToNat, hnat]
      omega
    have hvalue : ofBits (lowBits 7 (UInt8.ofNat c)) = c := by
      rw [ofBits_lowBits, hnat]
      omega
    have hc := Character.ascii hb
    rwa [hvalue] at hc
  · obtain rfl := Option.some.inj h
    have hl := lead_of_toNat (toNat_byte (show 0xC0 + c / 0x40 < 0x100 by omega)) 1 (by omega)
    exact character_of_lead [c] (by omega) hl (by simp; omega)
  · obtain rfl := Option.some.inj h
    have hl := lead_of_toNat (toNat_byte (show 0xE0 + c / 0x1000 < 0x100 by omega)) 2 (by omega)
    exact character_of_lead [c / 0x40, c] (by omega) hl (by simp; omega)
  · obtain rfl := Option.some.inj h
    have hl := lead_of_toNat (toNat_byte (show 0xF0 + c / 0x40000 < 0x100 by omega)) 3
      (by omega)
    exact character_of_lead [c / 0x1000, c / 0x40, c] (by omega) hl (by simp; omega)

theorem bytes?_eq_none {c : Nat} : bytes? c = none ↔ 0x10FFFF < c := by
  unfold bytes?
  split_ifs <;> simp <;> omega

end Encoder

end Utf8

namespace Utf16

theorem decodeFrom_unit {a b : UInt8} {c : Nat} (hc : unit a b = c) (hh : ¬ HighSurrogate c)
    (hl : ¬ LowSurrogate c) : Restores decodeStep [a, b] (.ofNat c) := by
  subst hc
  intro rest
  have hhigh : ¬ isHighSurrogate (unit a b) = true := mt (isHighSurrogate_iff _).1 hh
  have hlow : ¬ isLowSurrogate (unit a b) = true := mt (isLowSurrogate_iff _).1 hl
  simp [decodeFrom, decodeStep, decodeByte, hhigh, hlow]

theorem decodeFrom_pair {h l a b : UInt8} (hh : HighSurrogate (unit h l))
    (hl : LowSurrogate (unit a b)) :
    Restores decodeStep [h, l, a, b] (.ofNat (paired (unit h l) (unit a b))) := by
  intro rest
  have hhigh := (isHighSurrogate_iff _).2 hh
  have hlow := (isLowSurrogate_iff _).2 hl
  simp [decodeFrom, decodeStep, decodeByte, hhigh, hlow]

theorem unit_unitBytes {u : Nat} (h : u < 0x10000) :
    unit (.ofNat (u / 0x100)) (.ofNat (u % 0x100)) = u := by
  have hhigh : (UInt8.ofNat (u / 0x100)).toNat = u / 0x100 := toNat_byte (by omega)
  have hlow : (UInt8.ofNat (u % 0x100)).toNat = u % 0x100 := toNat_byte (by omega)
  rw [unit, hhigh, hlow]
  omega

theorem restores_of_units {c : Nat} {units : List Nat} (h : units? c = some units) :
    Restores decodeStep (units.flatMap unitBytes) (.ofNat c) := by
  unfold units? at h
  split_ifs at h with h1 h2 h3
  · obtain rfl := Option.some.inj h
    rw [Bool.or_eq_true, isHighSurrogate_iff, isLowSurrogate_iff, not_or] at h2
    exact decodeFrom_unit (unit_unitBytes h1) h2.1 h2.2
  · obtain rfl := Option.some.inj h
    obtain ⟨high, hhigh⟩ : ∃ high, high = 0xD800 + (c - 0x10000) / 0x400 := ⟨_, rfl⟩
    obtain ⟨low, hlow⟩ : ∃ low, low = 0xDC00 + (c - 0x10000) % 0x400 := ⟨_, rfl⟩
    rw [← hhigh, ← hlow]
    have hh : HighSurrogate high := by
      unfold HighSurrogate
      omega
    have hl : LowSurrogate low := by
      unfold LowSurrogate
      omega
    have hpaired : paired high low = c := by
      unfold paired
      omega
    have hrestores := decodeFrom_pair
      (show HighSurrogate (unit (.ofNat (high / 0x100)) (.ofNat (high % 0x100))) by
        rwa [unit_unitBytes (by omega)])
      (show LowSurrogate (unit (.ofNat (low / 0x100)) (.ofNat (low % 0x100))) by
        rwa [unit_unitBytes (by omega)])
    rwa [unit_unitBytes (by omega), unit_unitBytes (by omega), hpaired] at hrestores

theorem units?_eq_none {c : Nat} :
    units? c = none ↔ ¬ (c ≤ 0x10FFFF ∧ ¬ (0xD800 ≤ c ∧ c ≤ 0xDFFF)) := by
  unfold units?
  split_ifs with h1 h2 h3
  · simp only [Bool.or_eq_true, isHighSurrogate_iff, isLowSurrogate_iff, HighSurrogate,
      LowSurrogate] at h2
    simp only [true_iff]
    omega
  · simp only [Bool.or_eq_true, isHighSurrogate_iff, isLowSurrogate_iff, HighSurrogate,
      LowSurrogate] at h2
    simp only [false_iff]
    omega
  · simp only [false_iff]
    omega
  · simp only [true_iff]
    omega

end Utf16

namespace Encoding

def step : Encoding → DecodeStep
  | utf8 => Utf8.decodeStep
  | utf16 => Utf16.decodeStep

/-- The values that have an encoding: UTF-8 takes surrogates too. -/
def Encodable : Encoding → UInt32 → Prop
  | utf8, c => c.toNat ≤ 0x10FFFF
  | utf16, c => c.toNat ≤ 0x10FFFF ∧ ¬ (0xD800 ≤ c.toNat ∧ c.toNat ≤ 0xDFFF)

instance (e : Encoding) (c : UInt32) : Decidable (e.Encodable c) :=
  match e with
  | utf8 => inferInstanceAs (Decidable (_ ≤ _))
  | utf16 => inferInstanceAs (Decidable (_ ∧ _))

/-- What an encoder puts in the place of a value: bytes, or one fault that carries the value. -/
inductive Encodes (e : Encoding) : UInt32 → List (Except CodecError UInt8) → Prop
  | bytes {c : UInt32} {bytes : List UInt8} (h : e.Encodable c) (hb : bytes ≠ []) :
      Encodes e c (bytes.map .ok)
  | fault {c : UInt32} (h : ¬ e.Encodable c) : Encodes e c [.error (.invalidCodePoint c)]

theorem encodeCodePoint_cases (e : Encoding) (c : UInt32) :
    (e.Encodable c ∧ ∃ bytes : List UInt8, e.encodeCodePoint c = bytes.map .ok ∧
      Restores e.step bytes c) ∨
    (¬ e.Encodable c ∧ e.encodeCodePoint c = [.error (.invalidCodePoint c)]) := by
  cases e with
  | utf8 =>
    cases h : Utf8.bytes? c.toNat with
    | none =>
      right
      exact ⟨Nat.not_le.2 (Utf8.bytes?_eq_none.1 h),
        by simp [encodeCodePoint, Utf8.encodeCodePoint, h]⟩
    | some bytes =>
      left
      have hc := Utf8.character_of_bytes h
      have hsome : ¬ 0x10FFFF < c.toNat := by
        rw [← Utf8.bytes?_eq_none, h]
        simp
      exact ⟨Nat.not_lt.1 hsome, bytes, by simp [encodeCodePoint, Utf8.encodeCodePoint, h],
        hc.restores⟩
  | utf16 =>
    cases h : Utf16.units? c.toNat with
    | none =>
      right
      exact ⟨Utf16.units?_eq_none.1 h, by simp [encodeCodePoint, Utf16.encodeCodePoint, h]⟩
    | some units =>
      left
      have hsome : c.toNat ≤ 0x10FFFF ∧ ¬ (0xD800 ≤ c.toNat ∧ c.toNat ≤ 0xDFFF) := by
        by_contra hnone
        rw [Utf16.units?_eq_none.2 hnone] at h
        exact Option.some_ne_none _ h.symm
      have hr := Utf16.restores_of_units h
      rw [UInt32.ofNat_toNat] at hr
      exact ⟨hsome, units.flatMap Utf16.unitBytes,
        by simp [encodeCodePoint, Utf16.encodeCodePoint, h], hr⟩

/-- Decoding what the encoder has put out gives back every value that has an encoding. -/
theorem decodeFrom_encoded (e : Encoding) (cps : List UInt32) :
    decodeFrom e.step [] ((cps.flatMap e.encodeCodePoint).filterMap Except.toOption) =
      (cps.filter e.Encodable).map .ok := by
  induction cps with
  | nil => cases e <;> rfl
  | cons c rest ih =>
    obtain ⟨hc, bytes, hbytes, hr⟩ | ⟨hc, hfault⟩ := e.encodeCodePoint_cases c
    · rw [List.flatMap_cons, List.filterMap_append, hbytes, Utf16.filterMap_ok, hr, ih,
        List.filter_cons_of_pos (by simpa using hc), List.map_cons]
    · rw [List.flatMap_cons, List.filterMap_append, hfault,
        List.filter_cons_of_neg (by simpa using hc)]
      exact ih

theorem encodeCodePoint_encodes (e : Encoding) (c : UInt32) : e.Encodes c (e.encodeCodePoint c) := by
  obtain ⟨hc, bytes, hbytes, hr⟩ | ⟨hc, hfault⟩ := e.encodeCodePoint_cases c
  · exact hbytes ▸ .bytes hc hr.ne_nil
  · exact hfault ▸ .fault hc

theorem encode_means (e : Encoding) {w : World Atom} {input : Plan .codePoint} {S : Shown UInt32}
    (h : input.Means w S) :
    (e.encode input).Means w (S.flatMapped fun c => .ofList (e.encodeCodePoint c)) := by
  have hencode : e.encode input = Plan.flatMap (a := .codePoint) (b := .encoded) input
      (fun c => .ofList (e.encodeCodePoint c)) fun _ => none := by
    cases e <;> rfl
  rw [hencode]
  refine Plan.flatMap_means h _ ?_
  rintro w - c v ⟨-, rfl⟩
  exact Plan.ofList_means (i := Atom.encoded) _ w

theorem lists_encoded (e : Encoding) {S : Shown UInt32} {cps : List UInt32} (h : Lists S.trail cps) :
    Lists (S.flatMapped fun c => .ofList (e.encodeCodePoint c)).trail (cps.flatMap e.encodeCodePoint) :=
  h.flatMapped fun c => Lists.listed (e.encodeCodePoint c)

theorem encode_collects (e : Encoding) (cps : List UInt32) :
    (e.encode (.ofList cps)).Collects (cps.flatMap e.encodeCodePoint) :=
  (e.encode_means (Plan.ofList_means (i := Atom.codePoint) cps [])).collects
    (e.lists_encoded (Lists.listed cps))

theorem decode_collects (e : Encoding) (bs : List UInt8) :
    (e.decode (.ofList bs)).Collects (decodeFrom e.step [] bs) := by
  cases e with
  | utf8 => exact decoder_collects Utf8.decodeStep bs
  | utf16 => exact decoder_collects Utf16.decodeStep bs

/-- Decoding the bytes of an encoded list gives back every value that has an encoding, in order; each
other value leaves one fault in its place. -/
theorem decode_encode (e : Encoding) (cps : List UInt32) :
    ∃ parts : List (List (Except CodecError UInt8)),
      (e.encode (.ofList cps)).Collects parts.flatten ∧ List.Forall₂ e.Encodes cps parts ∧
      (e.decode (.ofList (parts.flatten.filterMap Except.toOption))).Collects
        ((cps.filter e.Encodable).map .ok) := by
  refine ⟨cps.map e.encodeCodePoint, e.encode_collects cps, ?_, ?_⟩
  · exact List.forall₂_map_right_iff.2 (List.forall₂_same.2 fun c _ => e.encodeCodePoint_encodes c)
  · have h := e.decode_collects ((cps.flatMap e.encodeCodePoint).filterMap Except.toOption)
    rwa [decodeFrom_encoded] at h

end Encoding

end MemoSequence
