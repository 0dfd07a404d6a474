import MemoSequence.Proofs.Codec.RoundTrip
import MemoSequence.Proofs.Cutting
import MemoSequence.Proofs.Json.KeyOrder
set_option autoImplicit false

namespace MemoSequence
open Stream' (WSeq)
open Sequence (Formed elements)

section Words
variable {x y : UInt32}

theorem toNat_or_of_lt (i a : ℕ) (hy : y.toNat = 2 ^ i * a) (hx : x.toNat < 2 ^ i) :
    (x ||| y).toNat = y.toNat + x.toNat := by
  rw [UInt32.toNat_or, hy, Nat.or_comm, ← Nat.two_pow_add_eq_or_of_lt hx a]

theorem toNat_shift (x : UInt32) {i : UInt32} (hi : i.toNat < 32) :
    (x >>> i).toNat = x.toNat / 2 ^ i.toNat := by
  rw [UInt32.toNat_shiftRight, Nat.mod_eq_of_lt hi, Nat.shiftRight_eq_div_pow]

theorem toNat_mask (x : UInt32) (i : ℕ) {m : UInt32} (hm : m.toNat = 2 ^ i - 1) :
    (x &&& m).toNat = x.toNat % 2 ^ i := by
  rw [UInt32.toNat_and, hm, Nat.and_two_pow_sub_one_eq_mod]

theorem toUInt8_of_toNat {m : ℕ} (h : x.toNat = m) : x.toUInt8 = .ofNat m := by
  rw [← h, UInt8.ofNat_uInt32ToNat]

theorem toNat_toUInt8_of_lt (h : x.toNat < 0x100) : x.toUInt8.toNat = x.toNat := by
  rw [UInt32.toNat_toUInt8, Nat.mod_eq_of_lt h]

end Words

theorem toNat_char (c : Char) :
    c.val.toNat < 0xD800 ∨ (0xDFFF < c.val.toNat ∧ c.val.toNat < 0x110000) := c.valid

namespace Utf8

/-- The bytes of a code point as numbers of 32 bits, before they are cut down to bytes. -/
def wide? (c : UInt32) : Option (List UInt32) :=
  if c < 0x80 then some [c]
  else if c < 0x800 then some [c >>> 6 ||| 0xC0, c &&& 0x3F ||| 0x80]
  else if c < 0x10000 then some [c >>> 12 ||| 0xE0, c >>> 6 &&& 0x3F ||| 0x80, c &&& 0x3F ||| 0x80]
  else if c < 0x110000 then
    some [c >>> 18 ||| 0xF0, c >>> 12 &&& 0x3F ||| 0x80, c >>> 6 &&& 0x3F ||| 0x80,
      c &&& 0x3F ||| 0x80]
  else none

theorem toNat_continuation (x : UInt32) : (x &&& 0x3F ||| 0x80).toNat = 0x80 + x.toNat % 0x40 := by
  have hlow : (x &&& 0x3F).toNat = x.toNat % 0x40 := toNat_mask x 6 rfl
  have hlt : (x &&& 0x3F).toNat < 2 ^ 7 := by omega
  rw [toNat_or_of_lt 7 1 rfl hlt, hlow]
  rfl

theorem toNat_lead (c : UInt32) {i m : UInt32} (k a : ℕ) (hi : i.toNat < 32)
    (hm : m.toNat = 2 ^ k * a) (hc : c.toNat / 2 ^ i.toNat < 2 ^ k) :
    (c >>> i ||| m).toNat = m.toNat + c.toNat / 2 ^ i.toNat := by
  rw [toNat_or_of_lt k a hm (by rwa [toNat_shift c hi]), toNat_shift c hi]

theorem toNat_leadTwo {c : UInt32} (h : c.toNat < 0x800) :
    (c >>> 6 ||| 0xC0).toNat = 0xC0 + c.toNat / 0x40 :=
  toNat_lead c 6 3 (by decide) rfl (show c.toNat / 0x40 < 0x40 by omega)

theorem toNat_leadThree {c : UInt32} (h : c.toNat < 0x10000) :
    (c >>> 12 ||| 0xE0).toNat = 0xE0 + c.toNat / 0x1000 :=
  toNat_lead c 5 7 (by decide) rfl (show c.toNat / 0x1000 < 0x20 by omega)

theorem toNat_leadFour {c : UInt32} (h : c.toNat < 0x110000) :
    (c >>> 18 ||| 0xF0).toNat = 0xF0 + c.toNat / 0x40000 :=
  toNat_lead c 4 15 (by decide) rfl (show c.toNat / 0x40000 < 0x10 by omega)

theorem toUInt8_continuation (x : UInt32) : (x &&& 0x3F ||| 0x80).toUInt8 = bytes?.continuing x.toNat :=
  toUInt8_of_toNat (toNat_continuation x)

theorem bytes?_eq_wide? (c : UInt32) : bytes? c.toNat = (wide? c).map (List.map UInt32.toUInt8) := by
  have h6 : (c >>> 6).toNat = c.toNat / 0x40 := toNat_shift c (by decide)
  have h12 : (c >>> 12).toNat = c.toNat / 0x1000 := toNat_shift c (by decide)
  unfold bytes? wide?
  simp only [UInt32.lt_iff_toNat_lt, UInt32.reduceToNat]
  split_ifs with h1 h2 h3 h4
  · rw [Option.map_some, List.map_singleton, toUInt8_of_toNat rfl]
  · simp only [Option.map_some, List.map_cons, List.map_nil, toUInt8_of_toNat (toNat_leadTwo h2),
      toUInt8_continuation]
  · simp only [Option.map_some, List.map_cons, List.map_nil, toUInt8_of_toNat (toNat_leadThree h3),
      toUInt8_continuation, h6]
  · simp only [Option.map_some, List.map_cons, List.map_nil, toUInt8_of_toNat (toNat_leadFour h4),
      toUInt8_continuation, h6, h12]
  · rfl

theorem continuation_lt (x : UInt32) : (x &&& 0x3F ||| 0x80).toNat < 0x100 := by
  rw [toNat_continuation]
  omega

theorem wide?_lt {c : UInt32} {ns : List UInt32} (h : wide? c = some ns) :
    ∀ n ∈ ns, n.toNat < 0x100 := by
  unfold wide? at h
  simp only [UInt32.lt_iff_toNat_lt, UInt32.reduceToNat] at h
  split_ifs at h with h1 h2 h3 h4
  · obtain rfl := Option.some.inj h
    exact List.forall_mem_singleton.2 (by omega)
  · obtain rfl := Option.some.inj h
    have hlead := toNat_leadTwo h2
    simp only [List.forall_mem_cons, continuation_lt, true_and]
    exact ⟨by omega, List.forall_mem_nil _⟩
  · obtain rfl := Option.some.inj h
    have hlead := toNat_leadThree h3
    simp only [List.forall_mem_cons, continuation_lt, true_and]
    exact ⟨by omega, List.forall_mem_nil _⟩
  · obtain rfl := Option.some.inj h
    have hlead := toNat_leadFour h4
    simp only [List.forall_mem_cons, continuation_lt, true_and]
    exact ⟨by omega, List.forall_mem_nil _⟩

theorem bytes?_char (c : Char) : bytes? c.val.toNat = some (String.utf8EncodeChar c) := by
  have hc := toNat_char c
  unfold bytes? bytes?.continuing
  simp only [String.utf8EncodeChar, ← Nat.lt_succ_iff, Nat.succ_eq_add_one, Nat.reduceAdd]
  generalize c.val.toNat = n at *
  split_ifs with h1 h2 h3 h4
  · rfl
  · have hlead : n / 0x40 % 0x20 + 0xC0 = 0xC0 + n / 0x40 := by omega
    rw [hlead, Nat.add_comm (n % 0x40)]
  · have hlead : n / 0x1000 % 0x10 + 0xE0 = 0xE0 + n / 0x1000 := by omega
    rw [hlead, Nat.add_comm (n % 0x40), Nat.add_comm (n / 0x40 % 0x40)]
  · have hlead : n / 0x40000 % 0x8 + 0xF0 = 0xF0 + n / 0x40000 := by omega
    rw [hlead, Nat.add_comm (n % 0x40), Nat.add_comm (n / 0x40 % 0x40), Nat.add_comm (n / 0x1000 % 0x40)]
  · omega

end Utf8

namespace Utf16

def wideUnits? (c : UInt32) : Option (List UInt32) :=
  if c ≤ 0xD7FF ∨ (0xE000 ≤ c ∧ c ≤ 0xFFFF) then some [c]
  else if 0x10000 ≤ c ∧ c ≤ 0x10FFFF then
    some [((c - 0x10000) >>> 10) + 0xD800, ((c - 0x10000) &&& 0x3FF) + 0xDC00]
  else none

def wide? (c : UInt32) : Option (List UInt32) :=
  (wideUnits? c).map (List.flatMap fun u : UInt32 => [u >>> 8, u &&& 0xFF])

/-- Its number, or what is left of it above `FFFF`, as twenty bits that two surrogates share. -/
def codeUnits (c : Char) : List (BitVec 16) :=
  if c.val < 0x10000 then [c.val.toBitVec.extractLsb' 0 16]
  else
    let rest := (c.val - 0x10000).toBitVec
    [0b110110#6 ++ rest.extractLsb' 10 10, 0b110111#6 ++ rest.extractLsb' 0 10]

def bigEndian (u : BitVec 16) : List UInt8 := [.ofBitVec (u.extractLsb' 8 8), .ofBitVec (u.extractLsb' 0 8)]

theorem bigEndian_eq (u : BitVec 16) : bigEndian u = unitBytes u.toNat := by
  have hhigh : UInt8.ofBitVec (u.extractLsb' 8 8) = .ofNat (u.toNat / 0x100) := by
    rw [← UInt8.toNat_inj, UInt8.toNat_ofBitVec, BitVec.extractLsb'_toNat, Nat.shiftRight_eq_div_pow,
      UInt8.toNat_ofNat']
  have hlow : UInt8.ofBitVec (u.extractLsb' 0 8) = .ofNat (u.toNat % 0x100) := by
    rw [← UInt8.toNat_inj, UInt8.toNat_ofBitVec, BitVec.extractLsb'_toNat, UInt8.toNat_ofNat',
      Nat.mod_mod]
    rfl
  rw [bigEndian, unitBytes, hhigh, hlow]

theorem units?_of_scalar {c : ℕ} (h : c < 0xD800 ∨ (0xDFFF < c ∧ c < 0x10000)) :
    units? c = some [c] := by
  have hhigh : ¬ HighSurrogate c := by
    unfold HighSurrogate
    omega
  have hlow : ¬ LowSurrogate c := by
    unfold LowSurrogate
    omega
  exact units?_of_lt (by omega) hhigh hlow

theorem units?_of_ge {c : ℕ} (h : 0x10000 ≤ c) (hc : c < 0x110000) :
    units? c = some [0xD800 + (c - 0x10000) / 0x400, 0xDC00 + (c - 0x10000) % 0x400] := by
  rw [units?, if_neg (Nat.not_lt.2 h), if_pos hc]

theorem toNat_surrogate (a : BitVec 6) (b : BitVec 10) : (a ++ b).toNat = a.toNat * 0x400 + b.toNat := by
  rw [BitVec.toNat_append, ← Nat.shiftLeft_add_eq_or_of_lt b.isLt, Nat.shiftLeft_eq]

theorem units?_char (c : Char) : units? c.val.toNat = some ((codeUnits c).map BitVec.toNat) := by
  have hc := toNat_char c
  by_cases h : c.val < 0x10000
  · have hlt : c.val.toNat < 0x10000 := UInt32.lt_iff_toNat_lt.1 h
    rw [units?_of_scalar (by omega), codeUnits, if_pos h, List.map_singleton, BitVec.extractLsb'_toNat,
      Nat.shiftRight_zero, UInt32.toNat_toBitVec, Nat.mod_eq_of_lt hlt]
  · have hge : 0x10000 ≤ c.val := UInt32.not_lt.1 h
    have hle : 0x10000 ≤ c.val.toNat := UInt32.le_iff_toNat_le.1 hge
    have hrest : (c.val - 0x10000).toBitVec.toNat = c.val.toNat - 0x10000 :=
      UInt32.toNat_sub_of_le _ _ hge
    have hhigh : (c.val.toNat - 0x10000) / 0x400 < 0x400 := by omega
    rw [units?_of_ge hle (by omega), codeUnits, if_neg h, List.map_cons, List.map_singleton, toNat_surrogate,
      toNat_surrogate, BitVec.extractLsb'_toNat, BitVec.extractLsb'_toNat, hrest, Nat.shiftRight_zero,
      Nat.shiftRight_eq_div_pow, Nat.mod_eq_of_lt hhigh]
    rfl

theorem toNat_offset {x : UInt32} {m : ℕ} {d : UInt32} (h : x.toNat = m) (hm : m + d.toNat < 2 ^ 32) :
    (x + d).toNat = m + d.toNat := by
  rw [UInt32.toNat_add, h, Nat.mod_eq_of_lt hm]

theorem wideUnits?_map (c : UInt32) : (wideUnits? c).map (List.map UInt32.toNat) = units? c.toNat := by
  unfold wideUnits?
  simp only [UInt32.le_iff_toNat_le, UInt32.reduceToNat]
  split_ifs with h1 h2
  · rw [units?_of_scalar (by omega), Option.map_some, List.map_singleton]
  · have hrest : (c - 0x10000).toNat = c.toNat - 0x10000 :=
      UInt32.toNat_sub_of_le _ _ (UInt32.le_iff_toNat_le.2 h2.1)
    have hhigh : ((c - 0x10000) >>> 10).toNat = (c.toNat - 0x10000) / 0x400 := by
      rw [toNat_shift _ (by decide), hrest]
      rfl
    have hlow : ((c - 0x10000) &&& 0x3FF).toNat = (c.toNat - 0x10000) % 0x400 := by
      rw [toNat_mask _ 10 rfl, hrest]
      rfl
    rw [units?_of_ge h2.1 (by omega), Option.map_some, List.map_cons, List.map_singleton,
      toNat_offset hhigh (show _ + 0xD800 < _ by omega), toNat_offset hlow (show _ + 0xDC00 < _ by omega),
      Nat.add_comm, Nat.add_comm (_ % _)]
    rfl
  · exact (units?_eq_none.2 (by omega)).symm

theorem toNat_high (u : UInt32) : (u >>> 8).toNat = u.toNat / 0x100 := toNat_shift u (by decide)

theorem toNat_low (u : UInt32) : (u &&& 0xFF).toNat = u.toNat % 0x100 := toNat_mask u 8 rfl

theorem unitBytes_eq (u : UInt32) : unitBytes u.toNat = [u >>> 8, u &&& 0xFF].map UInt32.toUInt8 := by
  rw [unitBytes, List.map_cons, List.map_singleton, toUInt8_of_toNat (toNat_high u),
    toUInt8_of_toNat (toNat_low u)]

theorem unitBytes_eq_wide? (c : UInt32) :
    (units? c.toNat).map (List.flatMap unitBytes) = (wide? c).map (List.map UInt32.toUInt8) := by
  rw [← wideUnits?_map, wide?, Option.map_map, Option.map_map]
  congr 1
  funext units
  simp only [Function.comp_apply, List.flatMap_map, List.map_flatMap, unitBytes_eq]

theorem units?_lt {c : ℕ} {units : List ℕ} (h : units? c = some units) : ∀ u ∈ units, u < 0x10000 := by
  unfold units? at h
  split_ifs at h with h1 h2 h3
  · obtain rfl := Option.some.inj h
    exact List.forall_mem_singleton.2 h1
  · obtain rfl := Option.some.inj h
    simp only [List.forall_mem_cons]
    exact ⟨by omega, by omega, List.forall_mem_nil _⟩

theorem wide?_lt {c : UInt32} {ns : List UInt32} (h : wide? c = some ns) :
    ∀ n ∈ ns, n.toNat < 0x100 := by
  obtain ⟨units, hunits, rfl⟩ := Option.map_eq_some_iff.1 h
  have hnats := units?_lt (c := c.toNat) ((wideUnits?_map c).symm.trans (congrArg _ hunits))
  intro n hn
  obtain ⟨u, hu, hn⟩ := List.mem_flatMap.1 hn
  have hlt := hnats u.toNat (List.mem_map_of_mem hu)
  simp only [List.mem_cons, List.not_mem_nil, or_false] at hn
  obtain rfl | rfl := hn
  · rw [toNat_high]
    omega
  · rw [toNat_low]
    omega

end Utf16

namespace Encoding

def textBytes : Encoding → String → List UInt8
  | utf8, t => t.toUTF8.data.toList
  | utf16, t => (t.toList.flatMap Utf16.codeUnits).flatMap Utf16.bigEndian

def wide? : Encoding → UInt32 → Option (List UInt32)
  | utf8 => Utf8.wide?
  | utf16 => Utf16.wide?

theorem wide?_lt (e : Encoding) {c : UInt32} {ns : List UInt32} (h : e.wide? c = some ns) :
    ∀ n ∈ ns, n.toNat < 0x100 := by
  cases e with
  | utf8 => exact Utf8.wide?_lt h
  | utf16 => exact Utf16.wide?_lt h

theorem encodeCodePoint_wide? (e : Encoding) (c : UInt32) :
    e.encodeCodePoint c = match e.wide? c with
      | some ns => ns.map fun n => .ok n.toUInt8
      | none => [.error (.invalidCodePoint c)] := by
  cases e with
  | utf8 =>
    simp only [encodeCodePoint, Utf8.encodeCodePoint, wide?, Utf8.bytes?_eq_wide?]
    cases Utf8.wide? c <;> simp
  | utf16 =>
    have hbytes := Utf16.unitBytes_eq_wide? c
    simp only [encodeCodePoint, Utf16.encodeCodePoint, wide?]
    cases hunits : Utf16.units? c.toNat <;> cases hwide : Utf16.wide? c <;>
      simp [hunits, hwide] at hbytes
    · rfl
    · simp only [hbytes, List.map_map]
      rfl

/-- What is put out for a text are its bytes. -/
theorem encode_text (e : Encoding) (t : String) :
    (codePoints t).flatMap e.encodeCodePoint = (e.textBytes t).map .ok := by
  rw [codePoints, List.flatMap_map]
  cases e with
  | utf8 =>
    have hchar : ∀ c : Char, encodeCodePoint utf8 c.val = (String.utf8EncodeChar c).map .ok := fun c => by
      simp only [encodeCodePoint, Utf8.encodeCodePoint, Utf8.bytes?_char]
    simp only [hchar, textBytes]
    rw [← keyBytes, keyBytes_eq, List.map_flatMap]
  | utf16 =>
    have hchar : ∀ c : Char, encodeCodePoint utf16 c.val =
        ((Utf16.codeUnits c).flatMap Utf16.bigEndian).map .ok := fun c => by
      rw [show Utf16.bigEndian = fun u => Utf16.unitBytes u.toNat from funext Utf16.bigEndian_eq]
      simp only [encodeCodePoint, Utf16.encodeCodePoint, Utf16.units?_char, List.flatMap_map]
    simp only [hchar, textBytes, List.flatMap_assoc, List.map_flatMap]

variable {st : Store Atom} {w : World Atom}

theorem encode_list (e : Encoding) (hst : st.Means w) (hquiet : ∀ id, ¬ st.Running id) (cps : List UInt32) :
    ∃ st', Gives (e.encode (.ofList cps)).listed st (cps.flatMap e.encodeCodePoint) st' := by
  have hmeans := e.encode_means (Plan.ofList_means (i := Atom.codePoint) cps w)
  obtain ⟨xs, st', w', hgives, -, hread⟩ :=
    (Plan.listed_adequate hmeans hst).gives hquiet (e.lists_encoded (Lists.listed cps))
  obtain rfl := El.list_reading_base.1 hread
  exact ⟨st', hgives⟩

theorem encode_sequence (e : Encoding) (hst : st.Means w) {s : Sequence (.codePoint : Kind Atom)}
    (hs : Formed w s) :
    (e.encode (.given s)).HasElements st w
      ((elements w s).bind fun c => .ofList (e.encodeCodePoint c)) := by
  have hbytes : (fun c : UInt32 => (Shown.ofList (e.encodeCodePoint c)).elements) =
      fun c => .ofList (e.encodeCodePoint c) := funext fun _ => Shown.elements_ofList _
  have helements := Shown.elements_flatMapped
    (fun c : UInt32 => Shown.ofList (e.encodeCodePoint c)) (Sequence.shown w s)
  rw [hbytes] at helements
  exact (e.encode_means (given_means hs)).hasElements hst helements

/-- An encoder that keeps to the standard, in this store. -/
structure Standard (e : Encoding) (st : Store Atom) (w : World Atom) : Prop where
  text : ∀ t, ∃ st',
    Gives (e.encode (.ofList (codePoints t))).listed st ((e.textBytes t).map .ok) st'
  list : ∀ cps, ∃ st', Gives (e.encode (.ofList cps)).listed st (cps.flatMap e.encodeCodePoint) st'
  sequence : ∀ {s : Sequence (.codePoint : Kind Atom)}, Formed w s →
    (e.encode (.given s)).HasElements st w ((elements w s).bind fun c => .ofList (e.encodeCodePoint c))
  uncut : ∀ c, e.encodeCodePoint c = match e.wide? c with
    | some ns => ns.map fun n => .ok n.toUInt8
    | none => [.error (.invalidCodePoint c)]
  fits : ∀ c ns, e.wide? c = some ns → ∀ n ∈ ns, n.toNat < 0x100 ∧ n.toUInt8.toNat = n.toNat

theorem standard (e : Encoding) (hst : st.Means w) (hquiet : ∀ id, ¬ st.Running id) : e.Standard st w where
  text t := e.encode_text t ▸ e.encode_list hst hquiet (codePoints t)
  list cps := e.encode_list hst hquiet cps
  sequence hs := e.encode_sequence hst hs
  uncut c := e.encodeCodePoint_wide? c
  fits _ _ h n hn := ⟨e.wide?_lt h n hn, toNat_toUInt8_of_lt (e.wide?_lt h n hn)⟩

/-- After every run of a program both encoders keep to the standard. -/
theorem encoding_standard {program : List (Step Atom)} {fuel : ℕ} {env : Env Atom} {st : Store Atom}
    (h : Program.run fuel program [] Store.empty = .ok (env, st)) :
    ∃ w : World Atom, st.Means w ∧ (∀ id, ¬ st.Running id) ∧ (∀ r ∈ env, El.Formed w r.1 r.2) ∧
      ∀ e : Encoding, e.Standard st w := by
  obtain ⟨vs, w, -, hkept⟩ := Program.run_keeps program kept_empty h
  exact ⟨w, hkept.means, hkept.quiet, formed_of_reads hkept.reads,
    fun e => e.standard hkept.means hkept.quiet⟩

def lettering : List (Step Atom) :=
  have letters : Uniform (El.reading (.codePoint : Kind Atom)).list :=
    .plain (El.plain_reading (k := .codePoint) trivial).list (codePoints "aß水𝄞")
  have number : Uniform (.noted (.same Nat) (El.reading .codePoint)) :=
    .fn (Reading.plain_same Nat) (El.plain_reading (k := .codePoint) trivial) (.silent fun n => UInt32.ofNat n)
  have units : Uniform ((El.reading .codePoint).fn (Plan.reading .encoded)) :=
    Make.each trivial fun c =>
      .fromVec (.plain (El.plain_reading (k := .encoded) trivial).list (utf16.encodeCodePoint c))
  [.make (k := .codePoint) (.fromVec letters) [],
   .make (k := .codePoint) (.fromFn number) [],
   .make (k := .codePoint) (.concat 0 1) [0, 1],
   .make (k := .encoded) (.flatMap (a := .codePoint) 0 units fun _ => none) [2],
   .make (k := .encoded) (.take 0 12) [3],
   .next .encoded 4]

instance : DecidableEq (Glance (.encoded : Kind Atom)) :=
  inferInstanceAs (DecidableEq (Except CodecError UInt8))

theorem lettering_standard :
    utf8.textBytes "aß水𝄞" = [0x61, 0xC3, 0x9F, 0xE6, 0xB0, 0xB4, 0xF0, 0x9D, 0x84, 0x9E] ∧
      Program.Answers (k := .encoded) lettering .toVec 4 []
        ((utf16.textBytes "aß水𝄞" ++ [0, 0]).map .ok) ∧
      ∃ env st, Program.run 20 lettering [] Store.empty = .ok (env, st) ∧
        ∃ w : World Atom, st.Means w ∧ (∀ id, ¬ st.Running id) ∧ (∀ r ∈ env, El.Formed w r.1 r.2) ∧
          ∀ e : Encoding, e.Standard st w := by
  obtain ⟨env, st, hrun⟩ : ∃ env st, Program.run 20 lettering [] Store.empty = .ok (env, st) :=
    Program.run_of_isOk (by decide +kernel)
  exact ⟨by decide +kernel, ⟨30, by decide +kernel⟩, env, st, hrun, encoding_standard hrun⟩

end Encoding

end MemoSequence
