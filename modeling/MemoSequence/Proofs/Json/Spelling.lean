import Mathlib.Tactic.IntervalCases
import MemoSequence.Json.Strings
import MemoSequence.Json.Text
set_option autoImplicit false

namespace MemoSequence

namespace Reader
variable {α β : Type} {input mid rest : List Char} {x : α} {y : β}

/-- The reader takes `x` from the front of the input, and leaves `rest` of it. -/
def Takes (r : Reader α) (input : List Char) (x : α) (rest : List Char) : Prop :=
  StateT.run r input = .ok (x, rest)

theorem Takes.bind {r : Reader α} {f : α → Reader β} (h : Takes r input x mid)
    (hf : Takes (f x) mid y rest) : Takes (r >>= f) input y rest := by
  unfold Takes at h hf ⊢
  rw [StateT.run_bind, h]
  exact hf

theorem takes_pure (x : α) (input : List Char) : Takes (pure x) input x input := rfl

theorem takes_get_bind {f : List Char → Reader β} (h : Takes (f input) input y rest) :
    Takes (get >>= f) input y rest := h

theorem takes_skip (c : Char) (rest : List Char) : Takes skip (c :: rest) () rest := rfl

end Reader

open Reader (Takes)

section Hexadecimal

def HexDigit (n : ℕ) (c : Char) : Prop :=
  n < 16 ∧ (c = Nat.digitChar n ∨ c = (Nat.digitChar n).toUpper)

instance (n : ℕ) (c : Char) : Decidable (HexDigit n c) := inferInstanceAs (Decidable (_ ∧ _))

def HexUnit (n : ℕ) (digits : List Char) : Prop :=
  ∃ a b c d, digits = [a, b, c, d] ∧ HexDigit (n / 0x1000) a ∧ HexDigit (n / 0x100 % 0x10) b ∧
    HexDigit (n / 0x10 % 0x10) c ∧ HexDigit (n % 0x10) d

theorem HexDigit.value {n : ℕ} {c : Char} (h : HexDigit n c) :
    Strings.hexValue? c = some n ∧ c.utf8Size = 1 := by
  obtain ⟨hn, hc⟩ := h
  interval_cases n <;> obtain rfl | rfl := hc <;> exact ⟨rfl, rfl⟩

theorem HexUnit.lt {n : ℕ} {digits : List Char} (h : HexUnit n digits) : n < 0x10000 := by
  obtain ⟨a, b, c, d, -, ha, -⟩ := h
  have := ha.1
  omega

theorem HexUnit.takes {n : ℕ} {digits : List Char} (h : HexUnit n digits) (rest : List Char) :
    Takes Strings.unit (digits ++ rest) n rest := by
  have hn := h.lt
  obtain ⟨a, b, c, d, rfl, ha, hb, hc, hd⟩ := h
  have hlength : utf8Length [a, b, c, d] = 4 := by
    simp [utf8Length, ha.value.2, hb.value.2, hc.value.2, hd.value.2]
  have hnumber : Strings.hexNumber? [a, b, c, d] = some n := by
    simp only [Strings.hexNumber?, List.foldlM_cons, List.foldlM_nil, ha.value.1, hb.value.1,
      hc.value.1, hd.value.1, Option.map_some, Option.bind_eq_bind, Option.bind_some, Option.pure_def]
    congr 1
    omega
  have htake : ([a, b, c, d] ++ rest).take 4 = [a, b, c, d] := rfl
  refine Reader.takes_get_bind ?_
  simp only [htake, hlength, hnumber, lt_irrefl, if_false]
  rfl

end Hexadecimal

def shortEscapes : List (Char × Char) :=
  [('"', '"'), ('\\', '\\'), ('/', '/'), ('b', '\x08'), ('f', '\x0c'), ('n', '\n'), ('r', '\r'),
    ('t', '\t')]

/-- The ways in which a character may be spelled inside a string. -/
inductive Spelling (c : Char) : List Char → Prop
  | raw (hcontrol : 0x20 ≤ c.toNat) (hquote : c ≠ '"') (hbackslash : c ≠ '\\') : Spelling c [c]
  | short {e : Char} (h : (e, c) ∈ shortEscapes) : Spelling c ['\\', e]
  | unit {digits : List Char} (h : HexUnit c.toNat digits) : Spelling c ('\\' :: 'u' :: digits)
  | pair {high low : ℕ} {hs ls : List Char} (hc : c.toNat = 0x10000 + high * 0x400 + low)
      (hlow : low < 0x400) (hh : HexUnit (0xD800 + high) hs) (hl : HexUnit (0xDC00 + low) ls) :
      Spelling c ('\\' :: 'u' :: (hs ++ '\\' :: 'u' :: ls))

inductive Spells : List Char → List Char → Prop
  | nil : Spells [] []
  | cons {c : Char} {s spelled text : List Char} (hc : Spelling c spelled) (hs : Spells s text) :
      Spells (c :: s) (spelled ++ text)

theorem Char.toNat_bounds (c : Char) :
    c.toNat < 0x110000 ∧ ¬ (0xD800 ≤ c.toNat ∧ c.toNat ≤ 0xDFFF) := by
  have hvalid : c.toNat < 0xD800 ∨ 0xDFFF < c.toNat ∧ c.toNat < 0x110000 := c.valid
  omega

section Reading
variable {c : Char} {s spelled text : List Char}

theorem takes_expect (c : Char) (rest : List Char) : Takes (Strings.expect c) (c :: rest) () rest := by
  refine Reader.takes_get_bind ?_
  simp only [if_true]
  rfl

theorem takes_unicodeEscape_unit {digits : List Char} (h : HexUnit c.toNat digits)
    (rest : List Char) : Takes Strings.unicodeEscape (digits ++ rest) c rest := by
  have hbounds := Char.toNat_bounds c
  have hleading : Strings.isLeading c.toNat = false := by
    simp [Strings.isLeading]
    omega
  have htrailing : Strings.isTrailing c.toNat = false := by
    simp [Strings.isTrailing]
    omega
  refine (h.takes rest).bind ?_
  simp only [hleading, htrailing, Bool.false_eq_true, if_false, Char.ofNat_toNat]
  exact Reader.takes_pure c rest

theorem takes_unicodeEscape_pair {high low : ℕ} {hs ls : List Char}
    (hc : c.toNat = 0x10000 + high * 0x400 + low) (hlow : low < 0x400)
    (hh : HexUnit (0xD800 + high) hs) (hl : HexUnit (0xDC00 + low) ls) (rest : List Char) :
    Takes Strings.unicodeEscape (hs ++ '\\' :: 'u' :: (ls ++ rest)) c rest := by
  have hbounds := Char.toNat_bounds c
  have hleading : Strings.isLeading (0xD800 + high) = true := by
    simp [Strings.isLeading]
    omega
  have hnot : Strings.isTrailing (0xD800 + high) = false := by
    simp [Strings.isTrailing]
    omega
  have htrailing : Strings.isTrailing (0xDC00 + low) = true := by
    simp [Strings.isTrailing]
    omega
  have hchar : Char.ofNat (0x10000 + (0xD800 + high - 0xD800) * 0x400 + (0xDC00 + low - 0xDC00)) =
      c := by
    rw [Nat.add_sub_cancel_left, Nat.add_sub_cancel_left, ← hc, Char.ofNat_toNat]
  refine (hh.takes _).bind ?_
  simp only [hnot, hleading, Bool.false_eq_true, if_false, if_true]
  refine (takes_expect '\\' _).bind ((takes_expect 'u' _).bind ((hl.takes rest).bind ?_))
  simp only [htrailing, if_true, hchar]
  exact Reader.takes_pure c rest

theorem Spelling.takes (h : Spelling c spelled) (rest : List Char) :
    Takes Strings.piece? (spelled ++ rest) (some c) rest := by
  cases h with
  | raw hcontrol hquote hbackslash =>
    have hnot : ¬ c.toNat < 0x20 := by omega
    refine Reader.takes_get_bind ?_
    simp only [List.singleton_append, hnot, if_false]
    rfl
  | @short e h =>
    simp only [shortEscapes, List.mem_cons, Prod.mk.injEq, List.not_mem_nil, or_false] at h
    obtain ⟨rfl, rfl⟩ | ⟨rfl, rfl⟩ | ⟨rfl, rfl⟩ | ⟨rfl, rfl⟩ | ⟨rfl, rfl⟩ | ⟨rfl, rfl⟩ | ⟨rfl, rfl⟩ |
      ⟨rfl, rfl⟩ := h <;> rfl
  | @unit digits h =>
    have hescaped : Takes Strings.escaped ('u' :: (digits ++ rest)) c rest :=
      takes_unicodeEscape_unit h rest
    exact hescaped.bind (f := fun c => pure (some c)) (Reader.takes_pure (some c) rest)
  | @pair high low hs ls hc hlow hh hl =>
    have hescaped : Takes Strings.escaped ('u' :: (hs ++ '\\' :: 'u' :: (ls ++ rest))) c rest :=
      takes_unicodeEscape_pair hc hlow hh hl rest
    simp only [List.cons_append, List.append_assoc]
    exact hescaped.bind (f := fun c => pure (some c)) (Reader.takes_pure (some c) rest)

theorem Spelling.length_pos (h : Spelling c spelled) : 0 < spelled.length := by
  cases h <;> simp

theorem Spells.length_le (h : Spells s text) : s.length ≤ text.length := by
  induction h with
  | nil => exact le_rfl
  | cons hc _ ih =>
    have := hc.length_pos
    simp only [List.length_cons, List.length_append]
    omega

theorem Spells.takes_pieces (h : Spells s text) {clock : List Char} (hclock : s.length < clock.length)
    (seen rest : List Char) :
    Takes (Strings.pieces clock seen) (text ++ '"' :: rest) (String.ofList (seen.reverse ++ s))
      rest := by
  induction h generalizing clock seen with
  | nil =>
    cases clock with
    | nil => simp at hclock
    | cons _ clock =>
      rw [List.append_nil]
      rfl
  | @cons c s spelled text hc _ ih =>
    cases clock with
    | nil => simp at hclock
    | cons _ clock =>
      have hrest := ih (Nat.lt_of_succ_lt_succ hclock) (c :: seen)
      rw [List.reverse_cons, List.append_assoc, List.singleton_append] at hrest
      rw [List.append_assoc]
      exact (hc.takes _).bind hrest

theorem Spells.takes (h : Spells s text) (rest : List Char) :
    Takes Strings.read (text ++ '"' :: rest) (String.ofList s) rest := by
  have hlength := h.length_le
  have hclock : s.length < (text ++ '"' :: rest).length := by
    rw [List.length_append, List.length_cons]
    omega
  exact Reader.takes_get_bind (h.takes_pieces hclock [] rest)

end Reading

section Writing

theorem spelling_escape (c : Char) : Spelling c (Quoted.escape c) := by
  unfold Quoted.escape
  split
  · exact .short (by decide)
  · exact .short (by decide)
  · exact .short (by decide)
  · exact .short (by decide)
  · exact .short (by decide)
  · exact .short (by decide)
  · exact .short (by decide)
  · split
    · next hcontrol =>
      have hdigit : ∀ n, n < 16 → HexDigit n (Nat.digitChar n) := fun n hn => ⟨hn, .inl rfl⟩
      refine .unit ⟨_, _, _, _, rfl, ?_⟩
      have h0 : c.toNat / 0x1000 = 0 := by omega
      have h1 : c.toNat / 0x100 % 0x10 = 0 := by omega
      have h2 : c.toNat / 0x10 % 0x10 = c.toNat / 16 := by omega
      rw [h0, h1, h2]
      exact ⟨hdigit 0 (by omega), hdigit 0 (by omega), hdigit _ (by omega), hdigit _ (by omega)⟩
    · next hquote hbackslash _ _ _ _ _ hcontrol =>
      exact .raw (by omega) hquote hbackslash

theorem spells_escape (s : List Char) : Spells s (s.flatMap Quoted.escape) := by
  induction s with
  | nil => exact .nil
  | cons c s ih => exact .cons (spelling_escape c) ih

end Writing

end MemoSequence
