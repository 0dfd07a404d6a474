import Mathlib.Tactic.IntervalCases
import MemoSequence.Json.Numeral
import MemoSequence.Json.Text
import MemoSequence.Proofs.Json.Spelling
set_option autoImplicit false

namespace MemoSequence
open Reader (Takes)

def Stops : List Char → Prop
  | [] => True
  | c :: _ => Reader.isBlank c = true ∨ c ∈ [',', ']', '}']

theorem Stops.not_numeral {c : Char} {rest : List Char} (h : Stops (c :: rest)) :
    c.isDigit = false ∧ c ≠ '.' ∧ c ≠ 'e' ∧ c ≠ 'E' := by
  simp only [Stops, Reader.isBlank, Bool.or_eq_true, decide_eq_true_eq, List.mem_cons,
    List.not_mem_nil, or_false] at h
  obtain (((rfl | rfl) | rfl) | rfl) | rfl | rfl | rfl := h <;> decide

theorem Stops.head_isDigit {rest : List Char} (h : Stops rest) : ∀ c ∈ rest.head?, c.isDigit = false := by
  cases rest with
  | nil => nofun
  | cons c rest =>
    rintro _ ⟨⟩
    exact h.not_numeral.1

theorem toString_int (n : ℤ) : (toString n).toList = Number.integerText n := by
  cases n with
  | ofNat m =>
    have hsign : ¬ Int.ofNat m < 0 := by simp
    rw [Number.integerText, if_neg hsign]
    exact String.toList_ofList
  | negSucc m =>
    have hsign : Int.negSucc m < 0 := Int.negSucc_lt_zero m
    rw [Number.integerText, if_pos hsign]
    change ("-" ++ String.ofList (Nat.toDigits 10 (m + 1))).toList = _
    rw [String.toList_append]
    exact congrArg (['-'] ++ ·) String.toList_ofList

namespace Number

theorem decimal_isDigit {n : ℕ} {c : Char} (h : c ∈ decimal n) : c.isDigit = true :=
  Nat.isDigit_of_mem_toDigits (by decide) (by decide) h

theorem decimal_of_lt {n : ℕ} (h : n < 10) : decimal n = [Nat.digitChar n] :=
  Nat.toDigits_of_lt_base h

theorem decimal_of_pos {n : ℕ} (h : 0 < n) : ∃ c cs, decimal n = c :: cs ∧ c ≠ '0' := by
  induction n using Nat.strong_induction_on with
  | h n ih =>
    by_cases hlt : n < 10
    · refine ⟨_, _, decimal_of_lt hlt, ?_⟩
      interval_cases n <;> decide
    · obtain ⟨c, cs, hc, hne⟩ := ih (n / 10) (by omega) (by omega)
      have hsplit : decimal (n / 10) ++ decimal (n % 10) = decimal n := by
        have happend := Nat.toDigits_append_toDigits (b := 10) (n := n / 10) (d := n % 10)
          (by decide) (by omega) (by omega)
        rwa [Nat.div_add_mod] at happend
      exact ⟨c, cs ++ decimal (n % 10), by rw [← hsplit, hc, List.cons_append], hne⟩

theorem decimal_eq_cons (n : ℕ) : ∃ c cs, decimal n = c :: cs ∧ (c = '0' → cs = []) := by
  by_cases h : n = 0
  · exact ⟨'0', [], by rw [h]; rfl, fun _ => rfl⟩
  · obtain ⟨c, cs, hc, hne⟩ := decimal_of_pos (Nat.pos_of_ne_zero h)
    exact ⟨c, cs, hc, fun hzero => absurd hzero hne⟩

end Number

namespace Numeral

theorem takes_digits_before {ds rest : List Char} (hds : ∀ c ∈ ds, c.isDigit = true)
    (hrest : ∀ c ∈ rest.head?, c.isDigit = false) : Takes digits (ds ++ rest) ds rest := by
  have hend : rest.takeWhile Char.isDigit = [] ∧ rest.dropWhile Char.isDigit = rest := by
    cases rest with
    | nil => exact ⟨rfl, rfl⟩
    | cons c rest => simp [hrest c rfl]
  have htake : (ds ++ rest).takeWhile Char.isDigit = ds := by
    rw [List.takeWhile_append_of_pos hds, hend.1, List.append_nil]
  have hdrop : (ds ++ rest).dropWhile Char.isDigit = rest := by
    rw [List.dropWhile_append_of_pos hds, hend.2]
  refine Reader.takes_get_bind ?_
  rw [htake, hdrop]
  rfl

theorem takes_digits {ds rest : List Char} (hds : ∀ c ∈ ds, c.isDigit = true) (hrest : Stops rest) :
    Takes digits (ds ++ rest) ds rest :=
  takes_digits_before hds hrest.head_isDigit

theorem le_ofDigitChars (ds : List Char) (m : ℕ) : m ≤ Nat.ofDigitChars 10 ds m := by
  induction ds generalizing m with
  | nil => exact le_rfl
  | cons c ds ih =>
    have hnext := ih (10 * m + (c.toNat - '0'.toNat))
    rw [Nat.ofDigitChars, List.foldl_cons]
    exact le_trans (by omega) hnext

theorem foldl_whole {ds : List Char} {m : ℕ} (h : Nat.ofDigitChars 10 ds m ≤ maxSignificand) :
    ds.foldl Scaled.whole ⟨m, 0, true⟩ = ⟨Nat.ofDigitChars 10 ds m, 0, true⟩ := by
  induction ds generalizing m with
  | nil => rfl
  | cons c ds ih =>
    have hvalue : Nat.ofDigitChars 10 (c :: ds) m = Nat.ofDigitChars 10 ds (m * 10 + digitValue c) := by
      rw [Nat.ofDigitChars, List.foldl_cons, mul_comm 10 m]
      rfl
    rw [hvalue] at h ⊢
    have hle : m * 10 + digitValue c ≤ maxSignificand := (le_ofDigitChars ds _).trans h
    have hstep : Scaled.whole ⟨m, 0, true⟩ c = ⟨m * 10 + digitValue c, 0, true⟩ := by
      simp [Scaled.whole, hle]
    rw [List.foldl_cons, hstep, ih h]

theorem foldl_whole_decimal {n : ℕ} (h : n ≤ maxSignificand) :
    (Number.decimal n).foldl Scaled.whole ⟨0, 0, true⟩ = ⟨n, 0, true⟩ := by
  have hvalue : Nat.ofDigitChars 10 (Number.decimal n) 0 = n :=
    Nat.ofDigitChars_toDigits (by decide) (by decide)
  rw [foldl_whole (hvalue.trans_le h), hvalue]

theorem takes_unsigned {negative : Bool} {n : ℕ} {x : Number} {rest : List Char}
    (hn : n ≤ maxSignificand) (hrest : Stops rest) (h : Takes (integer negative n) rest x rest) :
    Takes (unsigned negative) (Number.decimal n ++ rest) x rest := by
  have hfold := foldl_whole_decimal hn
  obtain ⟨c, cs, hc, hzero⟩ := Number.decimal_eq_cons n
  refine (takes_digits (fun _ => Number.decimal_isDigit) hrest).bind (Reader.takes_get_bind ?_)
  rw [hc] at hfold ⊢
  split
  · exact absurd ‹c :: cs = []› (List.cons_ne_nil c cs)
  · exact absurd ‹c :: cs = []› (List.cons_ne_nil c cs)
  · next heq =>
    obtain ⟨rfl, rfl⟩ := List.cons.inj heq
    exact absurd (hzero rfl) (List.cons_ne_nil _ _)
  · simp only [hfold]
    split
    · exact absurd rfl hrest.not_numeral.2.1
    · exact absurd rfl hrest.not_numeral.2.2.1
    · exact absurd rfl hrest.not_numeral.2.2.2
    · exact h

theorem takes_integer_neg {n : ℕ} (hpos : 0 < n) (hn : n ≤ 2 ^ 63) (rest : List Char) :
    Takes (integer true n) rest (.integer (-n)) rest := by
  have hsmall : ¬ (n = 0 ∨ 1 <<< 63 < n) := by omega
  simp only [integer, Bool.not_true, Bool.false_eq_true, if_false, hsmall]
  exact Reader.takes_pure _ rest

theorem takes_read {n : ℤ} (hlow : -2 ^ 63 ≤ n) (hhigh : n < 2 ^ 64) {rest : List Char}
    (hrest : Stops rest) : Takes read (Number.integerText n ++ rest) (.integer n) rest := by
  refine Reader.takes_get_bind ?_
  by_cases hsign : n < 0
  · have habs : -(n.natAbs : ℤ) = n := by omega
    have hfits : n.natAbs ≤ maxSignificand := by
      unfold maxSignificand
      omega
    have hinteger := takes_integer_neg (n := n.natAbs) (by omega) (by omega) rest
    rw [habs] at hinteger
    rw [Number.integerText, if_pos hsign]
    exact takes_unsigned hfits hrest hinteger
  · have habs : (n.natAbs : ℤ) = n := by omega
    have hfits : n.natAbs ≤ maxSignificand := by
      unfold maxSignificand
      omega
    have hinteger : Takes (integer false n.natAbs) rest (.integer n) rest := by
      rw [← habs]
      exact Reader.takes_pure _ rest
    have hunsigned := takes_unsigned hfits hrest hinteger
    obtain ⟨c, cs, hc, -⟩ := Number.decimal_eq_cons n.natAbs
    have hdigit : c.isDigit = true := Number.decimal_isDigit (hc ▸ List.mem_cons_self)
    rw [Number.integerText, if_neg hsign]
    rw [hc] at hunsigned ⊢
    split
    · next heq =>
      obtain rfl := (List.cons.inj heq).1
      exact absurd hdigit (by decide)
    · exact hunsigned

end Numeral

end MemoSequence
