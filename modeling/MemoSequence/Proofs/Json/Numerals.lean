import MemoSequence.Proofs.Json.Parsed
set_option autoImplicit false

namespace MemoSequence
open Reader (Takes)

namespace Reader
variable {α β : Type} {r : Reader α} {f : α → Reader β} {input mid rest : List Char}

/-- What a reader comes to at this input: it takes a value and leaves `rest`, or it stops at a fault. -/
def Settles (r : Reader α) (input : List Char) (outcome : Option α) (rest : List Char) : Prop :=
  match outcome with
  | some x => Takes r input x rest
  | none => ∃ fault, StateT.run r input = .error fault

theorem Settles.of_run_eq {r' : Reader α} {input' : List Char} {outcome : Option α}
    (h : Settles r' input' outcome rest) (hrun : StateT.run r input = StateT.run r' input') :
    Settles r input outcome rest := by
  cases outcome with
  | some _ => exact hrun.trans h
  | none => exact h.imp fun _ => hrun.trans

theorem Takes.settles_bind {x : α} {outcome : Option β} (h : Takes r input x mid)
    (hf : Settles (f x) mid outcome rest) : Settles (r >>= f) input outcome rest := by
  cases outcome with
  | some y => exact h.bind hf
  | none =>
    obtain ⟨fault, hfault⟩ := hf
    refine ⟨fault, ?_⟩
    unfold Takes at h
    rw [StateT.run_bind, h]
    exact hfault

theorem Settles.bind {outcome : Option α} {g : α → Option β} (h : Settles r input outcome mid)
    (hf : ∀ x ∈ outcome, Settles (f x) mid (g x) rest) :
    Settles (r >>= f) input (outcome.bind g) rest := by
  cases outcome with
  | some x => exact Takes.settles_bind h (hf x rfl)
  | none =>
    obtain ⟨fault, hfault⟩ := h
    refine ⟨fault, ?_⟩
    rw [StateT.run_bind, hfault]
    rfl

theorem Settles.map {outcome : Option α} (h : Settles r input outcome rest) (g : α → β) :
    Settles (do return g (← r)) input (outcome.map g) rest := by
  have hbind := h.bind (f := fun x => pure (g x)) (g := fun x => some (g x)) fun x _ => takes_pure _ _
  rw [Option.map_eq_bind]
  exact hbind

theorem Settles.lift {outcome : Option α} (h : Settles r mid outcome rest) (input : List Char) :
    Settles (do
      let (x, left) ← (StateT.run r mid : Except Fault (α × List Char))
      set left
      return x) input outcome rest := by
  cases outcome with
  | some x =>
    have hrun : StateT.run r mid = .ok (x, rest) := h
    rw [hrun]
    rfl
  | none =>
    obtain ⟨fault, hfault⟩ := h
    rw [hfault]
    exact ⟨fault, rfl⟩

theorem settles_get_bind {f : List Char → Reader β} {outcome : Option β}
    (h : Settles (f input) input outcome rest) : Settles (get >>= f) input outcome rest := h

theorem settles_set_bind {f : Reader β} {outcome : Option β} (h : Settles f mid outcome rest) :
    Settles (set mid >>= fun _ => f) input outcome rest := h

end Reader

namespace Numeral
open Reader (Settles)

structure Digits (ds : List Char) : Prop where
  nonempty : ds ≠ []
  digit : ∀ c ∈ ds, c.isDigit = true

inductive Exponent : List Char → Prop
  | none : Exponent []
  | some {sign : Char} {ds : List Char} (hsign : sign = '+' ∨ sign = '-') (hds : Digits ds) :
      Exponent ('e' :: sign :: ds)

inductive Fraction : List Char → Prop
  | none : Fraction []
  | some {ds : List Char} (hds : Digits ds) : Fraction ('.' :: ds)

/-- A number without its sign: whole digits, a fraction and an exponent. -/
inductive Written : List Char → Prop
  | parts {whole fraction exponent : List Char} (hwhole : Digits whole) (hfraction : Fraction fraction)
      (hexponent : Exponent exponent) : Written (whole ++ (fraction ++ exponent))

section Reading
variable {negative : Bool} {rest : List Char}

theorem real_settles (negative : Bool) (n : ℕ) (e : ℤ) :
    ∃ outcome, ∀ rest, Settles (real negative n e) rest outcome rest := by
  unfold real
  split
  · exact ⟨some _, fun rest => Reader.takes_pure _ rest⟩
  · exact ⟨none, fun rest => ⟨_, rfl⟩⟩

theorem exponentDigits_settles (negative : Bool) (s : Scaled) (down : Bool) {ds : List Char}
    (hds : ∀ c ∈ ds, c.isDigit = true) (e : ℕ) : ∃ outcome : Option Number, ∀ rest, Stops rest →
      Settles (exponentDigits negative s down e) (ds ++ rest) outcome rest := by
  induction ds generalizing e with
  | nil =>
    obtain ⟨outcome, houtcome⟩ := real_settles negative s.significand
      (clamp (s.exponent + if down then -(e : ℤ) else e))
    refine ⟨outcome, fun rest hrest => ?_⟩
    have hfinish : exponentDigits negative s down e rest =
        exponentDigits.finish negative s down e rest := by
      cases rest with
      | nil => rfl
      | cons c rest => rw [exponentDigits, if_neg (by simp [hrest.not_numeral.1])]
    exact (houtcome rest).of_run_eq hfinish
  | cons c ds ih =>
    have hdigit : c.isDigit = true := hds c List.mem_cons_self
    have hrun : ∀ rest, exponentDigits negative s down e (c :: (ds ++ rest)) = _ :=
      fun rest => by rw [exponentDigits, if_pos hdigit]
    by_cases hnext : e * 10 + digitValue c ≤ maxExponent
    · obtain ⟨outcome, houtcome⟩ := ih (fun d hd => hds d (List.mem_cons_of_mem c hd))
        (e * 10 + digitValue c)
      exact ⟨outcome, fun rest hrest =>
        (houtcome rest hrest).of_run_eq ((hrun rest).trans (if_pos hnext))⟩
    · by_cases hrange : s.significand ≠ 0 ∧ !down
      · exact ⟨none, fun rest _ => ⟨_, ((hrun rest).trans (if_neg hnext)).trans (if_pos hrange)⟩⟩
      · refine ⟨some (.real ⟨negative, .zero⟩), fun rest hrest => ?_⟩
        have hstep := ((hrun rest).trans (if_neg hnext)).trans (if_neg hrange)
        have hdrop := (takes_digits (fun d hd => hds d (List.mem_cons_of_mem c hd)) hrest)
        have hleft : (ds ++ rest).dropWhile Char.isDigit = rest :=
          congrArg Prod.snd (Except.ok.inj hdrop)
        rw [hleft] at hstep
        exact hstep

theorem exponentPart_settles (negative : Bool) (s : Scaled) {sign : Char} (hsign : sign = '+' ∨ sign = '-')
    {ds : List Char} (hds : Digits ds) : ∃ outcome, ∀ rest, Stops rest →
      Settles (exponentPart negative s) (sign :: ds ++ rest) outcome rest := by
  obtain ⟨hne, hdigits⟩ := hds
  cases ds with
  | nil => exact absurd rfl hne
  | cons c ds =>
    have hc : c.isDigit = true := hdigits c List.mem_cons_self
    obtain ⟨outcome, houtcome⟩ := exponentDigits_settles negative s (decide (sign = '-'))
      (fun d hd => hdigits d (List.mem_cons_of_mem c hd)) (digitValue c)
    refine ⟨outcome, fun rest hrest => ?_⟩
    have hsettles := houtcome rest hrest
    unfold exponentPart
    refine Reader.settles_get_bind ?_
    obtain rfl | rfl := hsign
    all_goals
      dsimp only [List.cons_append]
      refine Reader.settles_set_bind ?_
      rw [pure_bind]
      refine Reader.settles_get_bind ?_
      dsimp only
      rw [if_pos hc]
      exact hsettles.lift _

theorem scaled_settles (negative : Bool) (s : Scaled) {exponent : List Char} (h : Exponent exponent) :
    ∃ outcome, ∀ rest, Stops rest → Settles (scaled negative s) (exponent ++ rest) outcome rest := by
  cases h with
  | none =>
    obtain ⟨outcome, houtcome⟩ := real_settles negative s.significand s.exponent
    refine ⟨outcome, fun rest hrest => Reader.settles_get_bind ?_⟩
    rw [List.nil_append]
    split
    · exact absurd rfl hrest.not_numeral.2.2.1
    · exact absurd rfl hrest.not_numeral.2.2.2
    · exact houtcome rest
  | some hsign hds =>
    obtain ⟨outcome, houtcome⟩ := exponentPart_settles negative s hsign hds
    exact ⟨outcome, fun rest hrest => houtcome rest hrest⟩

theorem Exponent.head_isDigit {exponent rest : List Char} (h : Exponent exponent) (hrest : Stops rest) :
    ∀ c ∈ (exponent ++ rest).head?, c.isDigit = false := by
  cases h with
  | none => exact hrest.head_isDigit
  | some _ _ =>
    rintro _ ⟨⟩
    decide

theorem fractionPart_settles (negative : Bool) (s : Scaled) {ds exponent : List Char} (hds : Digits ds)
    (h : Exponent exponent) : ∃ outcome, ∀ rest, Stops rest →
      Settles (fractionPart negative s) (ds ++ (exponent ++ rest)) outcome rest := by
  obtain ⟨outcome, houtcome⟩ := scaled_settles negative
    (ds.foldl .fraction { s with fits := true }) h
  refine ⟨outcome, fun rest hrest => ?_⟩
  have hnonempty : ds.isEmpty = false := by simp [hds.nonempty]
  refine (takes_digits_before hds.digit (h.head_isDigit hrest)).settles_bind ?_
  simp only [hnonempty, Bool.false_eq_true, if_false]
  exact houtcome rest hrest

theorem integer_settles (negative : Bool) (n : ℕ) :
    ∃ outcome, ∀ rest, Settles (integer negative n) rest outcome rest := by
  unfold integer
  split
  · exact ⟨some _, fun rest => Reader.takes_pure _ rest⟩
  · split
    · exact real_settles true n 0
    · exact ⟨some _, fun rest => Reader.takes_pure _ rest⟩

theorem behindWhole_settles (negative : Bool) (s : Scaled) {fraction exponent : List Char}
    (hfraction : Fraction fraction) (hexponent : Exponent exponent) :
    ∃ outcome, ∀ rest, Stops rest → Settles
      (match fraction ++ (exponent ++ rest) with
        | '.' :: rest => do
          set rest
          fractionPart negative s
        | 'e' :: _ | 'E' :: _ => scaled negative s
        | _ => if s.fits then integer negative s.significand else scaled negative s)
      (fraction ++ (exponent ++ rest)) outcome rest := by
  cases hfraction with
  | some hds =>
    obtain ⟨outcome, houtcome⟩ := fractionPart_settles negative s hds hexponent
    exact ⟨outcome, fun rest hrest => Reader.settles_set_bind (houtcome rest hrest)⟩
  | none =>
    cases hexponent with
    | some hsign hds =>
      obtain ⟨outcome, houtcome⟩ := scaled_settles negative s (.some hsign hds)
      exact ⟨outcome, fun rest hrest => houtcome rest hrest⟩
    | none =>
      obtain ⟨whole, hwhole⟩ := integer_settles negative s.significand
      obtain ⟨outcome, houtcome⟩ := scaled_settles negative s .none
      refine ⟨if s.fits then whole else outcome, fun rest hrest => ?_⟩
      simp only [List.nil_append]
      split
      · exact absurd rfl hrest.not_numeral.2.1
      · exact absurd rfl hrest.not_numeral.2.2.1
      · exact absurd rfl hrest.not_numeral.2.2.2
      · by_cases hfits : s.fits = true
        · simpa only [hfits, if_true] using hwhole rest
        · simpa only [hfits, if_false, Bool.false_eq_true, List.nil_append] using houtcome rest hrest

theorem unsigned_settles (negative : Bool) {text : List Char} (h : Written text) :
    ∃ outcome, ∀ rest, Stops rest → Settles (unsigned negative) (text ++ rest) outcome rest := by
  obtain @⟨whole, fraction, exponent, hwhole, hfraction, hexponent⟩ := h
  have htakes : ∀ rest, Stops rest → Takes digits (whole ++ (fraction ++ exponent) ++ rest) whole
      (fraction ++ (exponent ++ rest)) := by
    intro rest hrest
    rw [List.append_assoc, List.append_assoc]
    refine takes_digits_before hwhole.digit ?_
    cases hfraction with
    | none => exact hexponent.head_isDigit hrest
    | some _ =>
      rintro _ ⟨⟩
      decide
  by_cases hzero : ∃ more ds, whole = '0' :: more :: ds
  · obtain ⟨more, ds, rfl⟩ := hzero
    refine ⟨none, fun rest hrest => (htakes rest hrest).settles_bind ?_⟩
    exact Reader.settles_get_bind ⟨_, rfl⟩
  · obtain ⟨outcome, houtcome⟩ := behindWhole_settles negative
      (whole.foldl Scaled.whole ⟨0, 0, true⟩) hfraction hexponent
    refine ⟨outcome, fun rest hrest => (htakes rest hrest).settles_bind ?_⟩
    refine Reader.settles_get_bind ?_
    split
    · exact absurd rfl hwhole.nonempty
    · exact absurd rfl hwhole.nonempty
    · exact absurd ⟨_, _, rfl⟩ hzero
    · exact houtcome rest hrest

end Reading

end Numeral

namespace Number
open Numeral (Digits Fraction Exponent Written)
open Reader (Settles)

theorem decimal_digits (n : ℕ) : Digits (decimal n) where
  nonempty := by
    obtain ⟨c, cs, hc, -⟩ := decimal_eq_cons n
    simp [hc]
  digit _ := decimal_isDigit

theorem zeros_isDigit {n : ℕ} {c : Char} (h : c ∈ zeros n) : c.isDigit = true := by
  rw [List.eq_of_mem_replicate h]
  decide

theorem pointed_written {ds : List Char} (h : Digits ds) (k : ℤ) : Written (pointed ds k) := by
  have hzero : Digits ['0'] := ⟨List.cons_ne_nil _ _, fun c hc => by rw [List.mem_singleton.1 hc]; decide⟩
  unfold pointed
  split
  · have hfraction : Digits (zeros (-k).toNat ++ ds) := by
      refine ⟨by simp [h.nonempty], fun c hc => ?_⟩
      exact (List.mem_append.1 hc).elim zeros_isDigit (h.digit c)
    simpa using Written.parts hzero (.some hfraction) .none
  · next hpos =>
    split
    · have hwhole : Digits (ds ++ zeros (k.toNat - ds.length)) := by
        refine ⟨by simp [h.nonempty], fun c hc => ?_⟩
        exact (List.mem_append.1 hc).elim (h.digit c) zeros_isDigit
      simpa using Written.parts hwhole (.some hzero) .none
    · next hlong =>
      have hwhole : Digits (ds.take k.toNat) :=
        ⟨by rw [Ne, List.take_eq_nil_iff]; simp [h.nonempty]; omega,
          fun c hc => h.digit c (List.mem_of_mem_take hc)⟩
      have hfraction : Digits (ds.drop k.toNat) :=
        ⟨by rw [Ne, List.drop_eq_nil_iff]; omega, fun c hc => h.digit c (List.mem_of_mem_drop hc)⟩
      simpa using Written.parts hwhole (.some hfraction) .none

theorem scientific_written {ds : List Char} (h : Digits ds) (k : ℤ) : Written (scientific ds k) := by
  have hwhole : Digits (ds.take 1) :=
    ⟨by simp [h.nonempty], fun c hc => h.digit c (List.mem_of_mem_take hc)⟩
  have hfraction : Fraction (if ds.length ≤ 1 then [] else '.' :: ds.drop 1) := by
    split
    · exact .none
    · next hlong =>
      exact .some ⟨by rw [Ne, List.drop_eq_nil_iff]; omega,
        fun c hc => h.digit c (List.mem_of_mem_drop hc)⟩
  have hexponent : Exponent ((if k - 1 < 0 then ['e', '-'] else ['e', '+']) ++
      decimal (k - 1).natAbs) := by
    split
    · exact .some (.inr rfl) (decimal_digits _)
    · exact .some (.inl rfl) (decimal_digits _)
  simpa [scientific] using Written.parts hwhole hfraction hexponent

theorem decimalText_written (layout : RealLayout) (d : Decimal) : Written (decimalText layout d) := by
  unfold decimalText
  dsimp only
  split
  · exact pointed_written (decimal_digits _) _
  · exact scientific_written (decimal_digits _) _

theorem write_written (x : Number) :
    ∃ text, Written text ∧ (x.write.toList = text ∨ x.write.toList = '-' :: text) := by
  cases x with
  | integer n =>
    have hwritten := Written.parts (decimal_digits n.natAbs) .none .none
    refine ⟨_, hwritten, ?_⟩
    rw [write, String.toList_ofList, integerText, List.append_nil, List.append_nil]
    split
    · exact .inr rfl
    · exact .inl rfl
  | real x =>
    refine ⟨_, decimalText_written realLayout x.magnitude.shortest, ?_⟩
    rw [write, String.toList_ofList, realText]
    split
    · exact .inr rfl
    · exact .inl rfl

/-- What the number is read as from its own text, if the reader does not stop there. -/
def reread? (x : Number) : Option Number :=
  match StateT.run Numeral.read x.write.toList with
  | .ok (y, _) => some y
  | .error _ => none

theorem written_begins {text : List Char} (h : Written text) :
    ∃ c cs, text = c :: cs ∧ c.isDigit = true := by
  obtain @⟨whole, fraction, exponent, hwhole, -, -⟩ := h
  obtain ⟨c, cs, rfl⟩ := List.exists_cons_of_ne_nil hwhole.nonempty
  exact ⟨c, cs ++ (fraction ++ exponent), rfl, hwhole.digit c List.mem_cons_self⟩

theorem read_settles (x : Number) : ∃ outcome, ∀ rest, Stops rest →
    Settles Numeral.read (x.write.toList ++ rest) outcome rest := by
  obtain ⟨text, hwritten, htext | htext⟩ := x.write_written
  · obtain ⟨outcome, houtcome⟩ := Numeral.unsigned_settles false hwritten
    refine ⟨outcome, fun rest hrest => Reader.settles_get_bind ?_⟩
    have hsettles := houtcome rest hrest
    obtain ⟨c, cs, rfl, hdigit⟩ := written_begins hwritten
    rw [htext]
    split
    · next heq =>
      obtain rfl := (List.cons.inj heq).1
      exact absurd hdigit (by decide)
    · exact hsettles
  · obtain ⟨outcome, houtcome⟩ := Numeral.unsigned_settles true hwritten
    refine ⟨outcome, fun rest hrest => Reader.settles_get_bind ?_⟩
    rw [htext]
    exact Reader.settles_set_bind (houtcome rest hrest)

/-- Whatever may follow a number, its text is read as `reread?` says. -/
theorem reread?_settles (x : Number) {rest : List Char} (h : Stops rest) :
    Settles Numeral.read (x.write.toList ++ rest) x.reread? rest := by
  obtain ⟨outcome, houtcome⟩ := x.read_settles
  have halone := houtcome [] trivial
  have hrest := houtcome rest h
  rw [List.append_nil] at halone
  have hsame : x.reread? = outcome := by
    unfold reread?
    cases outcome with
    | some y =>
      have hrun : StateT.run Numeral.read x.write.toList = .ok (y, []) := halone
      rw [hrun]
    | none =>
      obtain ⟨fault, hfault⟩ := halone
      rw [hfault]
  rwa [hsame]

/-- The number is read from its text as a number with the same text. -/
def Stable (x : Number) : Prop := x.reread?.map write = some x.write

instance (x : Number) : Decidable x.Stable := inferInstanceAs (Decidable (_ = _))

theorem integer_reread {n : ℤ} (h : (Number.integer n).InRange) :
    (Number.integer n).reread? = some (.integer n) := by
  have hend : Stops [] := trivial
  have htakes := Numeral.takes_read h.1 h.2 hend
  have hrun : StateT.run Numeral.read (Number.integer n).write.toList = .ok (.integer n, []) := by
    rw [write, String.toList_ofList, ← List.append_nil (integerText n)]
    exact htakes
  unfold reread?
  rw [hrun]

theorem integer_stable {n : ℤ} (h : (Number.integer n).InRange) : (Number.integer n).Stable := by
  rw [Stable, integer_reread h]
  rfl

theorem written_chars {text : List Char} (h : Written text) {c : Char} (hc : c ∈ text) :
    c.isDigit = true ∨ c ∈ ['.', 'e', '+', '-'] := by
  obtain @⟨whole, fraction, exponent, hwhole, hfraction, hexponent⟩ := h
  simp only [List.mem_append] at hc
  obtain hc | hc | hc := hc
  · exact .inl (hwhole.digit c hc)
  · cases hfraction with
    | none => cases hc
    | some hds =>
      obtain rfl | hc := List.mem_cons.1 hc
      · exact .inr (by simp)
      · exact .inl (hds.digit c hc)
  · cases hexponent with
    | none => cases hc
    | some hsign hds =>
      simp only [List.mem_cons] at hc
      obtain rfl | rfl | hc := hc
      · exact .inr (by simp)
      · exact .inr (by obtain rfl | rfl := hsign <;> simp)
      · exact .inl (hds.digit c hc)

theorem write_unstopped {x : Number} {c : Char} (hc : c ∈ x.write.toList) (rest : List Char) :
    ¬ Stops (c :: rest) := by
  have hchar : c.isDigit = true ∨ c ∈ ['.', 'e', '+', '-'] := by
    obtain ⟨text, hwritten, htext | htext⟩ := x.write_written
    · exact written_chars hwritten (htext ▸ hc)
    · rw [htext] at hc
      obtain rfl | hc := List.mem_cons.1 hc
      · exact .inr (by simp)
      · exact written_chars hwritten hc
  intro hstops
  obtain hdigit | hchar := hchar
  · exact absurd hdigit (by simp [hstops.not_numeral.1])
  · simp only [List.mem_cons, List.not_mem_nil, or_false] at hchar
    obtain rfl | rfl | rfl | rfl := hchar <;> simp [Stops, Reader.isBlank] at hstops

end Number

end MemoSequence
