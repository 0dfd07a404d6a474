import MemoSequence.Json.Typed
import MemoSequence.Proofs.Json.Canonical
set_option autoImplicit false

namespace MemoSequence
open Reader (Takes)

variable {α β : Type} {r : Reader α} {item : Reader α} {P Q : α → List Char → Prop}

namespace Reads

theorem mono (h : Reads r P) (hQ : ∀ {x cs}, Q x cs → P x cs) : Reads r Q where
  begins hx := h.begins (hQ hx)
  takes hx := h.takes (hQ hx)

theorem map (h : Reads r P) (f : α → β) :
    Reads (do return f (← r)) fun y cs => ∃ x, P x cs ∧ f x = y where
  begins := by
    rintro _ _ ⟨x, hx, rfl⟩
    exact h.begins hx
  takes := by
    rintro _ _ _ rest ⟨x, hx, rfl⟩ hb hrest
    exact (h.takes hx hb hrest).bind (Reader.takes_pure (f x) rest)

theorem run (h : Reads r P) {x : α} {text : String} (hx : P x text.toList) : Reader.run r text = .ok x := by
  have hend : Stops [] := trivial
  have htakes := h.takes hx blank_nil hend
  rw [List.append_nil, List.nil_append] at htakes
  have hwhole : Takes (do
      let x ← r
      Reader.finish
      return x) text.toList x [] :=
    htakes.bind ((Json.takes_finish blank_nil).bind (Reader.takes_pure x []))
  unfold Takes at hwhole
  simp only [Reader.run, hwhole]

end Reads

namespace Typed

theorem reads_integer (least greatest : ℤ) (hlow : -2 ^ 63 ≤ least) (hhigh : greatest < 2 ^ 64) :
    Reads (integer least greatest) fun n cs =>
      (least ≤ n ∧ n ≤ greatest) ∧ cs = Number.integerText n where
  begins := by
    rintro n _ ⟨-, rfl⟩
    obtain ⟨c, cs, hc, hfirst⟩ := Json.integerText_begins n
    rw [hc]
    exact Json.begins_number hfirst
  takes := by
    rintro n _ _ rest ⟨hn, rfl⟩ hb hrest
    have hread := Numeral.takes_read (n := n) (by omega) (by omega) hrest
    obtain ⟨c, cs, hc, hfirst⟩ := Json.integerText_begins n
    rw [hc] at hread ⊢
    refine (takes_peek hb (Json.begins_number hfirst).1 _).bind ?_
    simp only [if_pos hfirst]
    refine hread.bind ?_
    simp only [if_pos hn]
    exact Reader.takes_pure n rest

theorem reads_int64 : Reads int64 fun n cs => cs = Number.integerText n.toInt := by
  have hbounds := reads_integer Int64.minValue.toInt Int64.maxValue.toInt (by decide) (by decide)
  refine (hbounds.map Int64.ofInt).mono fun {n cs} h => ⟨n.toInt, ⟨⟨?_, ?_⟩, h⟩, Int64.ofInt_toInt n⟩
  · exact Int64.minValue_le_toInt n
  · exact Int64.toInt_le n

theorem reads_nat64 : Reads nat64 fun n cs => n < 2 ^ 64 ∧ cs = Number.integerText n := by
  have hmax : Numeral.maxSignificand = 2 ^ 64 - 1 := by decide
  have hbounds := reads_integer 0 Numeral.maxSignificand (by decide) (by omega)
  refine (hbounds.map Int.toNat).mono fun {n cs} h => ⟨n, ⟨⟨Int.natCast_nonneg n, ?_⟩, h.2⟩, rfl⟩
  rw [hmax]
  omega

theorem reads_text : Reads text fun s cs => cs = (Quoted.write s).toList where
  begins := by
    rintro s _ rfl
    rw [Quoted.write, String.toList_ofList]
    exact ⟨rfl, by decide⟩
  takes := by
    rintro s _ _ rest rfl hb -
    have hread := (spells_escape s.toList).takes rest
    rw [String.ofList_toList] at hread
    rw [Quoted.write, String.toList_ofList]
    simp only [List.cons_append, List.append_assoc, List.nil_append]
    exact (takes_peek hb rfl _).bind ((Reader.takes_skip _ _).bind hread)

def OptionText (P : α → List Char → Prop) : Option α → List Char → Prop
  | none, cs => cs = ['n', 'u', 'l', 'l']
  | some x, cs => P x cs

theorem reads_optional (h : Reads item P) (hn : ∀ {x cs}, P x cs → cs.head? ≠ some 'n') :
    Reads (optional item) (OptionText P) where
  begins {x cs} hx := by
    cases x with
    | none =>
      obtain rfl := hx
      exact ⟨rfl, by decide⟩
    | some x => exact h.begins hx
  takes {x blanks cs rest} hx hb hrest := by
    cases x with
    | none =>
      obtain rfl := hx
      exact (takes_peek hb rfl _).bind rfl
    | some x =>
      have hread := h.takes hx blank_nil hrest
      have hbegins := h.begins hx
      have hfirst := hn hx
      cases cs with
      | nil => exact hbegins.elim
      | cons c cs =>
        refine (takes_peek hb hbegins.1 _).bind ?_
        split
        · next hsome => exact absurd hsome hfirst
        · exact hread.bind (Reader.takes_pure (some x) rest)

def PairText (P : α → List Char → Prop) (Q : β → List Char → Prop) (x : α × β) (cs : List Char) : Prop :=
  ∃ first second, P x.1 first ∧ Q x.2 second ∧ cs = '[' :: (first ++ ',' :: (second ++ [']']))

theorem reads_pair {other : Reader β} {Q : β → List Char → Prop} (h : Reads item P) (h' : Reads other Q) :
    Reads (pair item other) (PairText P Q) where
  begins := by
    rintro _ _ ⟨first, second, -, -, rfl⟩
    exact ⟨rfl, by decide⟩
  takes := by
    rintro ⟨x, y⟩ blanks _ rest ⟨first, second, hx, hy, rfl⟩ hb -
    simp only [List.cons_append, List.append_assoc, List.nil_append]
    have hcomma : ∀ cs, Stops (',' :: cs) := fun _ => .inr (by simp)
    have hbracket : Stops (']' :: rest) := .inr (by simp)
    have hclose : Takes closeList (']' :: rest) () rest := (takes_peek blank_nil rfl rest).bind rfl
    refine (takes_peek hb rfl _).bind ((Reader.takes_skip _ _).bind ?_)
    refine (takes_nextItem_first blank_nil (h.begins hx) _).bind ?_
    refine (h.takes hx blank_nil (hcomma _)).bind ?_
    refine (takes_nextItem_more blank_nil blank_nil (h'.begins hy) _).bind ?_
    exact (h'.takes hy blank_nil hbracket).bind (hclose.bind (Reader.takes_pure (x, y) rest))

def ListText (P : α → List Char → Prop) (xs : List α) (cs : List Char) : Prop :=
  ∃ body, Listed P xs body ∧ cs = '[' :: (body ++ [']'])

theorem reads_list (h : Reads item P) : Reads (list item) (ListText P) where
  begins := by
    rintro _ _ ⟨body, -, rfl⟩
    exact ⟨rfl, by decide⟩
  takes := by
    rintro xs _ _ rest ⟨body, hbody, rfl⟩ hb -
    simp only [List.cons_append, List.append_assoc, List.nil_append]
    exact (takes_peek hb rfl _).bind ((Reader.takes_skip _ _).bind
      (Reader.takes_get_bind (hbody.gathered (items_gathers h) rest)))

theorem characters_commas (texts : List String) :
    Json.characters ([","].intercalate (texts.map fun t => [t])) = (",".intercalate texts).toList := by
  have hmore : ∀ texts : List String, Json.characters ((texts.map fun t => [t]).map ([","] ++ ·)).flatten =
      ((texts.map String.toList).map (",".toList ++ ·)).flatten := by
    intro texts
    induction texts with
    | nil => rfl
    | cons text rest ih =>
      rw [List.map_cons, List.map_cons, List.flatten_cons, Json.characters_append, ih]
      simp [Json.characters]
  rw [String.toList_intercalate, ← flatten_afterFirst, ← flatten_afterFirst]
  cases texts with
  | nil => rfl
  | cons text rest =>
    rw [List.map_cons, List.map_cons, afterFirst, afterFirst, List.flatten_cons, List.flatten_cons,
      Json.characters_append, Json.characters_singleton, hmore]

theorem listText_brackets {xs : List α} {texts : List String}
    (h : List.Forall₂ (fun x text => P x text.toList) xs texts) :
    ListText P xs ("[" ++ ",".intercalate texts ++ "]").toList := by
  refine ⟨(",".intercalate texts).toList, ?_, by simp⟩
  rw [← characters_commas]
  refine Json.listed_intercalate (List.forall₂_map_right_iff.2 ?_)
  simpa only [Json.characters_singleton] using h

end Typed

end MemoSequence
