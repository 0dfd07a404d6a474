import MemoSequence.Json.Fragments
import MemoSequence.Proofs.Json.KeyOrder
import MemoSequence.Proofs.Yields
set_option autoImplicit false

namespace MemoSequence.Json

mutual

/-- The texts that a value is written with, from left to right. -/
def tokens : Json → List String
  | .array items => "[" :: ([","].intercalate (itemTokens items) ++ ["]"])
  | .object members =>
    "\x7b" :: ([","].intercalate ((Members.inKeyOrder (memberTokens members)).map (·.2)) ++
      ["\x7d"])
  | value => [primitive value]

def itemTokens : List Json → List (List String)
  | [] => []
  | item :: items => tokens item :: itemTokens items

def memberTokens : List (String × Json) → List (String × List String)
  | [] => []
  | (key, value) :: members =>
    (key, Quoted.write key :: ":" :: tokens value) :: memberTokens members

end

section Containers
variable {w : World Atom}

theorem separated_yields {items : Plan (.seq .text)} {shown : List (Shown String)}
    {parts : List (List String)} (h : items.Yields w shown)
    (hparts : List.Forall₂ Shown.Yields shown parts) :
    (separated items).Yields w ([","].intercalate parts) := by
  have hcomma : (Shown.cons "," .empty).Yields [","] := .cons "," Shown.yields_empty
  have hread : ∀ {w' : World Atom} {item : Sequence .text} {S : Shown String},
      El.reading (.seq .text) w' item S →
        El.reading (.seq .text) w' ((Node.single ",").concat item) ((Shown.cons "," .empty).concat S) :=
    fun hitem => Plan.reading_concat (Plan.reading_one ⟨trivial, rfl⟩ ⟨.empty, rfl⟩) hitem
  rw [← flatten_afterFirst]
  refine Plan.Yields.flatten ?_ (forall₂_afterFirst hparts fun hS => hcomma.concat hS)
  rw [← scanValues_afterFirst]
  refine h.scan ?_
  rintro w' - ⟨first, item⟩ ⟨first', S⟩ ⟨rfl, hitem⟩
  cases first with
  | true => exact ⟨hitem, rfl⟩
  | false => exact ⟨hread hitem, rfl⟩

theorem wrapped_yields (opening closing : String) {plans : List (Unit → Plan .text)}
    {parts : List (List String)}
    (h : List.Forall₂ (fun plan values => (plan ()).Yields w values) plans parts) :
    (wrapped opening closing (.each plans.toArray)).Yields w
      (opening :: ([","].intercalate parts ++ [closing])) := by
  obtain ⟨shown, heach, hparts⟩ := Plan.yields_each h
  have hedge : ∀ text : String, (Plan.single text : Plan .text).Yields w [text] :=
    fun text => Plan.yields_single (i := Atom.text) text
  exact ((hedge opening).append (separated_yields heach hparts)).append (hedge closing)

end Containers

mutual

theorem fragments_yields (w : World Atom) : ∀ v : Json, (fragments v).Yields w (tokens v)
  | .null => Plan.yields_single (i := Atom.text) _
  | .bool _ => Plan.yields_single (i := Atom.text) _
  | .number _ => Plan.yields_single (i := Atom.text) _
  | .text _ => Plan.yields_single (i := Atom.text) _
  | .array items => by
    rw [fragments, tokens]
    exact wrapped_yields _ _ (itemFragments_yields w items)
  | .object members => by
    have hsorted := forall₂_mergeSort (r := fun a b => decide (keyBytes a.1 ≤ keyBytes b.1))
      (s := fun a b => decide (keyBytes a.1 ≤ keyBytes b.1)) (memberFragments_yields w members)
      fun ha hb => by rw [ha.1, hb.1]
    have hvalues := hsorted.imp fun _ _ h => h.2
    rw [fragments, tokens, Members.sort_eq_inKeyOrder]
    exact wrapped_yields _ _ (List.forall₂_map_left_iff.2 (List.forall₂_map_right_iff.2 hvalues))

theorem itemFragments_yields (w : World Atom) : ∀ items : List Json,
    List.Forall₂ (fun plan values => (plan ()).Yields w values) (itemFragments items)
      (itemTokens items)
  | [] => .nil
  | item :: items => .cons (fragments_yields w item) (itemFragments_yields w items)

theorem memberFragments_yields (w : World Atom) : ∀ members : List (String × Json),
    List.Forall₂ (fun m t => m.1 = t.1 ∧ (m.2 ()).Yields w t.2) (memberFragments members)
      (memberTokens members)
  | [] => .nil
  | (key, value) :: members => by
    have hname : (Plan.ofList [Quoted.write key, ":"] : Plan .text).Yields w
        [Quoted.write key, ":"] := Plan.yields_ofList (i := Atom.text) _
    exact .cons ⟨rfl, hname.append (fragments_yields w value)⟩ (memberFragments_yields w members)

end

theorem stringify_gives (v : Json) :
    ∃ st, Gives (fun fuel => stringify fuel v) Store.empty (String.join (tokens v)) st := by
  have hjoined : afterFirst ("" ++ ·) (tokens v) = tokens v := by
    cases tokens v <;> simp [afterFirst]
  obtain ⟨st, hgives⟩ := (fragments_yields [] v).join_gives ""
  rw [hjoined] at hgives
  exact ⟨st, hgives⟩

/-- The fragments of a value are its tokens, its first fragments are its first tokens, and its text is
all of them one after the other. -/
theorem rendering_tokens (v : Json) :
    (fragments v).Collects (tokens v) ∧
      (∀ n, (Plan.take (fragments v) n).Collects ((tokens v).take n)) ∧
      ∃ st, Gives (fun fuel => stringify fuel v) Store.empty (String.join (tokens v)) st := by
  have hyields := fragments_yields [] v
  exact ⟨hyields.collects, fun n => (hyields.take n).collects, stringify_gives v⟩

end MemoSequence.Json
