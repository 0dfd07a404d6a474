import Mathlib.Data.List.Pairwise
import MemoSequence.Proofs.Json.Paths
import MemoSequence.Proofs.Json.Rendering
set_option autoImplicit false

namespace MemoSequence
namespace Members
variable {α : Type*} {members : List (String × α)} {key key' : String}

theorem insert_insert (value value' : α) :
    insert key value (insert key value' members) = insert key value members := by
  induction members with
  | nil => simp [insert]
  | cons m rest ih =>
    obtain ⟨k, v⟩ := m
    by_cases hlt : key < k
    · simp [insert, hlt]
    · by_cases hk : k = key
      · simp [insert, hk]
      · simp [insert, hlt, hk, ih]

theorem insert_insert_of_lt (h : key < key') (value value' : α) :
    insert key value (insert key' value' members) = insert key' value' (insert key value members) := by
  have hnot : ¬ key' < key := not_lt_of_gt h
  induction members with
  | nil => simp [insert, h, hnot, h.ne]
  | cons m rest ih =>
    obtain ⟨k, v⟩ := m
    by_cases hlt : key < k
    · by_cases hlt' : key' < k
      · simp [insert, h, hnot, hlt, hlt', h.ne]
      · by_cases hk' : k = key' <;> simp [insert, hnot, hlt, hlt', h, hk', h.ne]
    · have hlt' : ¬ key' < k := fun h' => hlt (h.trans h')
      by_cases hk : k = key
      · subst hk
        simp [insert, hnot, h.ne]
      · by_cases hk' : k = key'
        · exact absurd (hk' ▸ h) hlt
        · simp [insert, hlt, hlt', hk, hk', ih]

theorem insert_comm (h : key ≠ key') (value value' : α) :
    insert key value (insert key' value' members) = insert key' value' (insert key value members) := by
  rcases lt_or_gt_of_ne h with hlt | hgt
  · exact insert_insert_of_lt hlt value value'
  · exact (insert_insert_of_lt hgt value' value).symm

end Members

namespace Json
open Members (find? insert)

/-- Neither path leads through the other one. -/
def Apart (path path' : List String) : Prop := ¬ path <+: path' ∧ ¬ path' <+: path

def edited (edits : List (List String × Json)) (target : Option Json) : Option Json :=
  edits.foldl (fun target edit => some (setProperty edit.2 edit.1 target)) target

theorem setProperty_comm {path path' : List String} (h : Apart path path') (value value' : Json)
    (target : Option Json) :
    setProperty value path (some (setProperty value' path' target)) =
      setProperty value' path' (some (setProperty value path target)) := by
  induction path generalizing path' target with
  | nil => exact absurd List.nil_prefix h.1
  | cons key path ih =>
    obtain _ | ⟨key', path'⟩ := path'
    · exact absurd List.nil_prefix h.2
    simp only [setProperty, membersOf, Members.find?_insert]
    by_cases hkey : key = key'
    · subst hkey
      have hrest : Apart path path' :=
        h.imp (mt (List.prefix_cons_inj key).2) (mt (List.prefix_cons_inj key).2)
      rw [if_pos rfl, if_pos rfl, Members.insert_insert, Members.insert_insert, ih hrest]
    · rw [if_neg hkey, if_neg (Ne.symm hkey), Members.insert_comm hkey]

theorem setProperty_over {path path' : List String} (h : path <+: path') (value value' : Json)
    (target : Option Json) :
    setProperty value path (some (setProperty value' path' target)) = setProperty value path target := by
  induction path generalizing path' target with
  | nil => rfl
  | cons key path ih =>
    obtain ⟨rest, rfl⟩ := h
    have hrest := ih (List.prefix_append path rest) (find? key (membersOf target))
    rw [List.cons_append, setProperty, setProperty, setProperty]
    rw [show membersOf (some (object (insert key _ (membersOf target)))) = insert key _ (membersOf target)
      from rfl, Members.find?_insert, if_pos rfl, hrest, Members.insert_insert]

theorem edited_perm {edits edits' : List (List String × Json)}
    (h : edits.Pairwise fun a b => Apart a.1 b.1) (hperm : edits.Perm edits') (target : Option Json) :
    edited edits target = edited edits' target := by
  have : Std.Symm fun a b : List String × Json => Apart a.1 b.1 := ⟨fun _ _ => And.symm⟩
  refine hperm.foldl_eq' (fun a ha b hb target => ?_) target
  by_cases hab : a = b
  · rw [hab]
  · exact congrArg some (setProperty_comm (h.forall ha hb hab) a.2 b.2 target).symm

theorem edited_ordered {edits : List (List String × Json)} {target : Option Json}
    (htarget : ∀ t ∈ target, t.Ordered) (hedits : ∀ edit ∈ edits, edit.2.Ordered) :
    ∀ value ∈ edited edits target, value.Ordered := by
  induction edits generalizing target with
  | nil => exact htarget
  | cons edit rest ih =>
    obtain ⟨hedit, hrest⟩ := List.forall_mem_cons.1 hedits
    refine ih (fun t ht => ?_) hrest
    obtain rfl := Option.some.inj ht
    exact setProperty_ordered hedit htarget

/-- Edits at paths of which none leads through another one come to the same value in every order, and its
text is the same; an edit makes up for every one made at its path or beyond it; and members that are in order
are in order after every edit. -/
theorem edits_lawful :
    (∀ (edits edits' : List (List String × Json)) (target : Option Json),
      edits.Pairwise (fun a b => Apart a.1 b.1) → edits.Perm edits' →
        edited edits' target = edited edits target ∧
        ∀ value ∈ edited edits target, ∃ text st,
          Gives (fun fuel => stringify fuel value) Store.empty text st ∧
          ∀ value' ∈ edited edits' target,
            Gives (fun fuel => stringify fuel value') Store.empty text st) ∧
    (∀ (path path' : List String) (value value' : Json) (target : Option Json), path <+: path' →
      setProperty value path (some (setProperty value' path' target)) = setProperty value path target) ∧
    ∀ (edits : List (List String × Json)) (target : Option Json), (∀ t ∈ target, t.Ordered) →
      (∀ edit ∈ edits, edit.2.Ordered) → ∀ value ∈ edited edits target, value.Ordered := by
  refine ⟨fun edits edits' target h hperm => ?_,
    fun path path' value value' target h => setProperty_over h value value' target,
    fun edits target => edited_ordered⟩
  have hsame := edited_perm h hperm target
  refine ⟨hsame.symm, fun value hvalue => ?_⟩
  obtain ⟨st, hst⟩ := stringify_gives value
  refine ⟨_, st, hst, fun value' hvalue' => ?_⟩
  rw [← hsame] at hvalue'
  exact Option.mem_unique hvalue hvalue' ▸ hst

/-- Two edits below a key under which an array stands: the first one to come replaces it. -/
theorem siblings_edited :
    let edits := [(["x", "y"], bool true), (["x", "z"], null)]
    let target := some (object [("x", array [])])
    edits.Pairwise (fun a b => Apart a.1 b.1) ∧ edited edits.reverse target = edited edits target ∧
      edited edits target = some (object [("x", object [("y", bool true), ("z", null)])]) ∧
      setProperty null ["x"] (some (setProperty (bool true) ["x", "y"] target)) =
        setProperty null ["x"] target ∧
      (∀ t ∈ target, t.Ordered) ∧ ∀ value ∈ edited edits target, value.Ordered := by
  intro edits target
  have hapart : edits.Pairwise fun a b => Apart a.1 b.1 := by
    simp [edits, Apart, List.cons_prefix_cons]
  have horder := (edits_lawful.1 edits edits.reverse target hapart edits.reverse_perm.symm).1
  have htarget : ∀ t ∈ target, t.Ordered := by
    intro t ht
    obtain rfl : object [("x", array [])] = t := Option.some.inj ht
    have hinner : Ordered (array []) := .array (by simp)
    exact .object (List.pairwise_singleton _ _) (by simpa using hinner)
  refine ⟨hapart, horder, ?_, ?_, htarget, ?_⟩
  · rfl
  · exact edits_lawful.2.1 ["x"] ["x", "y"] null (bool true) target (by simp)
  · exact edits_lawful.2.2 edits target htarget (by simp [edits, Ordered.bool, Ordered.null])

end Json
end MemoSequence
