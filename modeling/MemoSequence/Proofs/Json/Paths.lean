import MemoSequence.Json.Value
import MemoSequence.Proofs.Json.Objects
set_option autoImplicit false

namespace MemoSequence
namespace Members
variable {α : Type*} {members : List (String × α)} {key : String} {value : α}

theorem find?_insert (key' : String) :
    find? key' (insert key value members) = if key' = key then some value else find? key' members := by
  induction members with
  | nil => simp [insert, find?, eq_comm]
  | cons m rest ih =>
    obtain ⟨k, v⟩ := m
    by_cases hlt : key < k
    · simp [insert, find?, hlt, eq_comm]
    · by_cases hk : k = key
      · subst hk
        by_cases hkey : key' = k <;> simp [insert, find?, hkey, Ne.symm]
      · rw [insert, if_neg hlt, if_neg hk, find?, ih, find?]
        by_cases hkey : k = key'
        · simp [hkey, hkey ▸ hk]
        · simp [hkey]

theorem mem_keys_iff : key ∈ members.map Prod.fst ↔ find? key members ≠ none := by
  rw [Ne, find?_eq_none]
  simp

theorem mem_keys_insert (key' : String) :
    key' ∈ (insert key value members).map Prod.fst ↔ key' = key ∨ key' ∈ members.map Prod.fst := by
  rw [mem_keys_iff, mem_keys_iff, find?_insert]
  by_cases hkey : key' = key <;> simp [hkey]

theorem mem_insert {m : String × α} (h : m ∈ insert key value members) : m = (key, value) ∨ m ∈ members := by
  induction members with
  | nil => exact .inl (List.mem_singleton.1 h)
  | cons first rest ih =>
    obtain ⟨k, v⟩ := first
    rw [insert] at h
    split_ifs at h with hlt hk
    · exact List.mem_cons.1 h
    · exact (List.mem_cons.1 h).imp_right (List.mem_cons_of_mem _)
    · obtain hfirst | hrest := List.mem_cons.1 h
      · exact .inr (hfirst ▸ List.mem_cons_self)
      · exact (ih hrest).imp_right (List.mem_cons_of_mem _)

theorem Ordered.insert (h : Ordered members) : Ordered (insert key value members) := by
  induction members with
  | nil => exact List.pairwise_singleton _ _
  | cons first rest ih =>
    obtain ⟨k, v⟩ := first
    obtain ⟨hfirst, hrest⟩ := List.pairwise_cons.1 h
    rw [Members.insert]
    split_ifs with hlt hk
    · refine List.pairwise_cons.2 ⟨fun m hm => ?_, h⟩
      obtain rfl | hm := List.mem_cons.1 hm
      · exact hlt
      · exact hlt.trans (hfirst m hm)
    · exact List.pairwise_cons.2 ⟨fun m hm => hk ▸ hfirst m hm, hrest⟩
    · refine List.pairwise_cons.2 ⟨fun m hm => ?_, ih hrest⟩
      obtain rfl | hm := mem_insert hm
      · exact lt_of_le_of_ne (not_lt.1 hlt) hk
      · exact hfirst m hm

theorem Ordered.insert_eq (h : Ordered members) (hfind : find? key members = some value) :
    Members.insert key value members = members := by
  refine Ordered.ext h.insert h fun key' => ?_
  rw [find?_insert]
  split_ifs with hkey
  · rw [hkey, hfind]
  · rfl

theorem mem_of_find? (h : find? key members = some value) : (key, value) ∈ members := by
  induction members with
  | nil => simp [find?] at h
  | cons first rest ih =>
    obtain ⟨k, v⟩ := first
    rw [find?] at h
    split_ifs at h with hk
    · rw [← hk, Option.some.inj h]
      exact List.mem_cons_self
    · exact List.mem_cons_of_mem _ (ih h)

end Members

namespace Json
open Members (find? insert)

/-- The members of every object in the value stand in the order of their keys, each key once. -/
inductive Ordered : Json → Prop
  | null : Ordered .null
  | bool (b : Bool) : Ordered (.bool b)
  | number (n : Number) : Ordered (.number n)
  | text (s : String) : Ordered (.text s)
  | array {items : List Json} (hitems : ∀ item ∈ items, Ordered item) : Ordered (.array items)
  | object {members : List (String × Json)} (hkeys : Members.Ordered members)
      (hmembers : ∀ member ∈ members, Ordered member.2) : Ordered (.object members)

section Target
variable {target : Option Json}

theorem bind_get?_cons (key : String) (path : List String) :
    target.bind (get? (key :: path)) = (find? key (membersOf target)).bind (get? path) := by
  obtain _ | value := target
  · rfl
  · cases value <;> rfl

theorem bind_get?_nil : target.bind (get? []) = target := by
  cases target <;> rfl

theorem ordered_membersOf (h : ∀ t ∈ target, t.Ordered) :
    Members.Ordered (membersOf target) ∧ ∀ member ∈ membersOf target, member.2.Ordered := by
  obtain _ | value := target
  · exact ⟨List.Pairwise.nil, by simp [membersOf]⟩
  · cases h value rfl with
    | object hkeys hmembers => exact ⟨hkeys, hmembers⟩
    | null | bool | number | text | array => exact ⟨List.Pairwise.nil, by simp [membersOf]⟩

theorem ordered_find? {key : String} (h : ∀ t ∈ target, t.Ordered) :
    ∀ t ∈ find? key (membersOf target), t.Ordered :=
  fun _ ht => (ordered_membersOf h).2 _ (Members.mem_of_find? ht)

end Target

section Update
variable {value : Json}

theorem setProperty_ordered {path : List String} {target : Option Json} (hvalue : value.Ordered)
    (htarget : ∀ t ∈ target, t.Ordered) : (setProperty value path target).Ordered := by
  induction path generalizing target with
  | nil => exact hvalue
  | cons key path ih =>
    obtain ⟨hkeys, hmembers⟩ := ordered_membersOf htarget
    refine .object hkeys.insert fun member hmember => ?_
    obtain rfl | hmember := Members.mem_insert hmember
    · exact ih (ordered_find? htarget)
    · exact hmembers member hmember

theorem get?_cons_setProperty (key key' : String) (path path' : List String) (target : Option Json) :
    get? (key' :: path') (setProperty value (key :: path) target) =
      if key' = key then get? path' (setProperty value path (find? key (membersOf target)))
      else target.bind (get? (key' :: path')) := by
  rw [setProperty, get?, Members.find?_insert, bind_get?_cons]
  split_ifs <;> rfl

theorem get?_setProperty (path : List String) (target : Option Json) :
    get? path (setProperty value path target) = some value := by
  induction path generalizing target with
  | nil => rfl
  | cons key path ih => rw [get?_cons_setProperty, if_pos rfl, ih]

theorem get?_setProperty_apart {path path' : List String} (target : Option Json)
    (hbefore : ¬ path' <+: path) (hbeyond : ¬ path <+: path') :
    get? path' (setProperty value path target) = target.bind (get? path') := by
  induction path generalizing path' target with
  | nil => exact absurd List.nil_prefix hbeyond
  | cons key path ih =>
    obtain _ | ⟨key', path'⟩ := path'
    · exact absurd List.nil_prefix hbefore
    rw [get?_cons_setProperty]
    split_ifs with hkey
    · subst hkey
      rw [List.prefix_cons_inj] at hbefore hbeyond
      rw [ih _ hbefore hbeyond, bind_get?_cons]
    · rfl

theorem get?_setProperty_before (before : List String) (key : String) (rest : List String)
    (target : Option Json) :
    ∃ members, get? before (setProperty value (before ++ key :: rest) target) = some (.object members) ∧
      ∀ key', key' ∈ members.map Prod.fst ↔
        key' = key ∨ key' ∈ (membersOf (target.bind (get? before))).map Prod.fst := by
  induction before generalizing target with
  | nil => exact ⟨_, rfl, fun key' => by rw [bind_get?_nil, Members.mem_keys_insert]⟩
  | cons first before ih =>
    rw [List.cons_append, get?_cons_setProperty, if_pos rfl, bind_get?_cons]
    exact ih _

theorem setProperty_present {path : List String} {target : Option Json} (htarget : ∀ t ∈ target, t.Ordered)
    (hfound : target.bind (get? path) = some value) : some (setProperty value path target) = target := by
  induction path generalizing target with
  | nil => rw [bind_get?_nil] at hfound; rw [hfound, setProperty]
  | cons key path ih =>
    rw [bind_get?_cons] at hfound
    have hinner := ih (ordered_find? htarget) hfound
    obtain ⟨members, rfl⟩ : ∃ members, target = some (.object members) := by
      obtain _ | t := target
      · simp [membersOf, find?] at hfound
      · cases t <;> simp_all [membersOf, find?]
    have hkeys : Members.Ordered members := (ordered_membersOf htarget).1
    rw [setProperty]
    exact congrArg (some ∘ object) (hkeys.insert_eq hinner.symm)

end Update

/-- The laws of an update: the value is found where it was put, everything aside stays, the objects on the
way gain the next key only, and nothing changes if the value stood there before. -/
theorem setProperty_lawful (value : Json) (path : List String) (target : Option Json) :
    get? path (setProperty value path target) = some value ∧
      (∀ path', ¬ path' <+: path → ¬ path <+: path' →
        get? path' (setProperty value path target) = target.bind (get? path')) ∧
      (∀ before key rest, path = before ++ key :: rest →
        ∃ members, get? before (setProperty value path target) = some (.object members) ∧
          ∀ key', key' ∈ members.map Prod.fst ↔
            key' = key ∨ key' ∈ (membersOf (target.bind (get? before))).map Prod.fst) ∧
      ((∀ t ∈ target, t.Ordered) → target.bind (get? path) = some value →
        some (setProperty value path target) = target) := by
  refine ⟨get?_setProperty path target, fun _ => get?_setProperty_apart target, ?_,
    setProperty_present⟩
  rintro before key rest rfl
  exact get?_setProperty_before before key rest target

theorem setProperty_keeps_sibling :
    let target := object [("x", object [("keep", bool true), ("y", number (.integer 0))])]
    let updated := setProperty (number (.integer 1)) ["x", "y"] (some target)
    target.Ordered ∧ get? ["x", "keep"] updated = some (bool true) ∧
      setProperty (bool true) ["x", "keep"] (some target) = target := by
  intro target updated
  have hinner : Ordered (object [("keep", bool true), ("y", number (.integer 0))]) :=
    .object (List.pairwise_pair.2 (by decide))
      (by simpa using ⟨Ordered.bool true, Ordered.number (.integer 0)⟩)
  have htarget : target.Ordered :=
    .object (List.pairwise_singleton _ _) (by simpa using hinner)
  obtain ⟨-, haside, -, -⟩ := setProperty_lawful (number (.integer 1)) ["x", "y"] (some target)
  obtain ⟨-, -, -, hpresent⟩ := setProperty_lawful (bool true) ["x", "keep"] (some target)
  refine ⟨htarget, haside ["x", "keep"] (by decide) (by decide), ?_⟩
  exact Option.some.inj (hpresent (by simpa using htarget) rfl)

end Json

end MemoSequence
