import MemoSequence.Proofs.Json.KeyOrder
set_option autoImplicit false

namespace MemoSequence.Members
variable {α : Type*} {members written : List (String × α)} {key : String}

section Finding

theorem find?_eq_none : find? key members = none ↔ ∀ m ∈ members, m.1 ≠ key := by
  induction members with
  | nil => simp [find?]
  | cons m rest ih =>
    obtain ⟨k, v⟩ := m
    by_cases hk : k = key <;> simp [find?, hk, ih]

theorem find?_append (a b : List (String × α)) :
    find? key (a ++ b) = (find? key a).or (find? key b) := by
  induction a with
  | nil => rfl
  | cons m rest ih =>
    obtain ⟨k, v⟩ := m
    by_cases hk : k = key <;> simp [find?, hk, ih]

theorem find?_filter : find? key (members.filter fun m => m.1 = key) = find? key members := by
  induction members with
  | nil => rfl
  | cons m rest ih =>
    obtain ⟨k, v⟩ := m
    by_cases hk : k = key <;> simp [find?, hk, ih]

end Finding

section Ordered

theorem Ordered.find?_rest {k : String} {v : α} (h : Ordered ((k, v) :: members)) (hk : key ≤ k) :
    find? key members = none := by
  refine find?_eq_none.2 fun m hm hkey => ?_
  have hlt : k < m.1 := (List.pairwise_cons.1 h).1 m hm
  exact absurd (hlt.trans_le (hkey.le.trans hk)) (lt_irrefl k)

theorem Ordered.ext {a b : List (String × α)} (ha : Ordered a) (hb : Ordered b)
    (h : ∀ key, find? key a = find? key b) : a = b := by
  induction a generalizing b with
  | nil =>
    cases b with
    | nil => rfl
    | cons m rest => simpa [find?] using h m.1
  | cons m rest ih =>
    obtain ⟨k, v⟩ := m
    cases b with
    | nil => simpa [find?] using h k
    | cons m' rest' =>
      obtain ⟨k', v'⟩ := m'
      have hk := h k
      have hk' := h k'
      obtain hlt | rfl | hgt := lt_trichotomy k k'
      · simp [find?, hlt.ne', hb.find?_rest hlt.le] at hk
      · obtain rfl : v = v' := by simpa [find?] using hk
        have hrest : ∀ key, find? key rest = find? key rest' := by
          intro key
          by_cases hkey : k = key
          · subst hkey
            rw [ha.find?_rest le_rfl, hb.find?_rest le_rfl]
          · simpa [find?, hkey] using h key
        rw [ih (List.pairwise_cons.1 ha).2 (List.pairwise_cons.1 hb).2 hrest]
      · simp [find?, hgt.ne', ha.find?_rest hgt.le] at hk'

end Ordered

section LastOfEach

theorem lastOfEach_sublist : (lastOfEach members).Sublist members := by
  fun_induction lastOfEach members with
  | case1 => exact List.Sublist.refl _
  | case2 member => exact List.Sublist.refl _
  | case3 v k v' rest ih => exact ih.cons _
  | case4 k v k' v' rest hk ih => exact ih.cons_cons _

theorem ordered_lastOfEach (h : members.Pairwise fun a b => a.1 ≤ b.1) :
    Ordered (lastOfEach members) := by
  fun_induction lastOfEach members with
  | case1 => exact List.Pairwise.nil
  | case2 member => exact List.pairwise_singleton _ _
  | case3 v k v' rest ih => exact ih (List.pairwise_cons.1 h).2
  | case4 k v k' v' rest hk ih =>
    obtain ⟨hfirst, htail⟩ := List.pairwise_cons.1 h
    have hlt : k < k' := lt_of_le_of_ne (hfirst (k', v') List.mem_cons_self) hk
    refine List.pairwise_cons.2 ⟨fun m hm => ?_, ih htail⟩
    obtain rfl | hrest := List.mem_cons.1 (lastOfEach_sublist.subset hm)
    · exact hlt
    · exact hlt.trans_le ((List.pairwise_cons.1 htail).1 m hrest)

theorem find?_lastOfEach (h : members.Pairwise fun a b => a.1 ≤ b.1) :
    find? key (lastOfEach members) = find? key members.reverse := by
  fun_induction lastOfEach members with
  | case1 => rfl
  | case2 member => rfl
  | case3 v k v' rest ih =>
    rw [List.reverse_cons, find?_append, ih (List.pairwise_cons.1 h).2]
    by_cases hk : k = key
    · have hsome : find? key ((k, v') :: rest).reverse ≠ none := by
        intro hnone
        exact find?_eq_none.1 hnone (k, v') (by simp) hk
      obtain ⟨x, hx⟩ := Option.ne_none_iff_exists'.1 hsome
      rw [hx, Option.some_or]
    · simp [find?, hk]
  | case4 k v k' v' rest hk ih =>
    obtain ⟨hfirst, htail⟩ := List.pairwise_cons.1 h
    rw [List.reverse_cons, find?_append, ← ih htail]
    by_cases hkey : k = key
    · have hlt : k < k' := lt_of_le_of_ne (hfirst (k', v') List.mem_cons_self) hk
      have hnone : find? key (lastOfEach ((k', v') :: rest)) = none := by
        have hordered := ordered_lastOfEach h
        rw [lastOfEach, if_neg hk] at hordered
        exact hordered.find?_rest hkey.ge
      rw [hnone]
      simp [find?, hkey]
    · simp [find?, hkey]

end LastOfEach

section Written

theorem filter_sort (key : String) (members : List (String × α)) :
    (sort members).filter (fun m => m.1 = key) = members.filter fun m => m.1 = key := by
  have hsame : (members.filter fun m => m.1 = key).Pairwise fun a b => decide (a.1 ≤ b.1) = true := by
    refine List.pairwise_of_forall_mem_list fun a ha b hb => ?_
    have hak : a.1 = key := by simpa using (List.mem_filter.1 ha).2
    have hbk : b.1 = key := by simpa using (List.mem_filter.1 hb).2
    simp [hak, hbk]
  have hsub : (members.filter fun m => m.1 = key).Sublist (sort members) :=
    List.sublist_mergeSort keyLe_trans keyLe_total hsame List.filter_sublist
  have hfiltered := hsub.filter fun m => m.1 = key
  rw [List.filter_filter] at hfiltered
  simp only [Bool.and_self] at hfiltered
  have hlength := ((sort_perm members).filter fun m => m.1 = key).length_eq
  exact (hfiltered.eq_of_length hlength.symm).symm

theorem ordered_ofList (written : List (String × α)) : Ordered (ofList written) :=
  ordered_lastOfEach (sort_pairwise_le written)

theorem mem_of_mem_ofList {m : String × α} {written : List (String × α)} (h : m ∈ ofList written) :
    m ∈ written :=
  (sort_perm written).mem_iff.1 (lastOfEach_sublist.subset h)

/-- Under each key stands the value that was written last. -/
theorem find?_ofList (key : String) (written : List (String × α)) :
    find? key (ofList written) = find? key written.reverse := by
  rw [ofList, find?_lastOfEach (sort_pairwise_le written), ← find?_filter, List.filter_reverse,
    filter_sort, ← List.filter_reverse, find?_filter]

theorem ofList_eq (h : Ordered members) (hfind : ∀ key, find? key members = find? key written.reverse) :
    ofList written = members := by
  refine Ordered.ext (ordered_ofList written) h fun key => ?_
  rw [find?_ofList, hfind]

theorem Ordered.find?_reverse (h : Ordered members) : find? key members.reverse = find? key members := by
  have hle : members.Pairwise fun a b => a.1 ≤ b.1 := h.imp fun hlt => hlt.le
  have hlast : lastOfEach members = members := by
    fun_induction lastOfEach members with
    | case1 => rfl
    | case2 member => rfl
    | case3 v k v' rest ih => exact absurd ((List.pairwise_cons.1 h).1 _ List.mem_cons_self) (lt_irrefl k)
    | case4 k v k' v' rest hk ih =>
      rw [ih (List.pairwise_cons.1 h).2 (List.pairwise_cons.1 hle).2]
  rw [← find?_lastOfEach hle, hlast]

end Written

end MemoSequence.Members
