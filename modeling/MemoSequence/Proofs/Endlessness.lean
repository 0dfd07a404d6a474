import MemoSequence.Proofs.Elements
import MemoSequence.Unbounded
set_option autoImplicit false

namespace MemoSequence

variable {ι : Type} [Basis ι] {k : Kind ι}

namespace Store
variable {st : Store ι}

/-- A source without limit can be reached, through kept results. -/
inductive Endless (st : Store ι) : Sequence k → Prop
  | source {index : Nat} {source : Source (El k)} : Endless st (.generated index none source)
  | tail {head : El k} {tail : Sequence k} (h : Endless st tail) : Endless st (.one head tail)
  | part {parts : Segments (Sequence k)} {s : Sequence k} (hs : s ∈ parts.contents)
      (h : Endless st s) : Endless st (.composite parts)
  | value {id : Nat} {v : Sequence k} (hv : st.peek? k id = some v) (h : Endless st v) :
      Endless st (.lazy id)

/-- No source without limit is in the node, and its deferred parts are among `cells`. -/
inductive Within (cells : Nat → Prop) : Sequence k → Prop
  | empty : Within cells .empty
  | one {head : El k} {tail : Sequence k} (h : Within cells tail) : Within cells (.one head tail)
  | composite {parts : Segments (Sequence k)} (h : ∀ s ∈ parts.contents, Within cells s) :
      Within cells (.composite parts)
  | generated {index limit : Nat} {source : Source (El k)} :
      Within cells (.generated index (some limit) source)
  | lazy {id : Nat} (h : cells id) : Within cells (.lazy id)

theorem Within.mono {cells cells' : Nat → Prop} (hc : ∀ id, cells id → cells' id) {s : Sequence k}
    (h : Within cells s) : Within cells' s := by
  induction h with
  | empty => exact .empty
  | one _ ih => exact .one ih
  | composite _ ih => exact .composite ih
  | generated => exact .generated
  | lazy h => exact .lazy (hc _ h)

theorem Within.not_endless {cells : Nat → Prop}
    (hclosed : ∀ id, cells id → ∀ v, st.peek? k id = some v → Within cells v) {s : Sequence k}
    (h : Within cells s) : ¬ st.Endless s := by
  intro he
  induction he with
  | source => cases h
  | tail _ ih =>
    cases h with
    | one h => exact ih h
  | part hs _ ih =>
    cases h with
    | composite h => exact ih (h _ hs)
  | value hv _ ih =>
    cases h with
    | lazy h => exact ih (hclosed _ h _ hv)

theorem endless_of_reachesEndless {visited : Std.HashSet Nat} {pending : List (Sequence k)}
    (h : st.reachesEndless visited pending = true) : ∃ s ∈ pending, st.Endless s := by
  fun_induction reachesEndless st visited pending with
  | case1 => cases h
  | case2 visited rest ih =>
    obtain ⟨s, hs, he⟩ := ih h
    exact ⟨s, List.mem_cons_of_mem _ hs, he⟩
  | case3 visited head tail rest ih =>
    obtain ⟨s, hs, he⟩ := ih h
    obtain rfl | hs := List.mem_cons.1 hs
    · exact ⟨_, List.mem_cons_self, .tail he⟩
    · exact ⟨s, List.mem_cons_of_mem _ hs, he⟩
  | case4 visited parts rest ih =>
    obtain ⟨s, hs, he⟩ := ih h
    obtain hs | hs := List.mem_append.1 hs
    · exact ⟨_, List.mem_cons_self, .part (parts.members_perm.mem_iff.1 hs) he⟩
    · exact ⟨s, List.mem_cons_of_mem _ hs, he⟩
  | case5 visited index source rest => exact ⟨_, List.mem_cons_self, .source⟩
  | case6 visited index limit source rest ih =>
    obtain ⟨s, hs, he⟩ := ih h
    exact ⟨s, List.mem_cons_of_mem _ hs, he⟩
  | case7 visited id rest hv ih =>
    obtain ⟨s, hs, he⟩ := ih h
    exact ⟨s, List.mem_cons_of_mem _ hs, he⟩
  | case8 visited id rest hv value hp ih =>
    obtain ⟨s, hs, he⟩ := ih h
    obtain rfl | hs := List.mem_cons.1 hs
    · exact ⟨_, List.mem_cons_self, .value hp he⟩
    · exact ⟨s, List.mem_cons_of_mem _ hs, he⟩
  | case9 visited id rest hv hp ih =>
    obtain ⟨s, hs, he⟩ := ih h
    exact ⟨s, List.mem_cons_of_mem _ hs, he⟩

/-- The cells that a search without success has looked into, in the end: they hold all that was pending,
and what a newly visited cell holds stays within them. -/
theorem within_of_not_reachesEndless {visited : Std.HashSet Nat} {pending : List (Sequence k)}
    (h : st.reachesEndless visited pending = false) :
    ∃ cells : Nat → Prop, (∀ id, visited.contains id = true → cells id) ∧
      (∀ s ∈ pending, Within cells s) ∧
      ∀ id, cells id → visited.contains id = true ∨
        ∀ v, st.peek? k id = some v → Within cells v := by
  fun_induction reachesEndless st visited pending with
  | case1 visited => exact ⟨fun id => visited.contains id = true, fun _ => id, by simp, fun _ => .inl⟩
  | case2 visited rest ih =>
    obtain ⟨cells, hv, hp, hc⟩ := ih h
    exact ⟨cells, hv, List.forall_mem_cons.2 ⟨.empty, hp⟩, hc⟩
  | case3 visited head tail rest ih =>
    obtain ⟨cells, hv, hp, hc⟩ := ih h
    obtain ⟨ht, hp⟩ := List.forall_mem_cons.1 hp
    exact ⟨cells, hv, List.forall_mem_cons.2 ⟨.one ht, hp⟩, hc⟩
  | case4 visited parts rest ih =>
    obtain ⟨cells, hv, hp, hc⟩ := ih h
    obtain ⟨hm, hp⟩ := List.forall_mem_append.1 hp
    have hparts : Within cells (.composite parts) :=
      .composite fun s hs => hm s (parts.members_perm.mem_iff.2 hs)
    exact ⟨cells, hv, List.forall_mem_cons.2 ⟨hparts, hp⟩, hc⟩
  | case5 visited index source rest => cases h
  | case6 visited index limit source rest ih =>
    obtain ⟨cells, hv, hp, hc⟩ := ih h
    exact ⟨cells, hv, List.forall_mem_cons.2 ⟨.generated, hp⟩, hc⟩
  | case7 visited id rest hid ih =>
    obtain ⟨cells, hv, hp, hc⟩ := ih h
    exact ⟨cells, hv, List.forall_mem_cons.2 ⟨.lazy (hv id hid), hp⟩, hc⟩
  | case8 visited id rest hid value hpeek ih =>
    obtain ⟨cells, hv, hp, hc⟩ := ih h
    obtain ⟨hvalue, hp⟩ := List.forall_mem_cons.1 hp
    have hin : ∀ j, visited.contains j = true → cells j := by
      intro j hj
      exact hv j (by simp [Std.HashSet.contains_insert, hj])
    have hself : cells id := hv id (by simp)
    refine ⟨cells, hin, List.forall_mem_cons.2 ⟨.lazy hself, hp⟩, fun j hj => ?_⟩
    obtain hj | hj := hc j hj
    · rw [Std.HashSet.contains_insert, Bool.or_eq_true, beq_iff_eq] at hj
      obtain rfl | hj := hj
      · right
        intro v hv
        rw [hpeek] at hv
        exact Option.some.inj hv ▸ hvalue
      · exact .inl hj
    · exact .inr hj
  | case9 visited id rest hid hpeek ih =>
    obtain ⟨cells, hv, hp, hc⟩ := ih h
    have hmono : ∀ j, cells j → cells j ∨ j = id := fun j => .inl
    refine ⟨fun j => cells j ∨ j = id, fun j hj => .inl (hv j hj), ?_, fun j hj => ?_⟩
    · exact List.forall_mem_cons.2 ⟨.lazy (.inr rfl), fun s hs => (hp s hs).mono hmono⟩
    · obtain hj | rfl := hj
      · exact (hc j hj).imp_right fun hj v hv => (hj v hv).mono hmono
      · right
        intro v hv
        rw [hpeek] at hv
        cases hv

theorem isUnbounded_iff (s : Sequence k) : st.isUnbounded s = true ↔ st.Endless s := by
  constructor
  · intro h
    obtain ⟨s', hs, he⟩ := endless_of_reachesEndless h
    rwa [List.mem_singleton.1 hs] at he
  · intro he
    by_contra h
    obtain ⟨cells, -, hp, hc⟩ := within_of_not_reachesEndless (Bool.eq_false_iff.2 h)
    refine Within.not_endless (fun id hid => ?_) (hp s (List.mem_singleton_self s)) he
    exact (hc id hid).resolve_left (by simp)

theorem endless_composite {parts : Segments (Sequence k)} :
    st.Endless (.composite parts) ↔ ∃ s ∈ parts.contents, st.Endless s := by
  constructor
  · intro h
    cases h with
    | part hs h => exact ⟨_, hs, h⟩
  · rintro ⟨s, hs, h⟩
    exact .part hs h

theorem not_endless_empty : ¬ st.Endless (.empty : Sequence k) := nofun

theorem endless_concat (a b : Sequence k) :
    st.Endless (Node.concat a b) ↔ st.Endless a ∨ st.Endless b := by
  by_cases ea : a = .empty
  · rw [ea, Node.empty_concat, or_iff_right not_endless_empty]
  by_cases eb : b = .empty
  · rw [eb, Node.concat_empty, or_iff_left not_endless_empty]
  obtain ⟨parts, hp, hc⟩ := Node.concat_eq_composite ea eb
  rw [hp, endless_composite]
  obtain hc | ⟨front, rfl, hc⟩ | ⟨back, rfl, hc⟩ := hc
  · simp [hc]
  · simp only [hc, List.mem_append, List.mem_singleton, or_and_right, exists_or, exists_eq_left,
      endless_composite]
  · simp only [hc, List.mem_cons, or_and_right, exists_or, exists_eq_left, endless_composite]

end Store

end MemoSequence
