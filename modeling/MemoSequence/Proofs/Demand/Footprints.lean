import MemoSequence.Proofs.Demand.Feeds
set_option autoImplicit false

/-!
# Footprints

A store holds a feed as a list of parts if each stage of the feed is a cell that waits, with the plan of the
stage, for an input that holds the input of the stage. The cells that are met on the way are the footprint.
As long as the footprint has no cell twice, pulling from one part of a feed leaves the other ones alone: what
a run may touch is its footprint and the cells that it has made itself.
-/
namespace MemoSequence

variable {ι : Type} [Basis ι] {a k : Kind ι}

namespace Store
variable {st st' st₁ st₂ : Store ι} {l l₁ l₂ : List Note} {ids ids₁ ids₂ : List ℕ}

/-- The parts stand for the feed, and `ids` are the cells that they are made of. -/
inductive Holds (st : Store ι) : {k : Kind ι} → List (Part (El k)) → Feed k → List ℕ → Prop
  | nil {k : Kind ι} : Holds st ([] : List (Part (El k))) .nil []
  | here {k : Kind ι} {A : List (Part (El k))} {F : Feed k} {ids : List ℕ} (x : El k)
      (hrest : Holds st A F ids) : Holds st (.item x :: A) (.item (.here x) F) ids
  | built {k : Kind ι} {node : Sequence k} {p : Plan k} {A : List (Part (Sequence k))}
      {F : Feed (.seq k)} {inner ids : List ℕ} (hnode : Holds st node.parts p.feed inner)
      (hrest : @Holds st (.seq k) A F ids) :
      @Holds st (.seq k) (.item node :: A) (.item (.built p) F) (inner ++ ids)
  | anything {k : Kind ι} {A : List (Part (El k))} {F : Feed k} {ids : List ℕ} (x : El k)
      (hrest : Holds st A F ids) : Holds st (.item x :: A) (.item .anything F) ids
  | numbered {k : Kind ι} {A : List (Part (El k))} {F : Feed k} {ids : List ℕ} (index : ℕ)
      (limit : Option ℕ) (source : Source (El k)) (hrest : Holds st A F ids) :
      Holds st (.numbered index limit source :: A) (.numbered index limit source F) ids
  | stage {a k : Kind ι} {S : Stage a k} {t : Sequence a} {I : Feed a} {A : List (Part (El k))} {F : Feed k}
      {c : ℕ} {inner ids : List ℕ} (hc : st.cells[c]? = some ⟨k, S.plan t, .unforced⟩)
      (hinput : Holds st t.parts I inner) (hrest : Holds st A F ids) :
      Holds st (.cell c :: A) (.stage S I F) (c :: (inner ++ ids))
  | skip {k : Kind ι} {t : Sequence k} {I : Feed k} {A : List (Part (El k))} {F : Feed k} {c count : ℕ}
      {inner ids : List ℕ} (hc : st.cells[c]? = some ⟨k, .skip (.given t) count, .unforced⟩)
      (hinput : Holds st t.parts I inner) (hrest : Holds st A F ids) :
      Holds st (.cell c :: A) (.skip I count F) (c :: (inner ++ ids))

theorem Holds.item_first {A : List (Part (El k))} {v : Val k} {F : Feed k} (h : st.Holds A (.item v F) ids) :
    ∃ x B, A = .item x :: B := by
  cases h with
  | here x _ => exact ⟨x, _, rfl⟩
  | built _ _ => exact ⟨_, _, rfl⟩
  | anything x _ => exact ⟨x, _, rfl⟩

theorem Holds.unforced {A : List (Part (El k))} {F : Feed k} (h : st.Holds A F ids) :
    ∀ c ∈ ids, ∃ (kind : Kind ι) (p : Plan kind), st.cells[c]? = some ⟨kind, p, .unforced⟩ := by
  induction h with
  | nil => exact fun c hc => absurd hc List.not_mem_nil
  | here _ _ ih => exact ih
  | built _ _ ih ih' => exact List.forall_mem_append.2 ⟨ih, ih'⟩
  | anything _ _ ih => exact ih
  | numbered _ _ _ _ ih => exact ih
  | stage hc _ _ ih ih' => exact List.forall_mem_cons.2 ⟨⟨_, _, hc⟩, List.forall_mem_append.2 ⟨ih, ih'⟩⟩
  | skip hc _ _ ih ih' => exact List.forall_mem_cons.2 ⟨⟨_, _, hc⟩, List.forall_mem_append.2 ⟨ih, ih'⟩⟩

theorem Holds.lt_size {A : List (Part (El k))} {F : Feed k} (h : st.Holds A F ids) :
    ∀ c ∈ ids, c < st.cells.size := by
  intro c hc
  obtain ⟨kind, p, hcell⟩ := h.unforced c hc
  exact (Array.getElem?_eq_some_iff.1 hcell).1

theorem Holds.not_mem {A : List (Part (El k))} {F : Feed k} (h : st.Holds A F ids) {c : ℕ} {p : Plan a}
    {m : Memo (Sequence a)} (hc : st.cells[c]? = some ⟨a, p, m⟩) (hm : m ≠ .unforced) : c ∉ ids := by
  intro hmem
  obtain ⟨kind, q, hcell⟩ := h.unforced c hmem
  cases hc.symm.trans hcell
  exact hm rfl

theorem Holds.frame {A : List (Part (El k))} {F : Feed k} (h : st.Holds A F ids)
    (hsame : ∀ c ∈ ids, st'.cells[c]? = st.cells[c]?) : st'.Holds A F ids := by
  induction h with
  | nil => exact .nil
  | here x _ ih => exact .here x (ih hsame)
  | built _ _ ih ih' =>
    obtain ⟨hinner, hids⟩ := List.forall_mem_append.1 hsame
    exact .built (ih hinner) (ih' hids)
  | anything x _ ih => exact .anything x (ih hsame)
  | numbered index limit source _ ih => exact .numbered index limit source (ih hsame)
  | stage hc _ _ ih ih' =>
    obtain ⟨hfirst, hmore⟩ := List.forall_mem_cons.1 hsame
    obtain ⟨hinner, hids⟩ := List.forall_mem_append.1 hmore
    exact .stage (hfirst.trans hc) (ih hinner) (ih' hids)
  | skip hc _ _ ih ih' =>
    obtain ⟨hfirst, hmore⟩ := List.forall_mem_cons.1 hsame
    obtain ⟨hinner, hids⟩ := List.forall_mem_append.1 hmore
    exact .skip (hfirst.trans hc) (ih hinner) (ih' hids)

theorem Holds.append {A B : List (Part (El k))} {F G : Feed k} (h : st.Holds A F ids)
    (hB : st.Holds B G ids₁) : st.Holds (A ++ B) (F.append G) (ids ++ ids₁) := by
  induction h with
  | nil => exact hB
  | here x _ ih => exact .here x (ih hB)
  | built hnode _ _ ih =>
    rw [List.append_assoc]
    exact .built hnode (ih hB)
  | anything x _ ih => exact .anything x (ih hB)
  | numbered index limit source _ ih => exact .numbered index limit source (ih hB)
  | stage hc hinput _ _ ih =>
    rw [List.cons_append, List.cons_append, List.append_assoc]
    exact .stage hc hinput (ih hB)
  | skip hc hinput _ _ ih =>
    rw [List.cons_append, List.cons_append, List.append_assoc]
    exact .skip hc hinput (ih hB)

theorem holds_ofParts {A : List (Part (El k))} (h : ∀ id, Part.cell id ∉ A) :
    st.Holds A (.ofParts A) [] := by
  induction A with
  | nil => exact .nil
  | cons part A ih =>
    have hrest := ih fun id hid => h id (List.mem_cons_of_mem _ hid)
    cases part with
    | item x => exact .here x hrest
    | numbered index limit source => exact .numbered index limit source hrest
    | cell id => exact absurd List.mem_cons_self (h id)

/-- A run that touches the cells `ids` and such as it has made itself, and leaves the notes `l`. -/
structure Moves (st : Store ι) (ids : List ℕ) (l : List Note) (st' : Store ι) : Prop where
  keeps : st'.keeps = st.keeps
  size : st.cells.size ≤ st'.cells.size
  spared : ∀ c < st.cells.size, c ∉ ids → st'.cells[c]? = st.cells[c]?
  journal : st'.journal.toList = st.journal.toList ++ l

/-- A footprint made of old cells of the footprint `ids` and of new ones. -/
structure Inherits (st : Store ι) (ids ids' : List ℕ) : Prop where
  nodup : ids'.Nodup
  from_or_new : ∀ c ∈ ids', c ∈ ids ∨ st.cells.size ≤ c

theorem Moves.refl (st : Store ι) (ids : List ℕ) : st.Moves ids [] st :=
  ⟨rfl, le_rfl, fun _ _ _ => rfl, (List.append_nil _).symm⟩

theorem Moves.mono (h : st.Moves ids l st') (hids : ids ⊆ ids₁) : st.Moves ids₁ l st' :=
  ⟨h.keeps, h.size, fun c hc hmem => h.spared c hc fun hm => hmem (hids hm), h.journal⟩

theorem Moves.trans (h : st.Moves ids l st₁) (h' : st₁.Moves ids₁ l₁ st₂)
    (hids : ∀ c ∈ ids₁, c ∈ ids ∨ st.cells.size ≤ c) : st.Moves ids (l ++ l₁) st₂ where
  keeps := h'.keeps.trans h.keeps
  size := h.size.trans h'.size
  spared c hc hmem := by
    have hnew : c ∉ ids₁ := fun hm => (hids c hm).elim hmem fun hle => absurd hc (Nat.not_lt.2 hle)
    exact (h'.spared c (hc.trans_le h.size) hnew).trans (h.spared c hc hmem)
  journal := by rw [h'.journal, h.journal, List.append_assoc]

theorem Inherits.refl (hnodup : ids.Nodup) : st.Inherits ids ids := ⟨hnodup, fun _ => .inl⟩

theorem inherits_nil (st : Store ι) (ids : List ℕ) : st.Inherits ids [] :=
  ⟨List.nodup_nil, fun _ hc => absurd hc List.not_mem_nil⟩

theorem Inherits.trans (h : st.Inherits ids ids₁) (hst : st.cells.size ≤ st₁.cells.size)
    (h' : st₁.Inherits ids₁ ids₂) : st.Inherits ids ids₂ where
  nodup := h'.nodup
  from_or_new c hc := (h'.from_or_new c hc).elim (h.from_or_new c) fun hle => .inr (hst.trans hle)

theorem moves_write (st : Store ι) (note : Option Note) : st.Moves [] note.toList (st.write note) := by
  cases note with
  | none => exact .refl st []
  | some n => exact ⟨rfl, le_rfl, fun _ _ _ => rfl, Array.toList_push⟩

theorem moves_setMemo {c : ℕ} (hc : c < st.cells.size) (p : Plan k) (m : Memo (Sequence k)) :
    st.Moves [c] [] (st.setMemo c p m) where
  keeps := keeps_setMemo ..
  size := (size_setMemo ..).ge
  spared d _ hd := by
    rw [getElem?_setMemo hc, if_neg]
    rintro ⟨-, rfl⟩
    exact hd (List.mem_singleton_self _)
  journal := by
    unfold setMemo
    split <;> exact (List.append_nil _).symm

theorem moves_alloc (st : Store ι) (p : Plan k) : st.Moves [] [] (st.alloc p).2 where
  keeps := rfl
  size := by simp [alloc]
  spared c hc _ := by
    rw [alloc, Array.getElem?_push, if_neg hc.ne]
  journal := (List.append_nil _).symm

theorem Moves.then (h : st.Moves ids l st₁) (h' : st₁.Moves [] l₁ st₂) : st.Moves ids (l ++ l₁) st₂ :=
  h.trans h' fun _ hc => absurd hc List.not_mem_nil

theorem Moves.alloc (h : st.Moves ids l st₁) (p : Plan k) : st.Moves ids l (st₁.alloc p).2 := by
  have hboth := h.then (moves_alloc st₁ p)
  rwa [List.append_nil] at hboth

theorem moves_build (p : Plan k) (st : Store ι) : st.Moves [] [] (p.build st).2 := by
  induction p generalizing st with
  | given s => exact .refl st []
  | cons x p ih => exact ih st
  | append p q ih ih' => exact (ih st).then (ih' _)
  | defer note body _ => exact moves_alloc st _
  | map p f ih => exact (ih st).alloc _
  | mapPlan p f note ih _ => exact (ih st).alloc _
  | flatten p ih => exact (ih st).alloc _
  | take p count ih =>
    cases count with
    | zero => exact ih st
    | succ more => exact (ih st).alloc _
  | takeWhile p f ih => exact (ih st).alloc _
  | skip p count ih => exact (ih st).alloc _
  | scan p s f ih => exact (ih st).alloc _
  | stateScan p s f ih => exact (ih st).alloc _

/-- What is held outside the footprint of a run is held afterwards. -/
theorem Holds.spared {A : List (Part (El k))} {F : Feed k} (h : st.Holds A F ids)
    (hst : st.Moves ids₁ l st') (hdisjoint : ids.Disjoint ids₁) : st'.Holds A F ids :=
  h.frame fun c hc => hst.spared c (h.lt_size c hc) (hdisjoint hc)

section Beside
variable (h : st.Inherits ids ids₁) (hlt : ∀ c ∈ ids₂, c < st.cells.size)
  (hdisjoint : ids.Disjoint ids₂)
include h hlt hdisjoint

theorem Inherits.disjoint : ids₁.Disjoint ids₂ := fun c hc hc₂ =>
  (h.from_or_new c hc).elim (fun hm => hdisjoint hm hc₂) fun hle => absurd (hlt c hc₂) (Nat.not_lt.2 hle)

theorem Inherits.beside (hnodup : ids₂.Nodup) : st.Inherits (ids ++ ids₂) (ids₁ ++ ids₂) where
  nodup := List.nodup_append'.2 ⟨h.nodup, hnodup, h.disjoint hlt hdisjoint⟩
  from_or_new c hc := by
    obtain hc | hc := List.mem_append.1 hc
    · exact (h.from_or_new c hc).imp_left (List.mem_append_left ids₂)
    · exact .inl (List.mem_append_right ids hc)

end Beside

theorem Inherits.sublist (h : st.Inherits ids ids₁) (hsub : ids₂.Sublist ids₁) : st.Inherits ids ids₂ :=
  ⟨h.nodup.sublist hsub, fun c hc => h.from_or_new c (hsub.subset hc)⟩

theorem Inherits.perm (h : st.Inherits ids ids₁) (hperm : ids₂.Perm ids₁) : st.Inherits ids ids₂ where
  nodup := hperm.nodup_iff.2 h.nodup
  from_or_new c hc := h.from_or_new c (hperm.mem_iff.1 hc)

end Store

end MemoSequence
