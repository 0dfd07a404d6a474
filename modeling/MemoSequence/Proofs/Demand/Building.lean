import MemoSequence.Proofs.Demand.Footprints
set_option autoImplicit false

namespace MemoSequence

variable {ι : Type} [Basis ι] {a k : Kind ι}

namespace Store
variable {st st' st₁ st₂ : Store ι} {l l₁ : List Note} {ids ids₁ : List ℕ} {A B : List (Part (El k))}
  {F G : Feed k}

/-- A run from `st` with the footprint `ids` and the notes `l` has come to `st'`, where the parts `A` hold
the feed. -/
def Offers (st : Store ι) (ids : List ℕ) (l : List Note) (st' : Store ι) (A : List (Part (El k)))
    (F : Feed k) : Prop :=
  ∃ ids', st'.Holds A F ids' ∧ st.Inherits ids ids' ∧ st.Moves ids l st'

theorem Holds.offers (h : st.Holds A F ids) (hnodup : ids.Nodup) : st.Offers ids [] st A F :=
  ⟨ids, h, .refl hnodup, .refl st ids⟩

theorem Offers.from (h : st₁.Offers ids₁ l₁ st₂ A F) (hids : st.Inherits ids ids₁)
    (hst : st.Moves ids l st₁) : st.Offers ids (l ++ l₁) st₂ A F := by
  obtain ⟨ids', hholds, hinherits, hmoves⟩ := h
  exact ⟨ids', hholds, hids.trans hst.size hinherits, hst.trans hmoves hids.from_or_new⟩

theorem Holds.after (h : st.Holds A F ids) (hnodup : ids.Nodup) (hst : st.Moves [] l st') :
    st.Offers ids l st' A F :=
  ⟨ids, h.spared hst (List.disjoint_nil_right ids), .refl hnodup, hst.mono (List.nil_subset ids)⟩

theorem offers_nil (h : st.Moves ids l st') : st.Offers ids l st' ([] : List (Part (El k))) .nil :=
  ⟨[], .nil, st.inherits_nil ids, h⟩

theorem Offers.beside {b c : Kind ι} {B : List (Part (El b))} {G : Feed b} {C : List (Part (El c))}
    {H : Feed c} (h : st.Offers ids l st' A F) (hB : st.Holds B G ids₁) (hnodup : ids₁.Nodup)
    (hdisjoint : ids.Disjoint ids₁)
    (hboth : ∀ ids', st'.Holds A F ids' → st'.Holds B G ids₁ →
      ∃ ids₂, st'.Holds C H ids₂ ∧ ids₂.Perm (ids' ++ ids₁)) :
    st.Offers (ids ++ ids₁) l st' C H := by
  obtain ⟨ids', hholds, hinherits, hmoves⟩ := h
  obtain ⟨ids₂, hC, hperm⟩ := hboth ids' hholds (hB.spared hmoves hdisjoint.symm)
  exact ⟨ids₂, hC, (hinherits.beside hB.lt_size hdisjoint hnodup).perm hperm,
    hmoves.mono (List.subset_append_left ids ids₁)⟩

theorem Offers.append (h : st.Offers ids l st' A F) (hB : st.Holds B G ids₁) (hnodup : ids₁.Nodup)
    (hdisjoint : ids.Disjoint ids₁) : st.Offers (ids ++ ids₁) l st' (A ++ B) (F.append G) :=
  h.beside hB hnodup hdisjoint fun _ hA hB => ⟨_, hA.append hB, .refl _⟩

theorem Offers.prepend (h : st.Offers ids l st' B G) (hA : st.Holds A F ids₁) (hnodup : ids₁.Nodup)
    (hdisjoint : ids.Disjoint ids₁) : st.Offers (ids₁ ++ ids) l st' (A ++ B) (F.append G) := by
  obtain ⟨ids', hholds, hinherits, hmoves⟩ :=
    h.beside hA hnodup hdisjoint fun _ hB hA => ⟨_, hA.append hB, List.perm_append_comm⟩
  refine ⟨ids', hholds, ⟨hinherits.nodup, fun c hc => ?_⟩,
    hmoves.mono List.perm_append_comm.subset⟩
  exact (hinherits.from_or_new c hc).imp_left fun hc => List.perm_append_comm.mem_iff.1 hc

theorem Offers.here (h : st.Offers ids l st' A F) (x : El k) :
    st.Offers ids l st' (.item x :: A) (.item (.here x) F) :=
  h.imp fun _ h => ⟨.here x h.1, h.2⟩

theorem Offers.anything (h : st.Offers ids l st' A F) (x : El k) :
    st.Offers ids l st' (.item x :: A) (.item .anything F) :=
  h.imp fun _ h => ⟨.anything x h.1, h.2⟩

theorem Offers.mono (h : st.Offers ids l st' A F) (hids : ids ⊆ ids₁) : st.Offers ids₁ l st' A F := by
  obtain ⟨ids', hholds, hinherits, hmoves⟩ := h
  exact ⟨ids', hholds, ⟨hinherits.nodup, fun c hc => (hinherits.from_or_new c hc).imp_left fun hm => hids hm⟩,
    hmoves.mono hids⟩

section Alloc
variable {t : Sequence a} {I : Feed a}

theorem Offers.alloc (h : st.Offers ids l st₁ t.parts I) (p : Plan k) (F : Feed k)
    (hp : ∀ {st' : Store ι} {c : ℕ} {inner : List ℕ}, st'.cells[c]? = some ⟨k, p, .unforced⟩ →
      st'.Holds t.parts I inner → st'.Holds [.cell c] F (c :: (inner ++ []))) :
    st.Offers ids l (st₁.alloc p).2 [.cell st₁.cells.size] F := by
  obtain ⟨ids', hholds, hinherits, hmoves⟩ := h
  have hcell : (st₁.alloc p).2.cells[st₁.cells.size]? = some ⟨k, p, .unforced⟩ := by
    rw [Store.alloc, Array.getElem?_push_size]
  have halloc := moves_alloc st₁ p
  have hheld := hp hcell (hholds.spared halloc (List.disjoint_nil_right ids'))
  refine ⟨_, hheld, ⟨?_, ?_⟩, ?_⟩
  · rw [List.append_nil]
    exact List.nodup_cons.2 ⟨fun hc => (hholds.lt_size _ hc).ne rfl, hinherits.nodup⟩
  · rw [List.append_nil]
    exact List.forall_mem_cons.2 ⟨.inr hmoves.size, hinherits.from_or_new⟩
  · exact hmoves.alloc p

theorem Offers.alloc_stage (h : st.Offers ids l st₁ t.parts I) (S : Stage a k) :
    st.Offers ids l (st₁.alloc (S.plan t)).2 [.cell st₁.cells.size] (.through S I) :=
  h.alloc (S.plan t) (.through S I) fun hc hinput => .stage hc hinput .nil

end Alloc

/-- The plan stands for the feed, and what is given to it is made of the cells `ids`. -/
inductive Stands (st : Store ι) : {k : Kind ι} → Plan k → Feed k → List ℕ → Prop
  | given {k : Kind ι} {s : Sequence k} {F : Feed k} {ids : List ℕ} (h : st.Holds s.parts F ids) :
      Stands st (.given s) F ids
  | cons {k : Kind ι} {p : Plan k} {F : Feed k} {ids : List ℕ} (x : El k) (h : Stands st p F ids) :
      Stands st (.cons x p) (.item (.here x) F) ids
  | append {k : Kind ι} {p q : Plan k} {F G : Feed k} {ids ids' : List ℕ} (h : Stands st p F ids)
      (h' : Stands st q G ids') : Stands st (.append p q) (F.append G) (ids ++ ids')
  | nothing {k : Kind ι} (p : Plan k) : Stands st (.take p 0) .nil []
  | stage {a k : Kind ι} {p : Plan a} {q : Plan k} {I : Feed a} {ids : List ℕ} (S : Stage a k)
      (hq : ∀ st', q.build st' = (p.build st').2.alloc (S.plan (p.build st').1)) (h : Stands st p I ids) :
      Stands st q (.through S I) ids
  | skip {k : Kind ι} {p : Plan k} {I : Feed k} {ids : List ℕ} (count : ℕ) (h : Stands st p I ids) :
      Stands st (.skip p count) (.skip I count .nil) ids

theorem stands_closed {k : Kind ι} {p : Plan k} (hp : p.Closed) (st : Store ι) : st.Stands p p.feed [] := by
  induction p with
  | given s => exact .given (holds_ofParts hp)
  | cons x p ih => exact .cons x (ih hp)
  | append p q ih ih' => exact .append (ih hp.1) (ih' hp.2)
  | defer note body => exact hp.elim
  | map p f ih => exact .stage (.worker (.map f.apply) (fun call => f.note call.2) ()) (fun _ => rfl) (ih hp)
  | mapPlan p f note ih => exact .stage (.mapPlan f note) (fun _ => rfl) (ih hp)
  | flatten p ih => exact .stage .flatten (fun _ => rfl) (ih hp)
  | take p count ih =>
    cases count with
    | zero => exact .nothing p
    | succ more => exact .stage (.take more) (fun _ => rfl) (ih hp)
  | takeWhile p f ih =>
    exact .stage (.worker (.takeWhile f.apply) (fun call => f.note call.2) ()) (fun _ => rfl) (ih hp)
  | skip p count ih => exact .skip count (ih hp)
  | scan p s f ih => exact .stage (.worker (.scan f.apply) f.note s) (fun _ => rfl) (ih hp)
  | stateScan p s f ih => exact .stage (.worker (.stateScan f.apply) f.note s) (fun _ => rfl) (ih hp)

theorem Stands.lt_size {p : Plan k} (h : st.Stands p F ids) : ∀ c ∈ ids, c < st.cells.size := by
  induction h with
  | given h => exact h.lt_size
  | cons _ _ ih => exact ih
  | append _ _ ih ih' => exact List.forall_mem_append.2 ⟨ih, ih'⟩
  | nothing _ => exact fun c hc => absurd hc List.not_mem_nil
  | stage _ _ _ ih => exact ih
  | skip _ _ ih => exact ih

theorem Stands.build {p : Plan k} (h : st.Stands p F ids) (hst : st.Moves [] l st') (hnodup : ids.Nodup) :
    st'.Offers ids [] (p.build st').2 (p.build st').1.parts F := by
  induction h generalizing l st' with
  | given h => exact (h.spared hst (List.disjoint_nil_right _)).offers hnodup
  | @cons _ p _ _ x _ ih =>
    rw [Plan.build]
    dsimp only
    rw [Node.parts_one]
    exact (ih hst hnodup).here x
  | @append _ p q _ _ ids ids' _ h' ih ih' =>
    obtain ⟨hleft, hright, hapart⟩ := List.nodup_append'.1 hnodup
    obtain ⟨ids₁, hheld, hnew, hbuild⟩ := ih hst hleft
    have hlt : ∀ c ∈ ids', c < st'.cells.size := fun c hc => (h'.lt_size c hc).trans_le hst.size
    have hboth := (ih' (hst.then (moves_build p st')) hright).prepend hheld hnew.nodup
      (hnew.disjoint hlt hapart).symm
    rw [Plan.build]
    dsimp only
    rw [Node.parts_concat]
    exact hboth.from (hnew.beside hlt hapart hright) ((moves_build p st').mono (List.nil_subset _))
  | @nothing j p =>
    have hnone : st'.Offers [] [] (p.build st').2 (.empty : Sequence j).parts (.nil : Feed j) := by
      rw [Node.parts_empty]
      exact offers_nil (moves_build p st')
    exact hnone
  | stage S hq _ ih =>
    rw [hq]
    exact (ih hst hnodup).alloc_stage S
  | skip count _ ih => exact (ih hst hnodup).alloc _ _ fun hc hinput => .skip hc hinput .nil

theorem build_offers {p : Plan k} (hp : p.Closed) (st : Store ι) :
    st.Offers [] [] (p.build st).2 (p.build st).1.parts p.feed :=
  (stands_closed hp st).build (.refl st []) List.nodup_nil

end Store

namespace Val

def Becomes (v : Val a) (f : El a → Plan k) (q : Plan k) : Prop :=
  ∀ (st : Store ι) (x : El a) (ids : List ℕ), st.Holds [.item x] (.item v .nil) ids → ids.Nodup →
    ∃ ids', ids'.Nodup ∧ ids' ⊆ ids ∧ st.Stands (f x) q.feed ids'

theorem becomes_here {f : El a → Plan k} {x : El a} (h : (f x).Closed) : (here x).Becomes f (f x) := by
  intro st y ids hst _
  cases hst with
  | here _ _ => exact ⟨[], List.nodup_nil, List.nil_subset _, Store.stands_closed h st⟩

theorem becomes_each {f : El a → Plan k} {xs : List (El a)} (h : ∀ x ∈ xs, (f x).Closed) :
    List.Forall₂ (Becomes · f ·) (xs.map here) (xs.map f) :=
  List.forall₂_map_left_iff.2 (List.forall₂_map_right_iff.2
    (List.forall₂_same.2 fun x hx => becomes_here (h x hx)))

/-- A sequence that is built may be put into a plan once. -/
theorem becomes_built {j : Kind ι} {C : Plan j → Plan k} (T : Feed j → Feed k)
    (hC : ∀ {st : Store ι} {p : Plan j} {F : Feed j} {ids : List ℕ}, st.Stands p F ids →
      st.Stands (C p) (T F) ids) {p : Plan j} (hp : (C p).feed = T p.feed) :
    (built p).Becomes (fun s => C (.given s)) (C p) := by
  intro st s ids hst hnodup
  cases hst with
  | built hnode hrest =>
    cases hrest
    rw [List.append_nil] at hnodup ⊢
    exact ⟨_, hnodup, List.Subset.refl _, hp ▸ hC (.given hnode)⟩

end Val

end MemoSequence
