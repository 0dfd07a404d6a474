import MemoSequence.Proofs.Demand.Pulling
set_option autoImplicit false

namespace MemoSequence

variable {ι : Type} [Basis ι] {a k : Kind ι}

def Stage.resume {a k : Kind ι} : Stage a k → Option (El a × Sequence a) → Run ι (Sequence k)
  | .worker W note state, answer => W.resume note state answer
  | .mapPlan _ _, none => return .empty
  | .mapPlan f note, some (x, tail) => do
    Run.write (note x)
    let inner ← Run.build (f x)
    Run.build (.cons inner (.mapPlan (.given tail) f note))
  | .flatten, none => return .empty
  | .flatten, some (inner, rest) => Run.build (.append (.given inner) (.flatten (.given rest)))
  | .take _, none => return .empty
  | .take more, some (x, tail) => Run.build (.cons x (.take (.given tail) more))

theorem Stage.unfold_plan {a k : Kind ι} (S : Stage a k) (t : Sequence a) (next : Extraction ι) :
    (S.plan t).unfold next = next a t >>= S.resume := by
  cases S with
  | worker W note state => exact W.unfold note t state next
  | mapPlan f note =>
    refine congrArg (next a t >>= ·) (funext fun answer => ?_)
    rcases answer with _ | ⟨x, tail⟩ <;> rfl
  | flatten =>
    refine congrArg (next _ t >>= ·) (funext fun answer => ?_)
    rcases answer with _ | ⟨x, tail⟩ <;> rfl
  | take more =>
    refine congrArg (next _ t >>= ·) (funext fun answer => ?_)
    rcases answer with _ | ⟨x, tail⟩ <;> rfl

def Part.found {k : Kind ι} : Option (El k × Sequence k) → List (Part (El k))
  | none => []
  | some (x, tail) => .item x :: tail.parts

def Feed.found {k : Kind ι} : Option (Val k × Feed k) → Feed k
  | none => .nil
  | some (v, F) => .item v F

namespace Store
variable {st st' : Store ι} {l : List Note} {ids : List ℕ}

theorem Holds.found_none {answer : Option (El k × Sequence k)}
    (h : st.Holds (Part.found answer) (Feed.found none) ids) : answer = none := by
  cases answer with
  | none => rfl
  | some _ => cases h

theorem Holds.found_here {answer : Option (El k × Sequence k)} {x : El k} {F : Feed k}
    (h : st.Holds (Part.found answer) (Feed.found (some (.here x, F))) ids) :
    ∃ tail, answer = some (x, tail) ∧ st.Holds tail.parts F ids := by
  rcases answer with _ | ⟨y, tail⟩
  · cases h
  · cases h with
    | here _ hrest => exact ⟨tail, rfl, hrest⟩

theorem Holds.found_sequence {answer : Option (Sequence k × Sequence (.seq k))} {v : Val (.seq k)}
    {F : Feed (.seq k)} {q : Plan k} (hv : v.Opens q)
    (h : @Holds ι _ st (.seq k) (Part.found answer) (Feed.found (some (v, F))) ids) :
    ∃ node tail inner ids', answer = some (node, tail) ∧ st.Holds node.parts q.feed inner ∧
      @Holds ι _ st (.seq k) tail.parts F ids' ∧ ids = inner ++ ids' := by
  rcases answer with _ | ⟨node, tail⟩
  · cases h
  · cases hv with
    | here hs =>
      cases h with
      | here _ hrest => exact ⟨node, tail, [], ids, rfl, holds_ofParts hs, hrest, rfl⟩
    | built _ =>
      cases h with
      | built hnode hrest => exact ⟨node, tail, _, _, rfl, hnode, hrest, rfl⟩

theorem Holds.found_some {answer : Option (El k × Sequence k)} {v : Val k} {F : Feed k}
    (h : st.Holds (Part.found answer) (Feed.found (some (v, F))) ids) :
    ∃ x tail inner ids', answer = some (x, tail) ∧ ids = inner ++ ids' ∧
      st.Holds [.item x] (.item v .nil) inner ∧ st.Holds tail.parts F ids' := by
  rcases answer with _ | ⟨x, tail⟩
  · cases h
  · cases h with
    | here x hrest => exact ⟨x, tail, [], ids, rfl, rfl, .here x .nil, hrest⟩
    | built hnode hrest =>
      have hitem := Holds.built hnode .nil
      rw [List.append_nil] at hitem
      exact ⟨_, tail, _, _, rfl, rfl, hitem, hrest⟩
    | anything x hrest => exact ⟨x, tail, [], ids, rfl, rfl, .anything x .nil, hrest⟩

theorem resume_worker {σ : Type} {W : Worker a k σ} {s s' : σ} {x : El a} {y : El k}
    (hhead : W.head (s, x) = some (.element y, s')) (note : σ × El a → Option Note) {t : Sequence a}
    {I : Feed a} (ht : st.Holds t.parts I ids) (hnodup : ids.Nodup) :
    ∃ c st', (Stage.worker W note s).resume (some (x, t)) st = .ok (.one y (.lazy c), st') ∧
      st.Offers ids (note (s, x)).toList st' [.cell c] (.through (.worker W note s') I) := by
  have hwrite := st.moves_write (note (s, x))
  have hnew := (ht.after hnodup hwrite).alloc_stage (.worker W note s')
  refine ⟨_, _, ?_, hnew⟩
  simp only [Stage.resume, Work.resume, hhead, Run.write_bind]
  exact W.build_cons y note t s' _

theorem resume_mapPlan {f : El a → Plan k} {note : El a → Option Note} {v : Val a} {q : Plan k}
    (hv : v.Becomes f q) (hnote : ∀ x, note x = none) {x : El a} {t : Sequence a} {I : Feed a}
    {inner : List ℕ} (hx : st.Holds [.item x] (.item v .nil) inner) (ht : st.Holds t.parts I ids)
    (hnodup : (inner ++ ids).Nodup) :
    ∃ node c st', (Stage.mapPlan f note).resume (some (x, t)) st = .ok (.one node (.lazy c), st') ∧
      @Offers ι _ (.seq k) st (inner ++ ids) [] st' [.item node, .cell c]
        (.item (.built q) (.through (.mapPlan f note) I)) := by
  obtain ⟨hinner, hids, hapart⟩ := List.nodup_append'.1 hnodup
  obtain ⟨used, hused, hsub, hstands⟩ := hv st x inner hx hinner
  have hfree : used.Disjoint ids := fun c hc => hapart (hsub hc)
  have hbuild := moves_build (f x) st
  obtain ⟨held, hnode, hnew, -⟩ := hstands.build (.refl st []) hused
  have hrest := ((ht.spared hbuild (List.disjoint_nil_right ids)).offers hids).alloc_stage (.mapPlan f note)
  have hboth := hrest.beside hnode hnew.nodup (hnew.disjoint ht.lt_size hfree).symm
    fun _ hcell hnode => ⟨_, .built hnode hcell, List.perm_append_comm⟩
  have hall := hboth.from ((hnew.beside ht.lt_size hfree hids).perm List.perm_append_comm)
    (hbuild.mono (List.nil_subset _))
  refine ⟨_, _, _, ?_, hall.mono (List.append_subset.2 ⟨List.subset_append_of_subset_left ids hsub,
    List.subset_append_right inner ids⟩)⟩
  simp only [Stage.resume, hnote]
  rfl

/-- A stage that has been answered makes a node with the feed that is left. -/
theorem resume_offers {S : Stage a k} {answer : Option (El a × Sequence a)} {r : Option (Val a × Feed a)}
    {G : Feed k} (h : S.Leaves r l G) (hst : st.Holds (Part.found answer) (Feed.found r) ids)
    (hnodup : ids.Nodup) :
    ∃ v st', S.resume answer st = .ok (v, st') ∧ st.Offers ids l st' v.parts G := by
  cases h with
  | ended S =>
    obtain rfl := hst.found_none
    refine ⟨.empty, st, by cases S <;> rfl, ?_⟩
    rw [Node.parts_empty]
    exact offers_nil (.refl st ids)
  | @went _ _ σ W note s s' x y I hhead =>
    obtain ⟨tail, rfl, htail⟩ := hst.found_here
    obtain ⟨c, st', hresume, hnew⟩ := resume_worker hhead note htail hnodup
    refine ⟨_, st', hresume, ?_⟩
    rw [Node.parts_one, Node.parts_lazy]
    exact hnew.here y
  | @passed _ _ σ W note s s' v I hhead hnote =>
    obtain ⟨x, tail, inner, ids', rfl, rfl, -, htail⟩ := hst.found_some
    obtain ⟨y, hy⟩ := hhead x
    obtain ⟨c, st', hresume, hnew⟩ := resume_worker hy note htail hnodup.of_append_right
    rw [hnote] at hnew
    refine ⟨_, st', hresume, ?_⟩
    rw [Node.parts_one, Node.parts_lazy]
    exact (hnew.anything y).mono (List.subset_append_right inner ids')
  | @stopped _ _ σ W note s x I hhead =>
    obtain ⟨tail, rfl, htail⟩ := hst.found_here
    have hwrite := st.moves_write (note (s, x))
    refine ⟨.empty, st.write (note (s, x)), ?_, ?_⟩
    · simp only [Stage.resume, Work.resume, hhead, Run.write_bind]
      rfl
    · rw [Node.parts_empty]
      exact offers_nil (hwrite.mono (List.nil_subset ids))
  | @built _ _ f note v q I hv hnote =>
    obtain ⟨x, tail, inner, ids', rfl, rfl, hx, htail⟩ := hst.found_some
    obtain ⟨node, c, st', hresume, hnew⟩ := resume_mapPlan hv hnote hx htail hnodup
    refine ⟨_, st', hresume, ?_⟩
    rw [Node.parts_one, Node.parts_lazy]
    exact hnew
  | @flattened _ v q I hv =>
    obtain ⟨node, tail, inner, ids', rfl, hnode, htail, rfl⟩ := hst.found_sequence hv
    obtain ⟨hinner, hids, hapart⟩ := List.nodup_append'.1 hnodup
    have hnew := ((htail.offers hids).alloc_stage .flatten).prepend hnode hinner hapart.symm
    refine ⟨node.concat (.lazy _), _, rfl, ?_⟩
    rw [Node.parts_concat, Node.parts_lazy]
    exact hnew
  | @last _ v I =>
    obtain ⟨x, tail, inner, ids', rfl, rfl, hitem, htail⟩ := hst.found_some
    refine ⟨.one x .empty, st, rfl, ?_⟩
    rw [Node.parts_one, Node.parts_empty]
    exact (hitem.offers hnodup.of_append_left).mono (List.subset_append_left inner ids')
  | @taken _ v I more =>
    obtain ⟨x, tail, inner, ids', rfl, rfl, hitem, htail⟩ := hst.found_some
    obtain ⟨hinner, hids, hapart⟩ := List.nodup_append'.1 hnodup
    have hnew := ((htail.offers hids).alloc_stage (.take more)).prepend hitem hinner hapart.symm
    refine ⟨.one x (.lazy _), _, rfl, ?_⟩
    rw [Node.parts_one, Node.parts_lazy]
    exact hnew

end Store

end MemoSequence
