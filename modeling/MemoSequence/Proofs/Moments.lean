import MemoSequence.Proofs.Recipes
set_option autoImplicit false

/-!
# What can be seen while a run goes on

The moments of a run are, in order, the stores at its turns and right after a cell has been marked, and
the requests: each question of an observer, or of the plan of a cell, for the first element of a sequence.
They are told apart from the run itself, which passes them on only by what it gives to its next part. A run
that halts has moments too, up to there.
-/
namespace MemoSequence

variable {ι : Type} [Basis ι] {k : Kind ι}

/-- A sequence that is asked for its first element. -/
abbrev Request (ι : Type) [Basis ι] : Type := Σ k : Kind ι, Sequence k

inductive Moment (ι : Type) [Basis ι] : Type 1
  | store (st : Store ι)
  | request (r : Request ι)

def Moment.store? : Moment ι → Option (Store ι)
  | .store st => some st
  | .request _ => none

def Moment.request? : Moment ι → Option (Request ι)
  | .store _ => none
  | .request r => some r

def stores (l : List (Moment ι)) : List (Store ι) := l.filterMap Moment.store?

def requests (l : List (Moment ι)) : List (Request ι) := l.filterMap Moment.request?

@[simp] theorem stores_nil : stores ([] : List (Moment ι)) = [] := rfl

@[simp] theorem stores_store (st : Store ι) (l : List (Moment ι)) :
    stores (.store st :: l) = st :: stores l := rfl

@[simp] theorem stores_request (r : Request ι) (l : List (Moment ι)) :
    stores (.request r :: l) = stores l := rfl

@[simp] theorem stores_append (l l' : List (Moment ι)) : stores (l ++ l') = stores l ++ stores l' :=
  List.filterMap_append

@[simp] theorem requests_nil : requests ([] : List (Moment ι)) = [] := rfl

@[simp] theorem requests_store (st : Store ι) (l : List (Moment ι)) :
    requests (.store st :: l) = requests l := rfl

@[simp] theorem requests_request (r : Request ι) (l : List (Moment ι)) :
    requests (.request r :: l) = r :: requests l := rfl

@[simp] theorem requests_append (l l' : List (Moment ι)) :
    requests (l ++ l') = requests l ++ requests l' := List.filterMap_append

abbrev Moments (ι : Type) [Basis ι] : Type 1 := Store ι → List (Moment ι)

def Moments.none : Moments ι := fun _ => []

/-- The moments of a run and of what goes on with its answer. -/
def Run.during {α : Type} (m : Run ι α) (seen : Moments ι) (more : α → Moments ι) : Moments ι :=
  fun st => seen st ++ match m st with
    | .ok (a, st') => more a st'
    | .error _ => []

abbrev Extraction.Moments (ι : Type) [Basis ι] : Type 1 :=
  (k : Kind ι) → Sequence k → MemoSequence.Moments ι

def Sequence.advanceMoments (next : Extraction ι) (seen : Extraction.Moments ι) :
    Nat → Sequence k → Moments ι
  | 0, _ => .none
  | count + 1, s => Run.during (next k s) (seen k s) fun answer =>
    match answer with
    | some (_, tail) => Sequence.advanceMoments next seen count tail
    | none => .none

/-- A plan asks its input at most; what it makes of the answer has no moments. -/
def Plan.moments (next : Extraction ι) (seen : Extraction.Moments ι) :
    {k : Kind ι} → Plan k → Moments ι
  | _, .given _ | _, .cons _ _ | _, .append _ _ | _, .defer _ _ => .none
  | _, .map (a := a) input _ | _, .mapPlan (a := a) input _ _ | _, .scan (a := a) input _ _
  | _, .stateScan (a := a) input _ _ => Run.during (Run.build input) .none (seen a)
  | k, .flatten outer => Run.during (Run.build outer) .none (seen (.seq k))
  | k, .take input _ | k, .takeWhile input _ => Run.during (Run.build input) .none (seen k)
  | _, .skip input count =>
    Run.during (Run.build input) .none (Sequence.advanceMoments next seen count)

def Run.forceMoments (moments : {k : Kind ι} → Plan k → Moments ι) (k : Kind ι) (id : Nat) :
    Moments ι := fun st =>
  match st.find? k id with
  | some (plan, .unforced) =>
    .store (st.setMemo id plan .running) :: moments plan (st.setMemo id plan .running)
  | _ => []

def Sequence.turnMoments (force : Nat → Moments ι) (current : Sequence k) : Moments ι :=
  match current with
  | .lazy id => force id
  | _ => .none

/-- Every turn begins with a moment. What the plan of a cell asks its input for is a request. -/
def Sequence.moments {k : Kind ι} : Nat → Sequence k → List (Segments (Sequence k)) → Moments ι
  | 0, _, _ => fun st => [.store st]
  | fuel + 1, current, opened => fun st => .store st :: Run.during
    (Sequence.turn (Run.force (Plan.unfold fun _ s => Sequence.visit fuel s []) k) current opened)
    (Sequence.turnMoments (Run.forceMoments
      (Plan.moments (fun _ s => Sequence.visit fuel s [])
        fun k s st => .request ⟨k, s⟩ :: Sequence.moments fuel s [] st) k)
      current)
    (fun turn => match turn with
      | .found _ => .none
      | .onward current opened => Sequence.moments fuel current opened) st

/-- The request, and the moments of the visits that answer it. -/
def Sequence.nextMoments (fuel : Nat) (s : Sequence k) : Moments ι := fun st =>
  .request ⟨k, s⟩ :: Sequence.moments fuel s [] st

abbrev Extraction.visit (fuel : Nat) : Extraction ι := fun _ s => Sequence.visit fuel s []

abbrev Extraction.Moments.visit (fuel : Nat) : Extraction.Moments ι := fun _ s =>
  Sequence.nextMoments fuel s

abbrev Run.forceAt (fuel : Nat) (k : Kind ι) (id : Nat) : Run ι (Sequence k) :=
  Run.force (Plan.unfold (Extraction.visit fuel)) k id

abbrev Run.forceMomentsAt (fuel : Nat) (k : Kind ι) (id : Nat) : Moments ι :=
  Run.forceMoments (Plan.moments (Extraction.visit fuel) (Extraction.Moments.visit fuel)) k id

def Sequence.traverseMoments {σ : Type} (step : σ → El k → Run ι (ForInStep σ)) :
    Nat → σ → Sequence k → Moments ι
  | 0, _, _ => .none
  | fuel + 1, state, s => Run.during (Sequence.next fuel s) (Sequence.nextMoments fuel s) fun answer =>
    match answer with
    | none => .none
    | some (x, tail) => Run.during (step state x) .none fun decision =>
      match decision with
      | .done _ => .none
      | .yield state => Sequence.traverseMoments step fuel state tail

def Observation.moments {α : Type} (env : Env ι) (fuel : Nat) (s : Sequence k) :
    Observation k α → Moments ι
  | .next | .first => Sequence.nextMoments fuel s
  | .fold f start => Sequence.traverseMoments
    (fun state x => do return .yield (← Run.call (f.run env) (state, x))) fuel (start.run env) s
  | .find p => Sequence.traverseMoments
    (fun _ x => do if ← Run.call (p.run env) x then return .done (Option.some x) else return .yield none)
    fuel (none : Option (El k)) s
  | .every p => Sequence.traverseMoments
    (fun _ x => do if ← Run.call (p.run env) x then return .yield true else return .done false)
    fuel true s
  | .some p => Sequence.traverseMoments
    (fun _ x => do if ← Run.call (p.run env) x then return .done true else return .yield false)
    fuel false s
  | .toVec => Sequence.traverseMoments (fun seen x => return .yield (seen.push x)) fuel #[] s
  | .toVecBounded limit => Sequence.traverseMoments (collectBounded limit) fuel (.ok #[]) s
  | .isEmpty | .debug => .none

def Step.moments (fuel : Nat) (env : Env ι) : Step ι → Moments ι
  | .make _ _ => .none
  | .next k source => Sequence.nextMoments fuel (env.seq k source)
  | .observe (k := k) o source sources =>
    o.moments (Env.pick Env.missing env sources) fuel (env.seq k source)

/-- The moments of a program: those of its steps, the store before each step, and the one at the end. -/
def Program.moments (fuel : Nat) : List (Step ι) → Env ι → Moments ι
  | [], _ => fun st => [.store st]
  | step :: rest, env => fun st =>
    .store st :: Run.during (step.perform fuel env) (step.moments fuel env) (Program.moments fuel rest) st

section Advancing

def Memo.Advances {α : Type} : Memo α → Memo α → Prop
  | .unforced, _ => True
  | .running, m => m ≠ .unforced
  | .forced value, m => m = .forced value

namespace Memo
variable {α : Type} {m m' m'' : Memo α}

theorem running_ne : (running : Memo α) ≠ unforced := by
  intro h
  cases h

theorem forced_ne (value : α) : forced value ≠ unforced := by
  intro h
  cases h

theorem advances_refl (m : Memo α) : m.Advances m := by
  cases m with
  | unforced => trivial
  | running =>
    intro h
    cases h
  | forced value => rfl

theorem Advances.trans (h : m.Advances m') (h' : m'.Advances m'') : m.Advances m'' := by
  cases m with
  | unforced => trivial
  | forced value =>
    obtain rfl := h
    exact h'
  | running =>
    cases m' with
    | unforced => exact absurd rfl h
    | running => exact h'
    | forced value =>
      obtain rfl := h'
      exact h

end Memo

namespace Store
variable {st st₁ st' : Store ι}

/-- Cells keep kind and plan, and each of them has gone one way only. -/
structure Advances (st st' : Store ι) : Prop where
  keeps : st'.keeps = st.keeps
  cell : ∀ {id : Nat} {k : Kind ι} {p : Plan k} {m : Memo (Sequence k)},
    st.cells[id]? = some ⟨k, p, m⟩ → ∃ m', st'.cells[id]? = some ⟨k, p, m'⟩ ∧ m.Advances m'

theorem Advances.refl (st : Store ι) : st.Advances st where
  keeps := rfl
  cell h := ⟨_, h, Memo.advances_refl _⟩

theorem Advances.trans (h : st.Advances st₁) (h' : st₁.Advances st') : st.Advances st' where
  keeps := h'.keeps.trans h.keeps
  cell hc := by
    obtain ⟨m₁, hc₁, hm₁⟩ := h.cell hc
    obtain ⟨m', hc', hm'⟩ := h'.cell hc₁
    exact ⟨m', hc', hm₁.trans hm'⟩

theorem advances_write (st : Store ι) (note : Option Note) : st.Advances (st.write note) where
  keeps := st.keeps_write note
  cell hc := ⟨_, (st.cells_write note).symm ▸ hc, Memo.advances_refl _⟩

theorem advances_alloc (st : Store ι) (p : Plan k) : st.Advances (st.alloc p).2 where
  keeps := rfl
  cell {id} _ _ m hc := by
    have hid : id < st.cells.size := (Array.getElem?_eq_some_iff.1 hc).1
    refine ⟨m, ?_, m.advances_refl⟩
    rw [Store.alloc, Array.getElem?_push, if_neg (by omega), hc]

theorem advances_setMemo {id : Nat} {p : Plan k} {m m' : Memo (Sequence k)}
    (hc : st.cells[id]? = some ⟨k, p, m⟩) (hm : m.Advances m') :
    st.Advances (st.setMemo id p m') where
  keeps := keeps_setMemo id p m'
  cell {j} _ _ memo hj := by
    rw [getElem?_setMemo (Array.getElem?_eq_some_iff.1 hc).1]
    split
    · next h =>
      obtain ⟨-, rfl⟩ := h
      obtain ⟨rfl, rfl, rfl⟩ := Cell.mk.inj (Option.some.inj (hc.symm.trans hj))
      exact ⟨m', rfl, hm⟩
    · exact ⟨memo, hj, memo.advances_refl⟩

theorem advances_mark {id : Nat} {p : Plan k} (hc : st.cells[id]? = some ⟨k, p, .unforced⟩) :
    st.Advances (st.setMemo id p .running) := advances_setMemo hc trivial

theorem advances_finish {id : Nat} {p : Plan k} (hc : st.cells[id]? = some ⟨k, p, .running⟩)
    (v : Sequence k) : st.Advances (st.setMemo id p (.forced v)) :=
  advances_setMemo hc (Memo.forced_ne v)

theorem getElem?_setMemo_self (hk : st.keeps = true) {id : Nat} {c : Cell ι}
    (hc : st.cells[id]? = some c) (p : Plan k) (m : Memo (Sequence k)) :
    (st.setMemo id p m).cells[id]? = some ⟨k, p, m⟩ := by
  rw [getElem?_setMemo (Array.getElem?_eq_some_iff.1 hc).1, if_pos ⟨hk, rfl⟩]

theorem Advances.peek? (h : st.Advances st') {id : Nat} {v : Sequence k}
    (hv : st.peek? k id = some v) : st'.peek? k id = some v := by
  obtain ⟨p, hc⟩ := peek?_eq_some.1 hv
  obtain ⟨m, hc', rfl⟩ := h.cell hc
  exact peek?_eq_some.2 ⟨p, hc'⟩

end Store

end Advancing

end MemoSequence
