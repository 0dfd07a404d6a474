import MemoSequence.Proofs.Program
set_option autoImplicit false

namespace MemoSequence
open Stream'.WSeq (think)
open Sequence (Formed trail)

variable {ι : Type} [Basis ι]

@[reducible] def Glance : Kind ι → Type
  | .base i => Basis.Carrier i
  | .nat => Nat
  | .option k => Option (Glance k)
  | .pair a b => Glance a × Glance b
  | .seq _ => String

def describeForm (form : String) : String := "Sequence(\"" ++ form ++ "\")"

def El.glance : (k : Kind ι) → El k → Glance k
  | .base _, x => x
  | .nat, n => n
  | .option k, x => x.map (glance k)
  | .pair a b, x => (glance a x.1, glance b x.2)
  | .seq _, s => Node.describe s

def Value.glance : (k : Kind ι) → Value k → Glance k
  | .base _, x => x
  | .nat, n => n
  | .option k, x => x.map (glance k)
  | .pair a b, x => (glance a x.1, glance b x.2)
  | .seq _, s => describeForm s.form

theorem glance_value (w : World ι) (k : Kind ι) (x : El k) :
    Value.glance k (El.value w k x) = El.glance k x := by
  induction k with
  | base i => rfl
  | nat => rfl
  | option k ih => cases x <;> simp [Value.glance, El.value, El.glance, ih]
  | pair a b iha ihb => exact Prod.ext (iha x.1) (ihb x.2)
  | seq k => rfl

theorem glance_reads {w : World ι} {k : Kind ι} {x : El k} {v : Value k} (h : El.reading k w x v) :
    El.glance k x = Value.glance k v := by
  rw [← h.2, glance_value]

/-- One call of a consumer on a sequence of kind `k`, by the type of its answers. -/
inductive Observation (k : Kind ι) : Type → Type 1
  | next : Observation k (Option (Glance k × String))
  | first : Observation k (Option (Glance k))
  | fold {b : Kind ι} (f : Uniform (.noted ((El.reading b).prod (El.reading k)) (El.reading b)))
      (start : Uniform (El.reading b)) : Observation k (Glance b)
  | find (p : Uniform (.noted (El.reading k) (.same Bool))) : Observation k (Option (Glance k))
  | every (p : Uniform (.noted (El.reading k) (.same Bool))) : Observation k Bool
  | some (p : Uniform (.noted (El.reading k) (.same Bool))) : Observation k Bool
  | toVec : Observation k (List (Glance k))
  | toVecBounded (limit : Nat) : Observation k (Except Refusal (List (Glance k)))
  | isEmpty : Observation k Bool
  | debug : Observation k String

namespace Observation
variable {k : Kind ι} {α : Type}

def run : {α : Type} → Observation k α → Env ι → (fuel : Nat) → Sequence k → Run ι α
  | _, .next, _, fuel, s => do
    return (← Sequence.next fuel s).map fun p => (El.glance k p.1, Node.describe p.2)
  | _, .first, _, fuel, s => do return (← Sequence.first? fuel s).map (El.glance k)
  | _, .fold (b := b) f start, env, fuel, s => do
    return El.glance b (← Sequence.fold (f.run env) (start.run env) fuel s)
  | _, .find p, env, fuel, s => do return (← Sequence.find? (p.run env) fuel s).map (El.glance k)
  | _, .every p, env, fuel, s => Sequence.all (p.run env) fuel s
  | _, .some p, env, fuel, s => Sequence.any (p.run env) fuel s
  | _, .toVec, _, fuel, s => do return (← Sequence.toList fuel s).map (El.glance k)
  | _, .toVecBounded limit, _, fuel, s => do
    return (← Sequence.toListBounded limit fuel s).map (List.map (El.glance k))
  | _, .isEmpty, _, _, s => return Node.isEmpty s
  | _, .debug, _, _, s => return Node.describe s

def boundedStep {β : Type} (limit : Nat) (seen : Except Refusal (List β)) (v : β) :
    ForInStep (Except Refusal (List β)) :=
  match seen with
  | .error refusal => .done (.error refusal)
  | .ok seen =>
    if seen.length = limit then .done (.error (.limitExceeded limit)) else .yield (.ok (seen ++ [v]))

/-- The answers that the observed sequence allows by its form and trail. -/
def Answers : {α : Type} → Observation k α → Values ι → Shown (Value k) → α → Prop
  | _, .next, _, S, answer => ∃ r, (∃ n, S.trail = think^[n] (front r)) ∧
    r.map (fun p => (Value.glance k p.1.1, describeForm p.1.2)) = answer
  | _, .first, _, S, answer => ∃ r, (∃ n, S.trail = think^[n] (front r)) ∧
    r.map (fun p => Value.glance k p.1.1) = answer
  | _, .fold (b := b) f start, vs, S, answer => ∃ u,
    Drains (fun t v => .yield (f.meaning vs (t, v))) (start.meaning vs) S.trail u ∧
      Value.glance b u = answer
  | _, .find p, vs, S, answer => ∃ u,
    Drains (fun _ v => if p.meaning vs v then .done (.some v) else .yield none) none S.trail u ∧
      u.map (Value.glance k) = answer
  | _, .every p, vs, S, answer =>
    Drains (fun _ v => if p.meaning vs v then .yield true else .done false) true S.trail answer
  | _, .some p, vs, S, answer =>
    Drains (fun _ v => if p.meaning vs v then .done true else .yield false) false S.trail answer
  | _, .toVec, _, S, answer => ∃ u,
    Drains (fun seen v => .yield (seen ++ [v])) [] S.trail u ∧ u.map (Value.glance k) = answer
  | _, .toVecBounded limit, _, S, answer => ∃ u,
    Drains (boundedStep limit) (.ok []) S.trail u ∧ u.map (List.map (Value.glance k)) = answer
  | _, .isEmpty, _, S, answer => (S.form == "Empty") = answer
  | _, .debug, _, S, answer => describeForm S.form = answer

end Observation

section Steps
variable {k : Kind ι} {w : World ι}

theorem reads_decision_if {σ τ : Type} {R : Reading ι σ τ} {c : Bool} {d e : ForInStep σ}
    {d' e' : ForInStep τ} (hd : c = true → R.decision w d d') (he : c = false → R.decision w e e') :
    R.decision w (if c then d else e) (if c then d' else e') := by
  cases c with
  | true => exact hd rfl
  | false => exact he rfl

theorem step_of_test {σ τ : Type} {R : Reading ι σ τ} {p : Fn (El k) Bool} {q : Value k → Bool}
    {d e : σ → El k → ForInStep σ} {d' e' : τ → Value k → ForInStep τ}
    (hp : (Reading.noted (El.reading k) (.same Bool)) w p q)
    (hd : ∀ w s t x v, El.reading k w x v → R.decision w (d s x) (d' t v))
    (he : ∀ w s t x v, El.reading k w x v → R.decision w (e s x) (e' t v)) :
    R.step w (fun s x => do if ← Run.call p x then return d s x else return e s x)
      fun t v => if q v then d' t v else e' t v := by
  intro w' hw s t x v _ hx
  have hq : p.apply x = q v := hp w' hw x v hx
  refine ⟨_, Run.notes_test p x (d s x) (e s x), hq ▸ ?_⟩
  exact reads_decision_if (fun _ => hd w' s t x v hx) fun _ => he w' s t x v hx

def Reading.collected (k : Kind ι) : Reading ι (Array (El k)) (List (Value k)) :=
  fun w seen values => (El.reading k).list w seen.toList values

theorem lasting_collected : (Reading.collected k).Lasting :=
  fun _ _ hw _ _ h => (El.lasting_reading k).list hw h

theorem collected_push {seen : Array (El k)} {values : List (Value k)} {x : El k} {v : Value k}
    (h : Reading.collected k w seen values) (hx : El.reading k w x v) :
    Reading.collected k w (seen.push x) (values ++ [v]) := by
  unfold Reading.collected Reading.list at *
  rw [Array.toList_push]
  exact List.rel_append h (.cons hx .nil)

theorem step_collected : (Reading.collected k).step w
    (fun seen x => return .yield (seen.push x)) (fun seen v => .yield (seen ++ [v])) :=
  fun _ _ _ _ _ _ hseen hx => ⟨_, Run.notes_pure _, collected_push hseen hx⟩

theorem collected_size {seen : Array (El k)} {values : List (Value k)}
    (h : Reading.collected k w seen values) : seen.size = values.length :=
  List.Forall₂.length_eq h

theorem glance_collected {seen : Array (El k)} {values : List (Value k)}
    (h : Reading.collected k w seen values) :
    seen.toList.map (El.glance k) = values.map (Value.glance k) := by
  unfold Reading.collected Reading.list at h
  generalize seen.toList = elements at h
  induction h with
  | nil => rfl
  | cons hx _ ih => rw [List.map_cons, List.map_cons, glance_reads hx, ih]

def Reading.bounded (k : Kind ι) :
    Reading ι (Except Refusal (Array (El k))) (Except Refusal (List (Value k)))
  | _, .error refusal, .error refusal' => refusal = refusal'
  | w, .ok seen, .ok values => Reading.collected k w seen values
  | _, _, _ => False

def collectBounded (limit : Nat) (seen : Except Refusal (Array (El k))) (x : El k) :
    Run ι (ForInStep (Except Refusal (Array (El k)))) :=
  match seen with
  | .error refusal => return .done (.error refusal)
  | .ok seen =>
    if seen.size = limit then return .done (.error (.limitExceeded limit))
    else return .yield (.ok (seen.push x))

theorem notes_collectBounded (limit : Nat) (seen : Except Refusal (Array (El k))) (x : El k) :
    ∃ decision, (collectBounded (ι := ι) limit seen x).Notes decision := by
  cases seen with
  | error refusal => exact ⟨_, Run.notes_pure _⟩
  | ok seen =>
    simp only [collectBounded]
    split <;> exact ⟨_, Run.notes_pure _⟩

def glanceBounded (seen : Except Refusal (Array (El k))) : Except Refusal (List (Glance k)) :=
  (seen.map Array.toList).map (List.map (El.glance k))

theorem step_bounded (limit : Nat) :
    (Reading.bounded k).step w (collectBounded limit) (Observation.boundedStep limit) := by
  intro w' hw seen values x v hseen hx
  match seen, values, hseen with
  | .error refusal, .error refusal', h => exact ⟨_, Run.notes_pure _, h⟩
  | .ok seen, .ok values, h =>
    have hsize : seen.size = limit ↔ values.length = limit := by rw [collected_size h]
    by_cases hl : seen.size = limit
    · refine ⟨.done (.error (.limitExceeded limit)), ?_, ?_⟩
      · simp only [collectBounded, if_pos hl]
        exact Run.notes_pure _
      · simp only [Observation.boundedStep, if_pos (hsize.1 hl)]
        rfl
    · refine ⟨.yield (.ok (seen.push x)), ?_, ?_⟩
      · simp only [collectBounded, if_neg hl]
        exact Run.notes_pure _
      · simp only [Observation.boundedStep, if_neg (mt hsize.2 hl)]
        exact collected_push h hx

theorem glance_bounded {seen : Except Refusal (Array (El k))}
    {values : Except Refusal (List (Value k))} (h : Reading.bounded k w seen values) :
    glanceBounded seen = values.map (List.map (Value.glance k)) := by
  match seen, values, h with
  | .error refusal, .error refusal', h => exact congrArg Except.error h
  | .ok seen, .ok values, h => exact congrArg Except.ok (glance_collected h)

theorem lasting_bounded : (Reading.bounded k).Lasting := by
  intro w w' hw seen values h
  cases seen <;> cases values
  · exact h
  · exact h
  · exact h
  · exact lasting_collected hw h

end Steps

section Adequacy
variable {k : Kind ι} {α : Type} {st : Store ι} {w : World ι}

theorem pure_adequate (hst : st.Means w) (a : α) :
    Adequate (fun _ => (pure a : Run ι α)) st w (.same α) fun b => a = b where
  sound h := by
    obtain ⟨rfl, rfl⟩ := Run.pure_eq_ok.1 h
    exact ⟨w, _, hst.leads, rfl, rfl⟩
  gives _ := by
    rintro _ rfl
    exact ⟨a, st, w, gives_of_eq rfl, hst.leads, rfl⟩

theorem isEmpty_eq_form (s : Sequence k) : (Node.form s == "Empty") = Node.isEmpty s := by
  cases s <;> rfl

/-- An observation returns what the form and the trail of the sequence allow, and nothing else. -/
theorem Observation.adequate (o : Observation k α) {env : Env ι} {vs : Values ι} {s : Sequence k}
    {S : Shown (Value k)} (hst : st.Means w) (henv : Reading.env w env vs)
    (hs : El.reading (.seq k) w s S) :
    Adequate (fun fuel => o.run env fuel s) st w (.same α) (o.Answers vs S) := by
  obtain ⟨hs, rfl⟩ := hs
  cases o with
  | next =>
    refine (next_adequate hst hs).told fun w answer r h => ?_
    obtain ⟨rfl, -⟩ := h
    cases answer with
    | none => rfl
    | some p => simp [glance_value, Node.describe, describeForm]
  | first =>
    have hrun : (fun fuel => Observation.first.run env fuel s) = fun fuel => do
        return (← Sequence.next fuel s).map fun p => El.glance k p.1 := by
      funext fuel
      simp [Observation.run, Sequence.first?, Function.comp_def]
    rw [hrun]
    refine (next_adequate hst hs).told fun w answer r h => ?_
    obtain ⟨rfl, -⟩ := h
    cases answer with
    | none => rfl
    | some p => simp [glance_value]
  | fold f start =>
    refine (traverse_adequate (El.lasting_reading _) ?_ hst hs (start.spec henv)).told
      fun w a u h => glance_reads h
    intro w' hw t u x v ht hx
    exact ⟨_, Run.notes_call_bind (Run.notes_pure _), f.spec henv w' hw (t, x) (u, v) ⟨ht, hx⟩⟩
  | find p =>
    refine (traverse_adequate (El.lasting_reading (.option k)) ?_ hst hs (El.reading_none w k)).told
      fun w a u h => glance_reads (k := .option k) h
    exact step_of_test (p.spec henv) (fun _ _ _ _ _ hx => El.reading_some hx)
      fun w _ _ _ _ _ => El.reading_none w k
  | every p =>
    exact traverse_adequate (Reading.lasting_same Bool)
      (step_of_test (p.spec henv) (fun _ _ _ _ _ _ => rfl) fun _ _ _ _ _ _ => rfl) hst hs rfl
  | some p =>
    exact traverse_adequate (Reading.lasting_same Bool)
      (step_of_test (p.spec henv) (fun _ _ _ _ _ _ => rfl) fun _ _ _ _ _ _ => rfl) hst hs rfl
  | toVec =>
    have hrun : (fun fuel => Observation.toVec.run env fuel s) = fun fuel => do
        return (← Sequence.toArray fuel s).toList.map (El.glance k) := by
      funext fuel
      simp [Observation.run, Sequence.toList]
    rw [hrun]
    exact (traverse_adequate lasting_collected step_collected hst hs .nil).told
      fun w a u h => glance_collected h
  | toVecBounded limit =>
    have hrun : (fun fuel => (Observation.toVecBounded limit).run env fuel s) = fun fuel => do
        return glanceBounded
          (← Sequence.traverse (collectBounded limit) fuel (.ok #[]) s) := by
      funext fuel
      simp only [Observation.run, Sequence.toListBounded, bind_assoc, pure_bind]
      rfl
    rw [hrun]
    have hinit : Reading.bounded k w (.ok #[]) (.ok []) := List.Forall₂.nil
    exact (traverse_adequate lasting_bounded (step_bounded limit) hst hs hinit).told
      fun w a u h => glance_bounded h
  | isEmpty =>
    have hanswers : (Observation.isEmpty : Observation k Bool).Answers vs (Sequence.shown w s) =
        fun b => Node.isEmpty s = b := by
      funext b
      exact congrArg (· = b) (isEmpty_eq_form s)
    exact hanswers ▸ pure_adequate hst _
  | debug => exact pure_adequate hst _

end Adequacy

end MemoSequence
