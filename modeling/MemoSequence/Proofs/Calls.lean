import MemoSequence.Proofs.Replay
set_option autoImplicit false

/-!
# The calls along a sequence

`map`, `filter`, `takeWhile`, `flatMap` and the scans call a function for each element of their input, and a
deferred sequence calls its producer. A `Calling` is one use of such a combinator, with the function apart from
its notes. Each call contributes elements to the sequence that is made, and leaves a state for the next call
unless it ends the sequence.

`CalledAlong` says of a list of calls that it goes along the input: each element once, in order, and none
before a request has been made for more than the calls before it have contributed.
-/
namespace MemoSequence

variable {ι : Type} [Basis ι] {a k : Kind ι}

/-- Two lists have been merged into the third one, each in its own order. -/
inductive Interleaved {α : Type} : List α → List α → List α → Prop
  | nil : Interleaved [] [] []
  | left {l l' l'' : List α} (x : α) (h : Interleaved l l' l'') :
      Interleaved (l ++ [x]) l' (l'' ++ [x])
  | right {l l' l'' : List α} (x : α) (h : Interleaved l l' l'') :
      Interleaved l (l' ++ [x]) (l'' ++ [x])

theorem interleaved_nil {α : Type} (l : List α) : Interleaved [] l l := by
  induction l using List.reverseRecOn with
  | nil => exact .nil
  | append_singleton l x ih => exact ih.right x

structure Call (σ α β : Type) where
  state : σ
  element : α
  outputs : List β

/-- Each call takes the state that the call before it has left. -/
inductive Follows {σ α β : Type} (step : σ × α → List β → Option σ → Prop) (start : σ) :
    List (Call σ α β) → Option σ → Prop
  | start : Follows step start [] (some start)
  | call {calls : List (Call σ α β)} {s : σ} {x : α} {ys : List β} {s' : Option σ}
      (h : Follows step start calls (some s)) (hs : step (s, x) ys s') :
      Follows step start (calls ++ [⟨s, x, ys⟩]) s'

def contributed {σ α β : Type} (calls : List (Call σ α β)) : List β := calls.flatMap Call.outputs

theorem contributed_append {σ α β : Type} (calls : List (Call σ α β)) (call : Call σ α β) :
    contributed (calls ++ [call]) = contributed calls ++ call.outputs := by
  simp [contributed]

/-- A sequence made from another one by calls, and what a call may contribute and leave. -/
structure Line (a k : Kind ι) (σ : Type) where
  input : Sequence a
  handle : Sequence k
  start : σ
  step : σ × El a → List (El k) → Option σ → Prop
  note : σ × El a → Option Note

namespace Line
variable {σ : Type} (L : Line a k σ)

/-- Each element of the input is called for once, in order, by the state that the calls before have left;
and none before the sequence has been asked for more than these calls have contributed. -/
structure CalledAlong (asked : List (Request ι)) (st : Store ι) (calls : List (Call σ (El a) (El k))) :
    Prop where
  states : ∃ s, Follows L.step L.start calls s
  positions : ∃ current opened, st.Comes L.input (calls.map Call.element) current opened
  asked : ∀ i < calls.length, st.Asked asked L.handle (contributed (calls.take i))

/-- The second journal has, besides what the first one has, the notes of calls along the line, once each. -/
def Noted (asked : List (Request ι)) (st₀ st : Store ι) : Prop :=
  ∃ calls : List (Call σ (El a) (El k)),
    Interleaved (calls.filterMap fun call => L.note (call.state, call.element)) st₀.journal.toList
      st.journal.toList ∧ L.CalledAlong asked st calls

variable {L} {st st' : Store ι} {asked : List (Request ι)} {calls : List (Call σ (El a) (El k))}

theorem CalledAlong.advances (h : L.CalledAlong asked st calls) (hst : st.Advances st') :
    L.CalledAlong asked st' calls where
  states := h.states
  positions := by
    obtain ⟨current, opened, hc⟩ := h.positions
    exact ⟨current, opened, hc.advances hst⟩
  asked i hi := (h.asked i hi).advances hst

theorem CalledAlong.more (h : L.CalledAlong asked st calls) (l : List (Request ι)) :
    L.CalledAlong (asked ++ l) st calls where
  states := h.states
  positions := h.positions
  asked i hi := (h.asked i hi).more l

theorem calledAlong_nil (asked : List (Request ι)) (st : Store ι) : L.CalledAlong asked st [] where
  states := ⟨_, .start⟩
  positions := ⟨_, _, .start⟩
  asked _ hi := absurd hi (Nat.not_lt_zero _)

theorem CalledAlong.call (h : L.CalledAlong asked st calls) {s : σ} {x : El a} {ys : List (El k)}
    {s' : Option σ} (hs : Follows L.step L.start calls (some s)) (hstep : L.step (s, x) ys s')
    {current : Sequence a} {opened : List (Segments (Sequence a))}
    (hx : st.Comes L.input (calls.map Call.element ++ [x]) current opened)
    (hasked : st.Asked asked L.handle (contributed calls)) :
    L.CalledAlong asked st (calls ++ [⟨s, x, ys⟩]) where
  states := ⟨_, hs.call hstep⟩
  positions := ⟨current, opened, by simpa using hx⟩
  asked i hi := by
    rw [List.length_append, List.length_singleton] at hi
    rcases Nat.lt_or_ge i calls.length with hlt | hge
    · rw [List.take_append_of_le_length hlt.le]
      exact h.asked i hlt
    · obtain rfl : i = calls.length := by omega
      simpa using hasked

end Line

section Callings
def Uniform.noting {X Y V U : Type} {R : Reading ι X V} {S : Reading ι Y U}
    (f : Uniform (.noted R S)) (note : X → Option Note) : Uniform (.noted R S) where
  run env := { f.run env with note := note }
  reads := f.reads

/-- One use of a combinator that calls a function for each element of its input, or the deferral of a
producer: by the kinds of the elements that it is given, of those it makes, and of those that are contributed by
its calls, and by the type of the states. A call of `flatMap` contributes a sequence to the sequence of
sequences that is flattened then. -/
inductive Calling : Kind ι → Kind ι → Kind ι → Type → Type 1
  | map {a k : Kind ι} (f : Uniform (.noted (El.reading a) (El.reading k))) : Calling a k k Unit
  | filter {k : Kind ι} (p : Uniform (.noted (El.reading k) (.same Bool))) : Calling k k k Unit
  | flatMap {a k : Kind ι} (f : Uniform ((El.reading a).fn (Plan.reading k))) : Calling a k k.seq Unit
  | takeWhile {k : Kind ι} (p : Uniform (.noted (El.reading k) (.same Bool))) : Calling k k k Unit
  | scan {a k : Kind ι} {σ τ : Type} (R : Reading ι σ τ) (hR : R.Lasting) (state : Uniform R)
      (step : Uniform (.noted (R.prod (El.reading a)) ((El.reading k).prod R))) : Calling a k k σ
  | stateScan {a k : Kind ι} {σ τ : Type} (R : Reading ι σ τ) (hR : R.Lasting) (state : Uniform R)
      (step : Uniform (.noted (R.prod (El.reading a)) ((El.reading k).list.prod R))) : Calling a k k σ
  | inclusiveScan {a k : Kind ι} (state : Uniform (El.reading k))
      (f : Uniform (.noted ((El.reading k).prod (El.reading a)) (El.reading k))) : Calling a k k (El k)
  | exclusiveScan {a k : Kind ι} (state : Uniform (El.reading k))
      (f : Uniform (.noted ((El.reading k).prod (El.reading a)) (El.reading k))) : Calling a k k (El k)
  | defer {k : Kind ι} (body : Uniform (Plan.reading k)) : Calling .nat k k Unit

namespace Calling
variable {κ : Kind ι} {σ : Type}

def make : {a k κ : Kind ι} → {σ : Type} → Calling a k κ σ → (input : Nat) →
    (note : σ × El a → Option Note) → Make k
  | _, _, _, _, .map f, input, note => .map input (f.noting fun x => note ((), x))
  | _, _, _, _, .filter p, input, note => .filter input (p.noting fun x => note ((), x))
  | _, _, _, _, .flatMap f, input, note => .flatMap input f fun x => note ((), x)
  | _, _, _, _, .takeWhile p, input, note => .takeWhile input (p.noting fun x => note ((), x))
  | _, _, _, _, .scan R hR state step, input, note => .scan R hR input state (step.noting note)
  | _, _, _, _, .stateScan R hR state step, input, note => .stateScan R hR input state (step.noting note)
  | _, _, _, _, .inclusiveScan state f, input, note => .inclusiveScan input state (f.noting note)
  | _, _, _, _, .exclusiveScan state f, input, note => .exclusiveScan input state (f.noting note)
  | _, _, _, _, .defer body, _, note => .defer (note ((), (0 : Nat))) body

/-- A producer has no input: it is called for the only element of a sequence. -/
def input : {a k κ : Kind ι} → {σ : Type} → Calling a k κ σ → Nat → Env ι → Sequence a
  | _, _, _, _, .defer _, _, _ => Node.single (0 : Nat)
  | a, _, _, _, _, i, env => env.seq a i

def start : {a k κ : Kind ι} → {σ : Type} → Calling a k κ σ → Env ι → σ
  | _, _, _, _, .map _, _ | _, _, _, _, .filter _, _ | _, _, _, _, .flatMap _, _
  | _, _, _, _, .takeWhile _, _ | _, _, _, _, .defer _, _ => ()
  | _, _, _, _, .scan _ _ state _, env | _, _, _, _, .stateScan _ _ state _, env
  | _, _, _, _, .inclusiveScan state _, env | _, _, _, _, .exclusiveScan state _, env => state.run env

/-- What a call contributes, and the state it leaves; none when it is the last call. -/
def step : {a k κ : Kind ι} → {σ : Type} → Calling a k κ σ → Env ι → σ × El a →
    List (El κ) → Option σ → Prop
  | _, _, _, _, .map f, env, (s, x), ys, s' => ys = [(f.run env).apply x] ∧ s' = some s
  | _, _, _, _, .filter p, env, (s, x), ys, s' =>
    ys = (if (p.run env).apply x then [x] else []) ∧ s' = some s
  | _, _, _, _, .flatMap f, env, (s, x), ys, s' =>
    (∃ st, ys = [((f.run env x).build st).1]) ∧ s' = some s
  | _, _, _, _, .takeWhile p, env, (s, x), ys, s' =>
    if (p.run env).apply x then ys = [x] ∧ s' = some s else ys = [] ∧ s' = none
  | _, _, _, _, .scan _ _ _ f, env, call, ys, s' =>
    ys = [((f.run env).apply call).1] ∧ s' = some ((f.run env).apply call).2
  | _, _, _, _, .stateScan _ _ _ f, env, call, ys, s' =>
    ys = ((f.run env).apply call).1 ∧ s' = some ((f.run env).apply call).2
  | _, _, _, _, .inclusiveScan _ f, env, call, ys, s' =>
    ys = [(f.run env).apply call] ∧ s' = some ((f.run env).apply call)
  | _, _, _, _, .exclusiveScan _ f, env, call, ys, s' =>
    ys = [call.1] ∧ s' = some ((f.run env).apply call)
  | _, _, _, _, .defer _, _, _, ys, s' => ys = [] ∧ s' = none

/-- The sequence that the calls contribute to, as the store has it after the sequence has been made. -/
def Serves : {a k κ : Kind ι} → {σ : Type} → Calling a k κ σ → Store ι → Sequence k → Sequence κ → Prop
  | _, k, _, _, .flatMap _, st, m, s => ∃ id, m = .lazy id ∧
    st.cells[id]? = some ⟨k, .flatten (.given s), .unforced⟩
  | _, _, _, _, .map _, _, m, s | _, _, _, _, .filter _, _, m, s | _, _, _, _, .takeWhile _, _, m, s
  | _, _, _, _, .scan .., _, m, s | _, _, _, _, .stateScan .., _, m, s
  | _, _, _, _, .inclusiveScan .., _, m, s | _, _, _, _, .exclusiveScan .., _, m, s
  | _, _, _, _, .defer _, _, m, s => s = m

end Calling

end Callings

end MemoSequence
