import MemoSequence.Next
import MemoSequence.Unbounded
set_option autoImplicit false

namespace MemoSequence

inductive Refusal where
  | unbounded
  | limitExceeded (limit : Nat)
  deriving DecidableEq, Repr

def Refusal.message : Refusal → String
  | .unbounded => "Sequence is unbounded and cannot be materialized"
  | .limitExceeded limit => "Sequence has more than " ++ toString limit ++ " elements"

namespace Sequence
variable {ι : Type} [Basis ι] {k : Kind ι} {σ : Type}

/-- The loop of all consumers. One unit of fuel is used per element, and extraction gets what is left. -/
def traverse (step : σ → El k → Run ι (ForInStep σ)) : (fuel : Nat) → σ → Sequence k → Run ι σ
  | 0, _, _ => Run.halt .outOfFuel
  | fuel + 1, state, s => do
    match ← Sequence.next fuel s with
    | none => return state
    | some (x, tail) => match ← step state x with
      | .done state => return state
      | .yield state => traverse step fuel state tail

def first? (fuel : Nat) (s : Sequence k) : Run ι (Option (El k)) := do
  return (← Sequence.next fuel s).map (·.1)

def fold (f : Fn (σ × El k) σ) (start : σ) (fuel : Nat) (s : Sequence k) : Run ι σ :=
  traverse (fun state x => do return .yield (← Run.call f (state, x))) fuel start s

def reduce? (f : Fn (El k × El k) (El k)) (fuel : Nat) (s : Sequence k) : Run ι (Option (El k)) :=
  traverse
    (fun state x => match state with
      | none => return .yield (some x)
      | some acc => do return .yield (some (← Run.call f (acc, x))))
    fuel none s

def all (p : Fn (El k) Bool) (fuel : Nat) (s : Sequence k) : Run ι Bool :=
  traverse (fun _ x => do if ← Run.call p x then return .yield true else return .done false)
    fuel true s

def any (p : Fn (El k) Bool) (fuel : Nat) (s : Sequence k) : Run ι Bool :=
  traverse (fun _ x => do if ← Run.call p x then return .done true else return .yield false)
    fuel false s

def find? (p : Fn (El k) Bool) (fuel : Nat) (s : Sequence k) : Run ι (Option (El k)) :=
  traverse
    (fun _ x => do if ← Run.call p x then return .done (some x) else return .yield none)
    fuel none s

def last? (fuel : Nat) (s : Sequence k) : Run ι (Option (El k)) :=
  traverse (fun _ x => return .yield (some x)) fuel none s

def count (fuel : Nat) (s : Sequence k) : Run ι Nat :=
  traverse (fun n _ => return .yield (n + 1)) fuel 0 s

def toArray (fuel : Nat) (s : Sequence k) : Run ι (Array (El k)) :=
  traverse (fun seen x => return .yield (seen.push x)) fuel #[] s

def toList (fuel : Nat) (s : Sequence k) : Run ι (List (El k)) := do
  return (← toArray fuel s).toList

def tryToList (fuel : Nat) (s : Sequence k) : Run ι (Except Refusal (List (El k))) := do
  if ← Run.view (·.isUnbounded s) then return .error .unbounded
  else return .ok (← toList fuel s)

/-- The limit is compared when a further element has arrived, before that element is kept. -/
def toListBounded (limit : Nat) (fuel : Nat) (s : Sequence k) :
    Run ι (Except Refusal (List (El k))) := do
  let seen ← traverse
    (fun seen x => match seen with
      | .error refusal => return .done (.error refusal)
      | .ok seen =>
        if seen.size = limit then return .done (.error (.limitExceeded limit))
        else return .yield (.ok (seen.push x)))
    fuel (.ok #[] : Except Refusal (Array (El k))) s
  return seen.map Array.toList

/-- At most `count` elements from the front, and what is left: the last rest that was reached. -/
def extract (fuel : Nat) : (count : Nat) → (seen : Array (El k)) → Sequence k →
    Run ι (List (El k) × Sequence k)
  | 0, seen, s => return (seen.toList, s)
  | count + 1, seen, s => do
    match ← Sequence.next fuel s with
    | some (x, tail) => extract fuel count (seen.push x) tail
    | none => return (seen.toList, s)

end Sequence

end MemoSequence
