import MemoSequence.Store
set_option autoImplicit false

namespace MemoSequence

/-- Why there is no answer: the fuel is used up, or one of three things that no sequence made here comes to, a
part that asks for itself, a handle without a cell, and a numbered source asked beyond its end. -/
inductive Halt where
  | outOfFuel
  | reentered
  | dangling
  | outOfBounds
  deriving DecidableEq, Repr

def Run (ι : Type) [Basis ι] (α : Type) : Type 1 := Store ι → Except Halt (α × Store ι)

namespace Run
variable {ι : Type} [Basis ι] {α β : Type}

@[inline] protected def pure (x : α) : Run ι α := fun st => .ok (x, st)

@[inline] protected def bind (m : Run ι α) (f : α → Run ι β) : Run ι β := fun st =>
  match m st with
  | .ok (x, st) => f x st
  | .error halt => .error halt

instance : Monad (Run ι) where
  pure := Run.pure
  bind := Run.bind

instance : LawfulMonad (Run ι) := by
  refine LawfulMonad.mk' _ (fun m => ?_) (fun _ _ => rfl) (fun m _ _ => ?_)
  · funext st
    simp only [Functor.map, Run.bind]
    cases m st <;> rfl
  · funext st
    simp only [bind, Run.bind]
    cases m st <;> rfl

@[inline] def halt (why : Halt) : Run ι α := fun _ => .error why

@[inline] def change (f : Store ι → α × Store ι) : Run ι α := fun st => .ok (f st)

@[inline] def view (f : Store ι → α) : Run ι α := fun st => .ok (f st, st)

@[inline] def write (note : Option Note) : Run ι Unit := fun st => .ok ((), st.write note)

@[inline] def build {k : Kind ι} (plan : Plan k) : Run ι (Sequence k) := change plan.build

@[inline] def call (f : Fn α β) (x : α) : Run ι β := do
  write (f.note x)
  return f.apply x

end Run

end MemoSequence
