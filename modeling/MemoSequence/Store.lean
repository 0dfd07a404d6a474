import MemoSequence.Plan
set_option autoImplicit false

/-!
# Memo cells and their store

A cell keeps the plan it was made from, also after it has been forced, beside what is known of its
result. Cells are only ever added; `find?` reads a cell at the kind its handle was made with. The
journal collects the notes of the functions called so far.

A store that does not keep results computes a deferred part anew on each visit. Sessions run in a
store that keeps them; the other kind says what a sequence is without any memory.
-/
namespace MemoSequence

inductive Memo (α : Type) where
  | unforced
  | running
  | forced (value : α)

namespace Memo
variable {α : Type}

def value? : Memo α → Option α
  | .forced value => some value
  | _ => none

end Memo

structure Cell (ι : Type) [Basis ι] where
  kind : Kind ι
  plan : Plan kind
  memo : Memo (Sequence kind)

structure Store (ι : Type) [Basis ι] where
  cells : Array (Cell ι)
  journal : Array Note
  keeps : Bool

namespace Store
variable {ι : Type} [Basis ι]

def empty : Store ι := ⟨#[], #[], true⟩

/-- The empty store that keeps no results. -/
def forgetful : Store ι := ⟨#[], #[], false⟩

def find? (st : Store ι) (k : Kind ι) (id : Nat) : Option (Plan k × Memo (Sequence k)) :=
  match st.cells[id]? with
  | some cell => if h : cell.kind = k then some (h ▸ (cell.plan, cell.memo)) else none
  | none => none

/-- The value of a deferred part that has been forced already; asking forces nothing. -/
def peek? (st : Store ι) (k : Kind ι) (id : Nat) : Option (Sequence k) :=
  (st.find? k id).bind fun cell => cell.2.value?

def alloc {k : Kind ι} (st : Store ι) (plan : Plan k) : Sequence k × Store ι :=
  (.lazy st.cells.size, { st with cells := st.cells.push ⟨k, plan, .unforced⟩ })

def setMemo {k : Kind ι} (st : Store ι) (id : Nat) (plan : Plan k) (memo : Memo (Sequence k)) :
    Store ι :=
  if st.keeps then { st with cells := st.cells.setIfInBounds id ⟨k, plan, memo⟩ } else st

def write (st : Store ι) (note : Option Note) : Store ι :=
  match note with
  | some n => { st with journal := st.journal.push n }
  | none => st

end Store

/-- Makes the handles of a plan: every deferred part becomes a cell that waits. -/
def Plan.build {ι : Type} [Basis ι] {k : Kind ι} : Plan k → Store ι → Sequence k × Store ι
  | .given s, st => (s, st)
  | .cons head tail, st => match tail.build st with
    | (t, st) => (.one head t, st)
  | .append a b, st => match a.build st with
    | (s, st) => match b.build st with
      | (t, st) => (s.concat t, st)
  | .defer note body, st => st.alloc (.defer note body)
  | .map input f, st => match input.build st with
    | (s, st) => st.alloc (.map (.given s) f)
  | .mapPlan input f note, st => match input.build st with
    | (s, st) => st.alloc (.mapPlan (.given s) f note)
  | .flatten outer, st => match outer.build st with
    | (s, st) => st.alloc (.flatten (.given s))
  | .take input count, st => match input.build st with
    | (s, st) => if count = 0 then (.empty, st) else st.alloc (.take (.given s) count)
  | .takeWhile input p, st => match input.build st with
    | (s, st) => st.alloc (.takeWhile (.given s) p)
  | .skip input count, st => match input.build st with
    | (s, st) => st.alloc (.skip (.given s) count)
  | .scan input state step, st => match input.build st with
    | (s, st) => st.alloc (.scan (.given s) state step)
  | .stateScan input state step, st => match input.build st with
    | (s, st) => st.alloc (.stateScan (.given s) state step)

end MemoSequence
