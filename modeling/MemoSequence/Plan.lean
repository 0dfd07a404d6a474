import MemoSequence.Kind
set_option autoImplicit false

/-!
# Plans

A plan says how a sequence is to be made from existing ones; it is a pure value, and computes
nothing. `given`, `cons` and `append` are carried out as soon as a plan is built. Each of the
others becomes a deferred part: a memo cell that holds the plan until somebody asks for its first
element.

`mapPlan` and `stateScan` yield sequences of sequences; the usual flat forms (`flatMap`, `filter`,
`stateScanned`) follow them by `flatten`.
-/
namespace MemoSequence

variable {ι : Type} [Basis ι]

inductive Plan : Kind ι → Type 1 where
  | given {k : Kind ι} (s : Sequence k) : Plan k
  | cons {k : Kind ι} (head : El k) (tail : Plan k) : Plan k
  | append {k : Kind ι} (a b : Plan k) : Plan k
  | defer {k : Kind ι} (note : Option Note) (body : Unit → Plan k) : Plan k
  | map {a b : Kind ι} (input : Plan a) (f : Fn (El a) (El b)) : Plan b
  | mapPlan {a b : Kind ι} (input : Plan a) (f : El a → Plan b) (note : El a → Option Note) :
      Plan (.seq b)
  | flatten {k : Kind ι} (outer : Plan (.seq k)) : Plan k
  | take {k : Kind ι} (input : Plan k) (count : Nat) : Plan k
  | takeWhile {k : Kind ι} (input : Plan k) (p : Fn (El k) Bool) : Plan k
  | skip {k : Kind ι} (input : Plan k) (count : Nat) : Plan k
  | scan {a b : Kind ι} {σ : Type} (input : Plan a) (state : σ)
      (step : Fn (σ × El a) (El b × σ)) : Plan b
  | stateScan {a b : Kind ι} {σ : Type} (input : Plan a) (state : σ)
      (step : Fn (σ × El a) (List (El b) × σ)) : Plan (.seq b)

namespace Plan
variable {k a b : Kind ι}

def empty : Plan k := .given .empty

def single (x : El k) : Plan k := .given (.single x)

def ofList (elements : List (El k)) : Plan k := .given (.ofList elements)

def flatMap (input : Plan a) (f : El a → Plan b) (note : El a → Option Note) : Plan b :=
  .flatten (.mapPlan input f note)

def filter (input : Plan k) (p : Fn (El k) Bool) : Plan k :=
  input.flatMap (fun x => if p.apply x then .single x else .empty) p.note

/-- Every step sees the state and an element, and yields any number of outputs and the next state. -/
def stateScanned {σ : Type} (input : Plan a) (state : σ)
    (step : Fn (σ × El a) (List (El b) × σ)) : Plan b :=
  .flatten (.stateScan input state step)

def inclusiveScan (input : Plan a) (state : El b) (f : Fn (El b × El a) (El b)) : Plan b :=
  input.stateScanned state ⟨fun x => let next := f.apply x; ([next], next), f.note⟩

def exclusiveScan (input : Plan a) (state : El b) (f : Fn (El b × El a) (El b)) : Plan b :=
  input.stateScanned state ⟨fun x => ([x.1], f.apply x), f.note⟩

def terminated (input : Plan k) : Plan (.option k) :=
  .append (.map input (.silent some)) (.single none)

def entries (input : Plan k) : Plan (.pair .nat k) :=
  .scan input (0 : Nat) (.silent fun (index, x) => ((index, x), index + 1))

/-- A sequence of sequences, each made when it is reached. -/
def each (plans : Array (Unit → Plan k)) : Plan (.seq k) :=
  .mapPlan (.given (.upTo (some plans.size)) : Plan .nat)
    (fun (i : Nat) => match plans[i]? with
      | some plan => plan ()
      | none => .empty)
    fun _ => none

end Plan

end MemoSequence
