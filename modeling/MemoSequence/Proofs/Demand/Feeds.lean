import MemoSequence.Proofs.ComputedOnce
import MemoSequence.Proofs.Demand.Parts
set_option autoImplicit false

namespace MemoSequence

variable {ι : Type} [Basis ι]

/-- An element as it is, a sequence that is built when its turn comes, or an element of which nothing is
known. -/
inductive Val : Kind ι → Type 1
  | here {k : Kind ι} (x : El k) : Val k
  | built {k : Kind ι} (p : Plan k) : Val (.seq k)
  | anything {k : Kind ι} : Val k

/-- A deferred part that asks its input for one element; `take more` is good for `more + 1` of them. -/
inductive Stage : Kind ι → Kind ι → Type 1
  | worker {a k : Kind ι} {σ : Type} (W : Worker a k σ) (note : σ × El a → Option Note) (state : σ) :
      Stage a k
  | mapPlan {a k : Kind ι} (f : El a → Plan k) (note : El a → Option Note) : Stage a (.seq k)
  | flatten {k : Kind ι} : Stage (.seq k) k
  | take {k : Kind ι} (more : ℕ) : Stage k k

def Stage.plan {a k : Kind ι} : Stage a k → Sequence a → Plan k
  | .worker W note state, t => W.plan note t state
  | .mapPlan f note, t => .mapPlan (.given t) f note
  | .flatten, t => .flatten (.given t)
  | .take more, t => .take (.given t) (more + 1)

inductive Feed : Kind ι → Type 1
  | nil {k : Kind ι} : Feed k
  | item {k : Kind ι} (v : Val k) (rest : Feed k) : Feed k
  | numbered {k : Kind ι} (index : ℕ) (limit : Option ℕ) (source : Source (El k)) (rest : Feed k) : Feed k
  | stage {a k : Kind ι} (S : Stage a k) (input : Feed a) (rest : Feed k) : Feed k
  | skip {k : Kind ι} (input : Feed k) (count : ℕ) (rest : Feed k) : Feed k

namespace Feed
variable {a k : Kind ι}

def append {k : Kind ι} : Feed k → Feed k → Feed k
  | .nil, G => G
  | .item v rest, G => .item v (rest.append G)
  | .numbered index limit source rest, G => .numbered index limit source (rest.append G)
  | .stage S input rest, G => .stage S input (rest.append G)
  | .skip input count rest, G => .skip input count (rest.append G)

def through (S : Stage a k) (input : Feed a) : Feed k := .stage S input .nil

@[simp] theorem append_nil (F : Feed k) : F.append .nil = F := by
  induction F with
  | nil => rfl
  | item v rest ih => rw [append, ih]
  | numbered index limit source rest ih => rw [append, ih]
  | stage S input rest _ ih => rw [append, ih]
  | skip input count rest _ ih => rw [append, ih]

theorem append_assoc (F G H : Feed k) : (F.append G).append H = F.append (G.append H) := by
  induction F with
  | nil => rfl
  | item v rest ih => rw [append, append, append, ih]
  | numbered index limit source rest ih => rw [append, append, append, ih]
  | stage S input rest _ ih => rw [append, append, append, ih]
  | skip input count rest _ ih => rw [append, append, append, ih]

def ofParts : List (Part (El k)) → Feed k
  | [] => .nil
  | .item x :: rest => .item (.here x) (ofParts rest)
  | .numbered index limit source :: rest => .numbered index limit source (ofParts rest)
  | .cell _ :: rest => ofParts rest

end Feed

def Node.Closed {α : Type} (s : Node α) : Prop := ∀ id, Part.cell id ∉ s.parts

theorem Node.closed_ofFn {α : Type} (f : Fn ℕ α) : (Node.ofFn f).Closed := by
  simp [Node.Closed, Node.ofFn]

theorem Node.closed_single {α : Type} (x : α) : (Node.single x).Closed := by
  simp [Node.Closed, Node.single]

namespace Plan
variable {k : Kind ι}

/-- Nothing that is given to the plan has deferred parts. -/
def Closed {k : Kind ι} : Plan k → Prop
  | .given s => s.Closed
  | .cons _ tail => tail.Closed
  | .append a b => a.Closed ∧ b.Closed
  | .defer _ _ => False
  | .map input _ => input.Closed
  | .mapPlan input _ _ => input.Closed
  | .flatten outer => outer.Closed
  | .take input _ => input.Closed
  | .takeWhile input _ => input.Closed
  | .skip input _ => input.Closed
  | .scan input _ _ => input.Closed
  | .stateScan input _ _ => input.Closed

def feed {k : Kind ι} : Plan k → Feed k
  | .given s => .ofParts s.parts
  | .cons head tail => .item (.here head) tail.feed
  | .append a b => a.feed.append b.feed
  | .defer _ _ => .nil
  | .map input f => .through (.worker (.map f.apply) (fun call => f.note call.2) ()) input.feed
  | .mapPlan input f note => .through (.mapPlan f note) input.feed
  | .flatten outer => .through .flatten outer.feed
  | .take _ 0 => .nil
  | .take input (more + 1) => .through (.take more) input.feed
  | .takeWhile input p => .through (.worker (.takeWhile p.apply) (fun call => p.note call.2) ()) input.feed
  | .skip input count => .skip input.feed count .nil
  | .scan input state step => .through (.worker (.scan step.apply) step.note state) input.feed
  | .stateScan input state step => .through (.worker (.stateScan step.apply) step.note state) input.feed

end Plan

end MemoSequence
