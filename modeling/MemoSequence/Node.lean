import MemoSequence.Segments
import MemoSequence.Fn
set_option autoImplicit false

/-!
# Sequence values

A node is one immutable view of a sequence: nothing, an element before the rest, a queue of parts
still to be visited, a numbered source from some index on, or a deferred part. A deferred part is
named by the number of its memo cell; what the cell holds is the store's business.

`concat` keeps chains flat: an operand that already is a composite takes the other one into its
queue. A node made by these functions holds no empty queue and no exhausted source.
-/
namespace MemoSequence

inductive Source (α : Type) where
  | slice (elements : Array α)
  | rule (f : Fn Nat α)

namespace Source
variable {α : Type}

def at? (source : Source α) (index : Nat) : Option α :=
  match source with
  | .slice elements => elements[index]?
  | .rule f => some (f.apply index)

def note (source : Source α) (index : Nat) : Option Note :=
  match source with
  | .slice _ => none
  | .rule f => f.note index

end Source

inductive Node (α : Type) where
  | empty
  | one (head : α) (tail : Node α)
  | composite (parts : Segments (Node α))
  | generated (index : Nat) (limit : Option Nat) (source : Source α)
  | lazy (cell : Nat)

namespace Node
variable {α : Type}

def isEmpty : Node α → Bool
  | .empty => true
  | _ => false

def form : Node α → String
  | .empty => "Empty"
  | .one _ _ => "One"
  | .composite _ => "Composite"
  | .generated _ _ _ => "Generated"
  | .lazy _ => "Lazy"

def describe (s : Node α) : String := "Sequence(\"" ++ s.form ++ "\")"

def describeRest (s : Node α) : String := "Iter \x7b rest: " ++ s.describe ++ " \x7d"

def single (x : α) : Node α := .one x .empty

def ofArray (elements : Array α) : Node α :=
  if elements.isEmpty then .empty else .generated 0 (some elements.size) (.slice elements)

def ofList (elements : List α) : Node α := ofArray elements.toArray

def ofFn (f : Fn Nat α) : Node α := .generated 0 none (.rule f)

def upTo (limit : Option Nat) : Node Nat :=
  if limit = some 0 then .empty else .generated 0 limit (.rule (.silent id))

def ofSegments (parts : Segments (Node α)) : Node α :=
  if parts.isEmpty then .empty else .composite parts

def concat (a b : Node α) : Node α :=
  match a, b with
  | .empty, b => b
  | a, .empty => a
  | .composite parts, b => ofSegments (parts.pushBack b)
  | a, .composite parts => ofSegments (parts.pushFront a)
  | a, b => ofSegments (.pair a b)

def concatAll (sequences : List (Node α)) : Node α := sequences.foldl concat .empty

/-- What follows element `index` of a numbered source. -/
def following (index : Nat) (limit : Option Nat) (source : Source α) : Node α :=
  match limit with
  | some l => if l ≤ index + 1 then .empty else .generated (index + 1) limit source
  | none => .generated (index + 1) none source

def popPending : List (Segments (Node α)) → Option (Node α × List (Segments (Node α)))
  | [] => none
  | top :: outer => match top.popFront? with
    | some (part, rest) => some (part, rest :: outer)
    | none => popPending outer

/-- `tail` followed by what the open queues still hold, innermost first. -/
def reattach (tail : Node α) (opened : List (Segments (Node α))) : Node α :=
  opened.foldl (fun rest pending => rest.concat (ofSegments pending)) tail

end Node

end MemoSequence
