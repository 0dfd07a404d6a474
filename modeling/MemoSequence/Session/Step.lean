import MemoSequence.Session.Functions
set_option autoImplicit false

namespace MemoSequence.Session

inductive Literal where
  | missing
  | number (value : Int)
  | text (value : String)
  | list (values : List Int)

inductive Item where
  | int (value : Int64)
  | nat (value : Nat)
  | text (value : String)
  | optional (value : Option Int64)
  | entry (index : Nat) (value : Int64)
  | nested (elements : List Int64)

inductive Origin where
  | elements (shape : Shape) (items : List Literal)
  | single (shape : Shape) (item : Literal)
  | upTo (limit : Option Nat)
  | rule (f : Unary)

/-- How a round of growth makes a sequence of the one before it; the rounds are counted from zero. -/
inductive Growth where
  | append
  | prepend
  | emptyLeft
  | emptyRight
  | both
  | cons
  | defer
  | map
  | skip
  | take

inductive Derivation where
  | copy
  | cons (item : Literal)
  | concat (other : String)
  | concatAll (others : List String)
  | defer
  | take (count : Nat)
  | skip (count : Nat)
  | filter (test : Test)
  | takeWhile (test : Test)
  | numbers
  | map (f : Unary)
  | flatMap (f : Expansion)
  | mapToSequences (f : Expansion)
  | nest (others : List String)
  | flatten
  | shown
  | scan (step : ScanStep)
  | separated (separator : String)
  | stateScan (step : StateStep) (state : Option Int64)
  | heldScan (step : HeldStep)
  | inclusiveScan (f : Combination) (start : Int64)
  | exclusiveScan (f : Combination) (start : Int64)
  | terminated
  | entries

inductive Observation where
  | isEmpty
  | isUnbounded
  | debug
  | first
  | last
  | count
  | toList
  | tryToList
  | toListBounded (limit : Nat)
  | iterate (count : Nat)
  | iterateDebug (count : Nat)
  | chains (count : Nat)
  | fold (f : Combination) (start : Int64)
  | all (test : Test)
  | any (test : Test)
  | find (test : Test)
  | serialize
  /-- Combines integers by `f`, and texts by writing a bar between them. -/
  | reduce (f : Combination)
  | join (separator : String)

inductive Step where
  | make (target : String) (origin : Origin)
  | read (target : String) (shape : Shape) (text : String)
  | derive (source target : String) (derivation : Derivation)
  | grow (source target : String) (how : Growth) (rounds : Nat)
  | next (source target : String)
  | observe (source : String) (observation : Observation)
  | apply (step : ScanStep) (inputs : List Int64)
  | forget (name : String)
  | calls

inductive Answer where
  | set (empty : Bool)
  | unreadable (category : FaultCategory)
  | exhausted
  | next (head : Item) (tailEmpty : Bool)
  | flag (value : Bool)
  | text (value : String)
  | natural (value : Nat)
  | integer (value : Int64)
  | element (item : Option Item)
  | items (items : List Item)
  | refused (refusal : Refusal)
  | progress (items : List Item) (rest : String)
  | chains (first second : List Item)
  | written (text : String)
  | notWritten (refusal : Refusal)
  | applied (outputs : List Int64) (step : String)
  /-- The step names no register, or one of another kind. -/
  | misfit

end MemoSequence.Session
