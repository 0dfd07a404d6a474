import MemoSequence.Run
set_option autoImplicit false

/-!
# Extraction

`next` gives the first element of a sequence and the sequence of the others. It visits nodes with a
list of opened queues, innermost first, so that at any time the elements still to come are those of
the current node followed by those of the opened queues. A deferred part is forced once: its cell
keeps the result. Every turn of this loop takes one unit of fuel, and what a turn calls gets the fuel
that is left.

`unfold` makes the node that a plan stands for, and takes the extraction of its inputs as a
parameter.
-/
namespace MemoSequence

variable {ι : Type} [Basis ι]

/-- An extraction: the first element and the rest, or nothing when there is no element. -/
abbrev Extraction (ι : Type) [Basis ι] : Type 1 :=
  (k : Kind ι) → Sequence k → Run ι (Option (El k × Sequence k))

def Sequence.advance {k : Kind ι} (next : Extraction ι) : Nat → Sequence k → Run ι (Sequence k)
  | 0, s => pure s
  | count + 1, s => do
    match ← next k s with
    | some (_, tail) => Sequence.advance next count tail
    | none => return .empty

/-- The node that a plan stands for: deferred plans ask their input for at most what decides about
their own first element, and leave the others to a new cell. -/
def Plan.unfold (next : Extraction ι) : {k : Kind ι} → Plan k → Run ι (Sequence k)
  | _, .given s => pure s
  | _, .cons head tail => Run.build (.cons head tail)
  | _, .append a b => Run.build (.append a b)
  | _, .defer note body => do
    Run.write note
    Run.build (body ())
  | _, .map (a := a) input f => do
    match ← next a (← Run.build input) with
    | some (x, tail) =>
      let y ← Run.call f x
      Run.build (.cons y (.map (.given tail) f))
    | none => return .empty
  | _, .mapPlan (a := a) input f note => do
    match ← next a (← Run.build input) with
    | some (x, tail) =>
      Run.write (note x)
      let inner ← Run.build (f x)
      Run.build (.cons inner (.mapPlan (.given tail) f note))
    | none => return .empty
  | k, .flatten outer => do
    match ← next (.seq k) (← Run.build outer) with
    | some (inner, rest) => Run.build (.append (.given inner) (.flatten (.given rest)))
    | none => return .empty
  | k, .take input count => do
    match ← next k (← Run.build input) with
    | some (x, tail) => Run.build (.cons x (.take (.given tail) (count - 1)))
    | none => return .empty
  | k, .takeWhile input p => do
    match ← next k (← Run.build input) with
    | some (x, tail) =>
      if ← Run.call p x then Run.build (.cons x (.takeWhile (.given tail) p))
      else return .empty
    | none => return .empty
  | _, .skip input count => do
    Sequence.advance next count (← Run.build input)
  | _, .scan (a := a) input state step => do
    match ← next a (← Run.build input) with
    | some (x, tail) =>
      let (y, state) ← Run.call step (state, x)
      Run.build (.cons y (.scan (.given tail) state step))
    | none => return .empty
  | _, .stateScan (a := a) input state step => do
    match ← next a (← Run.build input) with
    | some (x, tail) =>
      let (outputs, state) ← Run.call step (state, x)
      Run.build (.cons (.ofList outputs) (.stateScan (.given tail) state step))
    | none => return .empty

/-- The value of cell `id`, made by `unfold` on the first demand and kept from then on. -/
def Run.force (unfold : {k : Kind ι} → Plan k → Run ι (Sequence k)) (k : Kind ι) (id : Nat) :
    Run ι (Sequence k) := fun st =>
  match st.find? k id with
  | none => .error .dangling
  | some (plan, memo) => match memo with
    | .forced value => .ok (value, st)
    | .running => .error .reentered
    | .unforced => match unfold plan (st.setMemo id plan .running) with
      | .ok (value, st) => .ok (value, st.setMemo id plan (.forced value))
      | .error halt => .error halt

/-- What one turn of the loop comes to: an answer, or a node and opened queues to go on with. -/
inductive Turn (k : Kind ι) where
  | found (answer : Option (El k × Sequence k))
  | onward (current : Sequence k) (opened : List (Segments (Sequence k)))

def Turn.ofPending {k : Kind ι} : Option (Sequence k × List (Segments (Sequence k))) → Turn k
  | none => .found none
  | some (part, opened) => .onward part opened

/-- One turn: a visit of `current`, with the queues that were opened on the way, innermost first. -/
def Sequence.turn {k : Kind ι} (force : Nat → Run ι (Sequence k)) (current : Sequence k)
    (opened : List (Segments (Sequence k))) : Run ι (Turn k) :=
  match current with
  | .empty => return .ofPending (Node.popPending opened)
  | .one head tail => return .found (some (head, Node.reattach tail opened))
  | .generated index limit source => match source.at? index with
    | none => Run.halt .outOfBounds
    | some head => do
      Run.write (source.note index)
      return .found (some (head, Node.reattach (Node.following index limit source) opened))
  | .lazy id => do return .onward (← force id) opened
  | .composite parts =>
    return .ofPending (Node.popPending (parts :: opened.dropWhile Segments.isEmpty))

def Sequence.visit {k : Kind ι} : Nat → Sequence k → List (Segments (Sequence k)) →
    Run ι (Option (El k × Sequence k))
  | 0, _, _ => Run.halt .outOfFuel
  | fuel + 1, current, opened => do
    let force := Run.force (Plan.unfold fun _ s => Sequence.visit fuel s []) k
    match ← Sequence.turn force current opened with
    | .found answer => return answer
    | .onward current opened => Sequence.visit fuel current opened

def Sequence.next {k : Kind ι} (fuel : Nat) (s : Sequence k) : Run ι (Option (El k × Sequence k)) :=
  Sequence.visit fuel s []

end MemoSequence
