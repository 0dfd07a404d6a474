import MemoSequence.Session.Step
import MemoSequence.Joined
set_option autoImplicit false

namespace MemoSequence.Session

structure Register where
  shape : Shape
  sequence : Sequence shape.kind

structure Draft where
  shape : Shape
  plan : Plan shape.kind

abbrev Registers := List (String × Register)

def Literal.element? : (shape : Shape) → Literal → Option (El shape.kind)
  | .int, .number n => some (Int64.ofInt n)
  | .nat, .number n => some n.toNat
  | .text, .text s => some s
  | .optional, .number n => some (some (Int64.ofInt n))
  | .optional, .missing => some none
  | .entry, .list [i, n] => some (i.toNat, Int64.ofInt n)
  | .nested, .list ns => some (.ofList (ns.map Int64.ofInt))
  | _, _ => none

def Item.ofElement (fuel : Nat) : (shape : Shape) → El shape.kind → Run Atom Item
  | .int, n => return .int n
  | .nat, n => return .nat n
  | .text, s => return .text s
  | .optional, n => return .optional n
  | .entry, (i, n) => return .entry i n
  | .nested, s => return .nested (← Sequence.toList fuel s)

def itemsOf (fuel : Nat) (shape : Shape) (elements : List (El shape.kind)) :
    Run Atom (List Item) :=
  elements.mapM (Item.ofElement fuel shape)

def answerItems (fuel : Nat) (shape : Shape) (elements : List (El shape.kind)) :
    Run Atom Answer :=
  return .items (← itemsOf fuel shape elements)

def answerElement (fuel : Nat) (shape : Shape) : Option (El shape.kind) → Run Atom Answer
  | some x => return .element (some (← Item.ofElement fuel shape x))
  | none => return .element none

def Origin.register? : Origin → Option Register
  | .elements shape items => do
    let elements ← items.mapM (Literal.element? shape)
    return ⟨shape, .ofList elements⟩
  | .single shape item => do return ⟨shape, .single (← item.element? shape)⟩
  | .upTo limit => some ⟨.nat, .upTo limit⟩
  | .rule f => some ⟨.int, .ofFn (.counted fun i => f.apply (Int64.ofNat i))⟩

def Registers.find? (registers : Registers) (shape : Shape) (name : String) :
    Option (Sequence shape.kind) :=
  match Members.find? name registers with
  | some register => if h : register.shape = shape then some (h ▸ register.sequence) else none
  | none => none

def Growth.round (how : Growth) (i : Nat) (s : Sequence .int) : Plan .int :=
  let x := Int64.ofNat i
  match how with
  | append => .append (.given s) (.single x)
  | prepend => .append (.single x) (.given s)
  | emptyLeft => .append .empty (.given s)
  | emptyRight => .append (.given s) .empty
  | both => .append (.append (.single x) (.single (-x : Int64))) (.append (.given s) (.single x))
  | cons => .cons x (.given s)
  | defer => .defer none fun _ => .given s
  | map => .map (.given s) (.silent fun (y : Int64) => y + 1)
  | skip => .skip (.given s) 1
  | take => .take (.given s) (i + 1)

def Growth.grow (how : Growth) : (rounds i : Nat) → Sequence .int → Run Atom (Sequence .int)
  | 0, _, s => return s
  | rounds + 1, i, s => do how.grow rounds (i + 1) (← Run.build (how.round i s))

def Derivation.draft? (registers : Registers) : Derivation → Register → Option Draft
  | copy, ⟨shape, s⟩ => some ⟨shape, .given s⟩
  | cons item, ⟨shape, s⟩ => (item.element? shape).map fun x => ⟨shape, .cons x (.given s)⟩
  | concat other, ⟨shape, s⟩ =>
    (registers.find? shape other).map fun t => ⟨shape, .append (.given s) (.given t)⟩
  | concatAll others, ⟨shape, s⟩ =>
    (others.mapM (registers.find? shape)).map fun ts => ⟨shape, .given (.concatAll (s :: ts))⟩
  | defer, ⟨shape, s⟩ => some ⟨shape, .defer (some 0) fun _ => .given s⟩
  | take count, ⟨shape, s⟩ => some ⟨shape, .take (.given s) count⟩
  | skip count, ⟨shape, s⟩ => some ⟨shape, .skip (.given s) count⟩
  | filter test, ⟨shape, s⟩ => some ⟨shape, .filter (.given s) (test.fn shape)⟩
  | takeWhile test, ⟨shape, s⟩ => some ⟨shape, .takeWhile (.given s) (test.fn shape)⟩
  | numbers, ⟨shape, s⟩ => some ⟨.int, .map (.given s) (.counted (number shape))⟩
  | map f, ⟨.int, s⟩ => some ⟨.int, .map (.given s) (.counted f.apply)⟩
  | flatMap f, ⟨.int, s⟩ => some ⟨.int, .flatMap (.given s) f.plan fun _ => some 0⟩
  | mapToSequences f, ⟨.int, s⟩ => some ⟨.nested, .mapPlan (.given s) f.plan fun _ => some 0⟩
  | nest others, ⟨.int, s⟩ =>
    (others.mapM (registers.find? .int)).map fun ts => ⟨.nested, .ofList (s :: ts)⟩
  | flatten, ⟨.nested, s⟩ => some ⟨.int, .flatten (.given s)⟩
  | shown, ⟨.int, s⟩ => some ⟨.text, .map (.given s) (.counted Shape.intText)⟩
  | scan step, ⟨.int, s⟩ => some ⟨.int, .scan (.given s) step ScanStep.fn⟩
  | separated separator, ⟨.int, s⟩ =>
    some ⟨.text, .scan (.given s) true (.counted fun (first, x) =>
      (if first then Shape.intText x else separator ++ Shape.intText x, false))⟩
  | stateScan step state, ⟨.int, s⟩ => some ⟨.int, .stateScanned (.given s) state step.fn⟩
  | heldScan step, ⟨.optional, s⟩ => some ⟨.int, .stateScanned (.given s) step.start step.fn⟩
  | inclusiveScan f start, ⟨.int, s⟩ => some ⟨.int, .inclusiveScan (.given s) start f.fn⟩
  | exclusiveScan f start, ⟨.int, s⟩ => some ⟨.int, .exclusiveScan (.given s) start f.fn⟩
  | terminated, ⟨.int, s⟩ => some ⟨.optional, .terminated (.given s)⟩
  | entries, ⟨.int, s⟩ => some ⟨.entry, .entries (.given s)⟩
  | _, _ => none

/-- Two extractions that go on in turn, each until it has come to its end. -/
def alternate (fuel : Nat) {k : Kind Atom} : (count : Nat) → (a b : Option (Sequence k)) →
    (seenA seenB : Array (El k)) → Run Atom (List (El k) × List (El k))
  | 0, _, _, seenA, seenB => return (seenA.toList, seenB.toList)
  | count + 1, a, b, seenA, seenB => do
    let (a, seenA) ← advance a seenA
    let (b, seenB) ← advance b seenB
    if a.isNone && b.isNone then return (seenA.toList, seenB.toList)
    alternate fuel count a b seenA seenB
where
  advance (s : Option (Sequence k)) (seen : Array (El k)) :
      Run Atom (Option (Sequence k) × Array (El k)) :=
    match s with
    | none => return (none, seen)
    | some s => do
      match ← Sequence.next fuel s with
      | some (x, tail) => return (some tail, seen.push x)
      | none => return (none, seen)

def Observation.answer (fuel : Nat) : Observation → Register → Run Atom Answer
  | isEmpty, ⟨_, s⟩ => return .flag s.isEmpty
  | isUnbounded, ⟨_, s⟩ => return .flag (← Run.view (·.isUnbounded s))
  | debug, ⟨_, s⟩ => return .text s.describe
  | first, ⟨shape, s⟩ => do answerElement fuel shape (← Sequence.first? fuel s)
  | last, ⟨shape, s⟩ => do answerElement fuel shape (← Sequence.last? fuel s)
  | count, ⟨_, s⟩ => return .natural (← Sequence.count fuel s)
  | toList, ⟨shape, s⟩ => do answerItems fuel shape (← Sequence.toList fuel s)
  | tryToList, ⟨shape, s⟩ => do
    match ← Sequence.tryToList fuel s with
    | .ok elements => answerItems fuel shape elements
    | .error refusal => return .refused refusal
  | toListBounded limit, ⟨shape, s⟩ => do
    match ← Sequence.toListBounded limit fuel s with
    | .ok elements => answerItems fuel shape elements
    | .error refusal => return .refused refusal
  | iterate n, ⟨shape, s⟩ => do
    answerItems fuel shape (← Sequence.extract fuel n #[] s).1
  | iterateDebug n, ⟨shape, s⟩ => do
    let (elements, rest) ← Sequence.extract fuel n #[] s
    return .progress (← itemsOf fuel shape elements) rest.describeRest
  | chains n, ⟨shape, s⟩ => do
    let (a, b) ← alternate fuel n (some s) (some s) #[] #[]
    return .chains (← itemsOf fuel shape a) (← itemsOf fuel shape b)
  | fold f start, ⟨shape, s⟩ =>
    return .integer
      (← Sequence.fold (.counted fun (acc, x) => f.apply acc (number shape x)) start fuel s)
  | all test, ⟨shape, s⟩ => return .flag (← Sequence.all (test.fn shape) fuel s)
  | any test, ⟨shape, s⟩ => return .flag (← Sequence.any (test.fn shape) fuel s)
  | find test, ⟨shape, s⟩ => do
    answerElement fuel shape (← Sequence.find? (test.fn shape) fuel s)
  | serialize, ⟨shape, s⟩ => do
    match ← shape.serialize fuel s with
    | .ok text => return .written text
    | .error refusal => return .notWritten refusal
  | reduce f, ⟨.int, s⟩ => do answerElement fuel .int (← Sequence.reduce? (k := .int) f.fn fuel s)
  | reduce _, ⟨.text, s⟩ => do
    answerElement fuel .text
      (← Sequence.reduce? (k := .text) (.silent fun ((a : String), (b : String)) => a ++ "|" ++ b)
        fuel s)
  | join separator, ⟨.text, s⟩ => return .text (← Sequence.join separator fuel s)
  | _, _ => return .misfit

def ScanStep.describe (_ : ScanStep) : String := "Scan"

def perform (fuel : Nat) (registers : Registers) : Step → Run Atom (Answer × Registers)
  | .make target origin => return match origin.register? with
    | some register => (.set register.sequence.isEmpty, Members.insert target register registers)
    | none => (.misfit, registers)
  | .read target shape text => return match shape.deserialize text with
    | .ok s => (.set s.isEmpty, Members.insert target ⟨shape, s⟩ registers)
    | .error e => (.unreadable e.cause.category, registers)
  | .derive source target derivation => do
    match (Members.find? source registers).bind (derivation.draft? registers) with
    | some ⟨shape, plan⟩ =>
      let s ← Run.build plan
      return (.set s.isEmpty, Members.insert target ⟨shape, s⟩ registers)
    | none => return (.misfit, registers)
  | .grow source target how rounds => do
    match registers.find? .int source with
    | some s =>
      let s ← how.grow rounds 0 s
      return (.set s.isEmpty, Members.insert target ⟨.int, s⟩ registers)
    | none => return (.misfit, registers)
  | .next source target => do
    match Members.find? source registers with
    | some ⟨shape, s⟩ =>
      match ← Sequence.next fuel s with
      | some (head, tail) =>
        return (.next (← Item.ofElement fuel shape head) tail.isEmpty,
          Members.insert target ⟨shape, tail⟩ registers)
      | none => return (.exhausted, registers)
    | none => return (.misfit, registers)
  | .observe source observation => do
    match Members.find? source registers with
    | some register => return (← observation.answer fuel register, registers)
    | none => return (.misfit, registers)
  | .apply step inputs => do
    inputs.forM fun _ => Run.write (some 0)
    return (.applied (step.applyAll inputs) step.describe, registers)
  | .forget name =>
    return (.flag (Members.find? name registers).isSome, Members.erase name registers)
  | .calls => return (.natural (← Run.view (·.journal.size)), registers)

def performAll (fuel : Nat) : Registers → List Step → (answers : Array Answer) →
    Run Atom (List Answer)
  | _, [], answers => return answers.toList
  | registers, step :: steps, answers => do
    let (answer, registers) ← perform fuel registers step
    performAll fuel registers steps (answers.push answer)

def answers (fuel : Nat) (steps : List Step) : Except Halt (List Answer) :=
  (performAll fuel [] steps #[] Store.empty).map (·.1)

end MemoSequence.Session
