import MemoSequence.Shape
set_option autoImplicit false

namespace MemoSequence.Session

def remainder (x m : Int64) : Int64 :=
  let r := x % m
  if r < 0 then (if m < 0 then r - m else r + m) else r

inductive Unary where
  | id
  | add (k : Int64)
  | mul (k : Int64)
  | mod (k : Int64)
  | neg
  | square
  | const (k : Int64)

def Unary.apply : Unary → Int64 → Int64
  | id, x => x
  | add k, x => x + k
  | mul k, x => x * k
  | mod k, x => remainder x k
  | neg, x => -x
  | square, x => x * x
  | const k, _ => k

inductive Test where
  | gt (k : Int64)
  | lt (k : Int64)
  | eq (k : Int64)
  | mod (m r : Int64)
  | always
  | never

def Test.holds : Test → Int64 → Bool
  | gt k, x => k < x
  | lt k, x => x < k
  | eq k, x => x = k
  | mod m r, x => remainder x m = r
  | always, _ => true
  | never, _ => false

/-- The number that stands for an element: the integer itself, the size of a text in bytes, -1 for a
missing integer, and whether a sequence is empty. -/
def number : (shape : Shape) → El shape.kind → Int64
  | .int, n => n
  | .nat, n => Int64.ofNat n
  | .text, (s : String) => Int64.ofNat s.utf8ByteSize
  | .optional, (n : Option Int64) => n.getD (-1)
  | .entry, (_, n) => n
  | .nested, s => if s.isEmpty then 1 else 0

def Test.fn (test : Test) (shape : Shape) : Fn (El shape.kind) Bool :=
  .counted fun x => test.holds (number shape x)

inductive Combination where
  | add
  | sub
  | mul
  | max
  | min
  | left
  | right
  | poly
  | count

def Combination.apply : Combination → Int64 → Int64 → Int64
  | add, a, x => a + x
  | sub, a, x => a - x
  | mul, a, x => a * x
  | max, a, x => if a < x then x else a
  | min, a, x => if x < a then x else a
  | left, a, _ => a
  | right, _, x => x
  | poly, a, x => a * 31 + x
  | count, a, _ => a + 1

def Combination.fn (f : Combination) : Fn (Int64 × Int64) Int64 :=
  .counted fun (a, x) => f.apply a x

inductive Expansion where
  | none
  | one
  | copies (m : Int64)
  | triple
  | upTo (m : Int64)
  | cons
  | concat
  | defer
  | endless

def Expansion.plan : Expansion → Int64 → Plan .int
  | none, _ => .empty
  | one, x => .single x
  | copies m, x => .ofList (List.replicate (remainder x m).toInt.toNat x)
  | triple, x => .ofList [x, 2 * x, 3 * x]
  | upTo m, x =>
    .map (.given (.upTo (some (remainder x m).toInt.toNat)) : Plan .nat) (.silent Int64.ofNat)
  | cons, x => .cons x (.single (-x))
  | concat, x => .append (.ofList [x]) (.single (x + 1))
  | defer, x => .defer Option.none fun _ => .ofList [x, x]
  | endless, x => .given (.ofFn (.silent fun i => x + Int64.ofNat i))

inductive ScanStep where
  | offset (k : Int64)
  | phases
  | negate
  /-- The factors of a round, and those that are left of the present one. -/
  | cycle (factors ahead : List Int64)
  | delay (k : Int64)

def ScanStep.apply : ScanStep → Int64 → Int64 × ScanStep
  | offset k, x => (x + k, offset (k + 1))
  | phases, x => (x, negate)
  | negate, x => (-x, negate)
  | cycle factors (k :: ahead), x => (x * k, cycle factors ahead)
  | cycle (k :: ks) [], x => (x * k, cycle (k :: ks) ks)
  | cycle [] [], x => (x, cycle [] [])
  | delay k, x => (k, delay x)

def ScanStep.fn : Fn (ScanStep × Int64) (Int64 × ScanStep) := .counted fun (step, x) => step.apply x

def ScanStep.applyAll : ScanStep → List Int64 → List Int64
  | _, [] => []
  | step, x :: xs => match step.apply x with
    | (y, next) => y :: applyAll next xs

inductive StateStep where
  | max
  | delta
  | grow
  | copies
  | silent

def StateStep.apply : StateStep → Option Int64 → Int64 → List Int64 × Option Int64
  | max, state, x =>
    let greatest := match state with
      | some m => if m < x then x else m
      | none => x
    ([greatest], some greatest)
  | delta, state, x => (state.toList.map (x - ·), some x)
  | grow, state, x =>
    let n := state.getD 0
    (List.replicate (remainder n 4).toInt.toNat x, some (n + 1))
  | copies, state, x => (List.replicate (remainder x 4).toInt.toNat x, state)
  | silent, state, _ => ([], state)

def StateStep.fn (step : StateStep) : Fn (Option Int64 × Int64) (List Int64 × Option Int64) :=
  .counted fun (state, x) => step.apply state x

/-- The steps of state scans over integers and end marks, which hold something back until a mark or
an element lets it go. -/
inductive HeldStep where
  | runs
  | chunks (n : Nat)
  | total

/-- What is held back: a value and how often it has been seen in a row, the elements of a chunk with
the latest first, or how many elements there were and their sum. -/
@[reducible] def HeldStep.Held : HeldStep → Type
  | runs => Option (Int64 × Int64)
  | chunks _ => Stack Int64
  | total => Int64 × Int64

def HeldStep.start : (step : HeldStep) → step.Held
  | runs => none
  | chunks _ => .empty
  | total => (0, 0)

def HeldStep.apply : (step : HeldStep) → step.Held → Option Int64 → List Int64 × step.Held
  | runs, none, some x => ([], some (x, 1))
  | runs, some (y, n), some x =>
    if y = x then ([], some (x, n + 1)) else ([y, n], some (x, 1))
  | runs, some (y, n), none => ([y, n], none)
  | runs, none, none => ([], none)
  | chunks n, held, some x =>
    let chunk := Stack.push held x
    if n ≤ chunk.height then (chunk.items, .empty) else ([], chunk)
  | chunks _, held, none => (Stack.items held, .empty)
  | total, (n, sum), some x => ([], (n + 1, sum + x))
  | total, (n, sum), none => ([n, sum], (n, sum))

def HeldStep.fn (step : HeldStep) : Fn (step.Held × Option Int64) (List Int64 × step.Held) :=
  .counted fun (held, x) => step.apply held x

end MemoSequence.Session
