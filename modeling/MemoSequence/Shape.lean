import MemoSequence.Element
import MemoSequence.Consume
import MemoSequence.Json.Text
import MemoSequence.Json.Typed
set_option autoImplicit false

namespace MemoSequence

inductive Shape where
  | int
  | nat
  | text
  | optional
  | entry
  | nested
  deriving DecidableEq, Repr

namespace Shape

@[reducible] def kind : Shape → Kind Atom
  | int => .int
  | nat => .nat
  | text => .text
  | optional => .option .int
  | entry => .pair .nat .int
  | nested => .seq .int

end Shape

def Sequence.serialize {ι : Type} [Basis ι] {k : Kind ι}
    (item : El k → Run ι (Except Refusal String)) (fuel : Nat) (s : Sequence k) :
    Run ι (Except Refusal String) := do
  if ← Run.view (·.isUnbounded s) then return .error .unbounded
  let pieces ← Sequence.traverse
    (fun pieces x => match pieces with
      | .error refusal => return .done (.error refusal)
      | .ok pieces => do
        match ← item x with
        | .ok piece => return .yield (.ok (pieces.push piece))
        | .error refusal => return .done (.error refusal))
    fuel (.ok #[] : Except Refusal (Array String)) s
  return pieces.map fun pieces => "[" ++ ",".intercalate pieces.toList ++ "]"

namespace Shape

def intText (n : Int64) : String := (Number.integer n.toInt).write

def natText (n : Nat) : String := (Number.integer n).write

def optionalText : Option Int64 → String
  | none => "null"
  | some n => intText n

def write (fuel : Nat) : (shape : Shape) → El shape.kind → Run Atom (Except Refusal String)
  | int, n => return .ok (intText n)
  | nat, n => return .ok (natText n)
  | text, s => return .ok (Quoted.write s)
  | optional, n => return .ok (optionalText n)
  | entry, (i, n) => return .ok ("[" ++ natText i ++ "," ++ intText n ++ "]")
  | nested, s => Sequence.serialize (fun n => return .ok (intText n)) fuel s

def reader : (shape : Shape) → Reader (El shape.kind)
  | int => Typed.int64
  | nat => Typed.nat64
  | text => Typed.text
  | optional => Typed.optional Typed.int64
  | entry => Typed.pair Typed.nat64 Typed.int64
  | nested => do return .ofList (← Typed.list Typed.int64)

def serialize (shape : Shape) (fuel : Nat) (s : Sequence shape.kind) :
    Run Atom (Except Refusal String) :=
  Sequence.serialize (shape.write fuel) fuel s

def deserialize (shape : Shape) (text : String) : Except ParseError (Sequence shape.kind) :=
  (Reader.run (Typed.list shape.reader) text).map .ofList

end Shape

end MemoSequence
