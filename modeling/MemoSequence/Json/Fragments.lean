import MemoSequence.Json.Parser
import MemoSequence.Json.Text
import MemoSequence.Joined
set_option autoImplicit false

namespace MemoSequence

namespace Json

def separated (items : Plan (.seq .text)) : Plan .text :=
  .flatten (.scan items true (.silent fun (first, item) =>
    (if first then item else (Node.single ",").concat item, false)))

def wrapped (opening closing : String) (items : Plan (.seq .text)) : Plan .text :=
  .append (.append (.single opening) (separated items)) (.single closing)

def primitive : Json → String
  | .null => "null"
  | .bool true => "true"
  | .bool false => "false"
  | .number value => value.write
  | .text value => Quoted.write value
  | .array _ | .object _ => ""

mutual

def fragments : Json → Plan .text
  | .array items => wrapped "[" "]" (.each (itemFragments items).toArray)
  | .object members =>
    wrapped "\x7b" "\x7d" (.each ((Members.sort (memberFragments members)).map (·.2)).toArray)
  | value => .single (primitive value)

def itemFragments : List Json → List (Unit → Plan .text)
  | [] => []
  | item :: items => (fun _ => fragments item) :: itemFragments items

def memberFragments : List (String × Json) → List (String × (Unit → Plan .text))
  | [] => []
  | (key, value) :: members =>
    (key, fun _ => .append (.ofList [Quoted.write key, ":"]) (fragments value)) ::
      memberFragments members

end

def stringify (fuel : Nat) (value : Json) : Run Atom String := do
  let s ← Run.build (fragments value)
  Sequence.join "" fuel s

def canonicalize (fuel : Nat) (text : String) : Except ParseError (Run Atom String) :=
  (parse text).map (stringify fuel)

end Json

end MemoSequence
