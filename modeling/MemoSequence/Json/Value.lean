import MemoSequence.Binary64.Basic
import MemoSequence.Members
set_option autoImplicit false

namespace MemoSequence

inductive Number where
  | integer (value : Int)
  | real (value : Binary64)
  deriving DecidableEq, Repr

inductive Json where
  | null
  | bool (value : Bool)
  | number (value : Number)
  | text (value : String)
  | array (items : List Json)
  | object (members : List (String × Json))

namespace Json

/-- The members of an object; anything else, and nothing, has none. -/
def membersOf : Option Json → List (String × Json)
  | some (.object members) => members
  | _ => []

def get? : (path : List String) → Json → Option Json
  | [], value => some value
  | key :: path, .object members => (Members.find? key members).bind (get? path)
  | _ :: _, _ => none

/-- Puts a value at a path of keys. What stands in the way and is no object is replaced by one. -/
def setProperty (value : Json) : (path : List String) → (target : Option Json) → Json
  | [], _ => value
  | key :: path, target =>
    let members := membersOf target
    .object (Members.insert key (setProperty value path (Members.find? key members)) members)

end Json

end MemoSequence
