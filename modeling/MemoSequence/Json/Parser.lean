import MemoSequence.Json.Numeral
import MemoSequence.Json.Strings
set_option autoImplicit false

namespace MemoSequence

namespace Reader
variable {α : Type}

def letters : List Char → Reader Unit
  | [] => return ()
  | c :: word => do
    match ← get with
    | [] => fail .endOfValue
    | d :: rest => if d = c then do set rest; letters word else failNext .expectedIdent

def nextItem (first : Bool) : Reader Bool := do
  match ← peek? with
  | none => fail .endOfList
  | some ']' => return false
  | some c =>
    if first then return true
    if c ≠ ',' then failNext .expectedCommaOrBracket
    skip
    match ← peek? with
    | none => fail .endOfValue
    | some ']' => failNext .trailingComma
    | some _ => return true

def nextMember (first : Bool) : Reader Bool := do
  match ← peek? with
  | none => fail .endOfObject
  | some '}' => return false
  | some c =>
    if first then
      if c = '"' then return true else failNext .keyNoString
    if c ≠ ',' then failNext .expectedCommaOrBrace
    skip
    match ← peek? with
    | none => fail .endOfValue
    | some '"' => return true
    | some '}' => failNext .trailingComma
    | some _ => failNext .keyNoString

def colon : Reader Unit := do
  match ← peek? with
  | none => fail .endOfObject
  | some ':' => skip
  | some _ => failNext .expectedColon

/-- The items of a list after its bracket, up to and with the closing one. Each takes a character at
least, so the characters bound their number. -/
def items (item : Reader α) : (clock : List Char) → (first : Bool) → (seen : List α) → Reader (List α)
  | [], _, _ => fail .endOfList
  | _ :: clock, first, seen => do
    if ← nextItem first then items item clock false ((← item) :: seen)
    else
      skip
      return seen.reverse

def members (item : Reader α) :
    (clock : List Char) → (first : Bool) → (seen : List (String × α)) → Reader (List (String × α))
  | [], _, _ => fail .endOfObject
  | _ :: clock, first, seen => do
    if ← nextMember first then
      skip
      let key ← Strings.read
      colon
      members item clock false ((key, ← item) :: seen)
    else
      skip
      return seen.reverse

end Reader

namespace Json
open Reader

/-- A value whose containers read their contents by `inner`; without it no container may be opened. -/
def valueWith (inner : Option (Reader Json)) : Reader Json := do
  match ← peek? with
  | none => fail .endOfValue
  | some 'n' => skip; letters ['u', 'l', 'l']; return .null
  | some 't' => skip; letters ['r', 'u', 'e']; return .bool true
  | some 'f' => skip; letters ['a', 'l', 's', 'e']; return .bool false
  | some '"' => skip; return .text (← Strings.read)
  | some '[' => match inner with
    | none => failNext .tooDeep
    | some value => skip; return .array (← items value (← get) true [])
  | some '{' => match inner with
    | none => failNext .tooDeep
    | some value =>
      skip
      return .object (Members.ofList (← members value (← get) true []))
  | some c =>
    if c = '-' ∨ c.isDigit then return .number (← Numeral.read)
    else failNext .expectedValue

def value : (depth : Nat) → Reader Json
  | 0 => valueWith none
  | depth + 1 => valueWith (some (value depth))

def maxDepth : Nat := 127

def parse (text : String) : Except ParseError Json := (value maxDepth).run text

end Json

end MemoSequence
