import MemoSequence.Json.Parser
set_option autoImplicit false

namespace MemoSequence.Typed
open Reader

variable {α β : Type}

def wrongType : Reader α := do
  match ← peek? with
  | none => fail .endOfValue
  | some 'n' => skip; letters ['u', 'l', 'l']
  | some 't' => skip; letters ['r', 'u', 'e']
  | some 'f' => skip; letters ['a', 'l', 's', 'e']
  | some '"' => skip; discard Strings.read
  | some '[' | some '\x7b' => pure ()
  | some c =>
    if c = '-' ∨ c.isDigit then discard Numeral.read else failNext .expectedValue
  fail .wrongType

def integer (least greatest : Int) : Reader Int := do
  match ← peek? with
  | some c =>
    if c = '-' ∨ c.isDigit then
      match ← Numeral.read with
      | .integer n => if least ≤ n ∧ n ≤ greatest then return n else fail .wrongType
      | .real _ => fail .wrongType
    else wrongType
  | none => fail .endOfValue

def int64 : Reader Int64 := return Int64.ofInt (← integer Int64.minValue.toInt Int64.maxValue.toInt)

def nat64 : Reader Nat := return (← integer 0 Numeral.maxSignificand).toNat

def text : Reader String := do
  match ← peek? with
  | some '"' => skip; Strings.read
  | _ => wrongType

def unit : Reader Unit := do
  match ← peek? with
  | some 'n' => skip; letters ['u', 'l', 'l']
  | _ => wrongType

def optional (item : Reader α) : Reader (Option α) := do
  match ← peek? with
  | some 'n' => skip; letters ['u', 'l', 'l']; return none
  | _ => return some (← item)

def list (item : Reader α) : Reader (List α) := do
  match ← peek? with
  | some '[' => skip; items item (← get) true []
  | _ => wrongType

def closeList : Reader Unit := do
  match ← peek? with
  | none => fail .endOfList
  | some ']' => skip
  | some ',' =>
    skip
    if (← peek?) = some ']' then failNext .trailingComma else failNext .trailingCharacters
  | some _ => failNext .trailingCharacters

def pair (first : Reader α) (second : Reader β) : Reader (α × β) := do
  match ← peek? with
  | some '[' =>
    skip
    if !(← nextItem true) then fail .wrongType
    let x ← first
    if !(← nextItem false) then fail .wrongType
    let y ← second
    closeList
    return (x, y)
  | _ => wrongType

/-- One of some names: a string, or an object whose only member has that name and is null. -/
def named (choose : String → Option α) : Reader α := do
  match ← peek? with
  | none => fail .endOfValue
  | some '"' => choice
  | some '\x7b' =>
    skip
    match ← peek? with
    | none => fail .endOfValue
    | some '"' => pure ()
    | some _ => failNext .keyNoString
    let x ← choice
    colon
    unit
    match ← peek? with
    | none => fail .endOfObject
    | some '\x7d' => skip; return x
    | some _ => fail .expectedValue
  | some _ => failNext .expectedValue
where
  choice : Reader α := do
    match choose (← text) with
    | some x => return x
    | none => fail .wrongType

end MemoSequence.Typed
