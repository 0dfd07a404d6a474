import MemoSequence.Json.Reader
set_option autoImplicit false

namespace MemoSequence.Strings

def hexValue? (c : Char) : Option Nat :=
  if '0' ≤ c ∧ c ≤ '9' then some (c.toNat - '0'.toNat)
  else if 'a' ≤ c ∧ c ≤ 'f' then some (c.toNat - 'a'.toNat + 10)
  else if 'A' ≤ c ∧ c ≤ 'F' then some (c.toNat - 'A'.toNat + 10)
  else none

def hexNumber? (digits : List Char) : Option Nat :=
  digits.foldlM (fun n c => (hexValue? c).map (n * 16 + ·)) 0

/-- The unit that four hexadecimal digits give. Four bytes are looked at, whatever they are. -/
def unit : Reader Nat := do
  let rest ← get
  if utf8Length (rest.take 4) < 4 then
    set ([] : List Char)
    Reader.fail .endOfString
  match hexNumber? (rest.take 4) with
  | some n =>
    set (rest.drop 4)
    return n
  | none => throw ⟨.invalidEscape, rest, 4⟩

def isLeading (unit : Nat) : Bool := 0xD800 ≤ unit && unit ≤ 0xDBFF

def isTrailing (unit : Nat) : Bool := 0xDC00 ≤ unit && unit ≤ 0xDFFF

def expect (c : Char) : Reader Unit := do
  match ← get with
  | [] => Reader.fail .endOfString
  | d :: rest => if d = c then set rest else Reader.failNext .hexEscapeEnd

def unicodeEscape : Reader Char := do
  let first ← unit
  if isTrailing first then Reader.fail .loneSurrogate
  else if isLeading first then
    expect '\\'
    expect 'u'
    let second ← unit
    if isTrailing second then
      return Char.ofNat (0x10000 + (first - 0xD800) * 0x400 + (second - 0xDC00))
    else Reader.fail .loneSurrogate
  else return Char.ofNat first

def shortEscape? : Char → Option Char
  | '"' => some '"'
  | '\\' => some '\\'
  | '/' => some '/'
  | 'b' => some '\x08'
  | 'f' => some '\x0c'
  | 'n' => some '\n'
  | 'r' => some '\r'
  | 't' => some '\t'
  | _ => none

def escaped : Reader Char := do
  match ← get with
  | [] => Reader.fail .endOfString
  | 'u' :: rest => set rest; unicodeEscape
  | c :: rest => match shortEscape? c with
    | some x => set rest; return x
    | none => Reader.failNext .invalidEscape

def piece? : Reader (Option Char) := do
  match ← get with
  | [] => Reader.fail .endOfString
  | '"' :: rest => set rest; return none
  | '\\' :: rest => set rest; return some (← escaped)
  | c :: rest =>
    if c.toNat < 0x20 then Reader.failNext .controlCharacter
    else set rest; return some c

/-- Each piece takes a character at least, so the characters themselves bound their number. -/
def pieces : (clock : List Char) → (seen : List Char) → Reader String
  | [], _ => Reader.fail .endOfString
  | _ :: clock, seen => do
    match ← piece? with
    | some c => pieces clock (c :: seen)
    | none => return String.ofList seen.reverse

def read : Reader String := do pieces (← get) []

end MemoSequence.Strings
