set_option autoImplicit false

namespace MemoSequence

inductive FaultCause where
  | endOfValue
  | endOfList
  | endOfObject
  | endOfString
  | expectedIdent
  | expectedValue
  | expectedColon
  | expectedCommaOrBracket
  | expectedCommaOrBrace
  | trailingComma
  | trailingCharacters
  | keyNoString
  | controlCharacter
  | invalidEscape
  | loneSurrogate
  | hexEscapeEnd
  | invalidNumber
  | numberOutOfRange
  | tooDeep
  | wrongType
  deriving DecidableEq, Repr

inductive FaultCategory where
  | early
  | malformed
  | mistyped
  deriving DecidableEq, Repr

namespace FaultCause

def message : FaultCause → String
  | endOfValue => "EOF while parsing a value"
  | endOfList => "EOF while parsing a list"
  | endOfObject => "EOF while parsing an object"
  | endOfString => "EOF while parsing a string"
  | expectedIdent => "expected ident"
  | expectedValue => "expected value"
  | expectedColon => "expected \x60:\x60"
  | expectedCommaOrBracket => "expected \x60,\x60 or \x60]\x60"
  | expectedCommaOrBrace => "expected \x60,\x60 or \x60\x7d\x60"
  | trailingComma => "trailing comma"
  | trailingCharacters => "trailing characters"
  | keyNoString => "key must be a string"
  | controlCharacter => "control character (\\u0000-\\u001F) found while parsing a string"
  | invalidEscape => "invalid escape"
  | loneSurrogate => "lone leading surrogate in hex escape"
  | hexEscapeEnd => "unexpected end of hex escape"
  | invalidNumber => "invalid number"
  | numberOutOfRange => "number out of range"
  | tooDeep => "recursion limit exceeded"
  | wrongType => "value of another type"

def category : FaultCause → FaultCategory
  | endOfValue | endOfList | endOfObject | endOfString => .early
  | wrongType => .mistyped
  | _ => .malformed

end FaultCause

structure Fault where
  cause : FaultCause
  rest : List Char
  beyond : Nat

abbrev Reader (α : Type) := StateT (List Char) (Except Fault) α

namespace Reader
variable {α : Type}

/-- A fault right after what has been consumed. -/
def fail (cause : FaultCause) : Reader α := do throw ⟨cause, ← get, 0⟩

/-- A fault at the next byte, if there is one. -/
def failNext (cause : FaultCause) : Reader α := do
  let rest ← get
  throw ⟨cause, rest, if rest.isEmpty then 0 else 1⟩

def skip : Reader Unit := modify List.tail

def isBlank (c : Char) : Bool := c = ' ' || c = '\n' || c = '\t' || c = '\r'

def skipBlanks : Reader Unit := modify (List.dropWhile isBlank)

def peek? : Reader (Option Char) := do
  skipBlanks
  return (← get).head?

def finish : Reader Unit := do
  if (← peek?).isSome then failNext .trailingCharacters

end Reader

structure Place where
  line : Nat
  column : Nat
  deriving DecidableEq, Repr

def Place.after (text : String) (n : Nat) : Place :=
  let before := text.toUTF8.toList.take n
  ⟨1 + before.countP (· = 10), (before.reverse.takeWhile (· ≠ 10)).length⟩

def utf8Length (chars : List Char) : Nat := chars.foldl (fun n c => n + c.utf8Size) 0

structure ParseError where
  cause : FaultCause
  place : Place
  deriving DecidableEq, Repr

def ParseError.message (e : ParseError) : String :=
  "Parse failed: " ++ e.cause.message ++ " at line " ++ toString e.place.line ++ " column " ++
    toString e.place.column

def Reader.run {α : Type} (reader : Reader α) (text : String) : Except ParseError α :=
  let whole : Reader α := do
    let x ← reader
    finish
    return x
  match StateT.run whole text.toList with
  | .ok (x, _) => .ok x
  | .error fault =>
    .error ⟨fault.cause, .after text (text.utf8ByteSize - utf8Length fault.rest + fault.beyond)⟩

end MemoSequence
