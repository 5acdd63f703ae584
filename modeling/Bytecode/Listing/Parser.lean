import Bytecode.Listing
import Bytecode.Number.Numeral
import Bytecode.Text.Blank

/-!
# Reading a listing

A listing is read line by line. A line is blank, a comment after `#`, an entry of a table, a label,
or an instruction with its operand and its place. The first line at fault ends the reading.
-/

namespace Bytecode

open String

inductive NumberRole where
  | line
  | endLine
  | column
  | endColumn
  | label
  | operand
deriving DecidableEq, Repr

def NumberRole.name : NumberRole → String
  | .line => "line"
  | .endLine => "end line"
  | .column => "column"
  | .endColumn => "end column"
  | .label => "label"
  | .operand => "operand"

inductive LineFault where
  | badNumber (role : NumberRole) (text : String)
  | endBeforeStart (endLine line : Int)
  | danglingEscape
  | badConstant (text : String)
  | labelWithoutColon
  | missingOpcode
  | unknownOpcode (name : String)
  | needsLabel (name : String)
  | unexpected (text : String)
deriving DecidableEq, Repr

def LineFault.message : LineFault → String
  | badNumber role text => s!"invalid {role.name} {Text.quoted text}"
  | endBeforeStart endLine line => s!"end line {endLine} precedes line {line}"
  | danglingEscape => "dangling escape in string"
  | badConstant text => s!"unsupported constant {Text.quoted text}"
  | labelWithoutColon => "label must end with ':'"
  | missingOpcode => "missing opcode"
  | unknownOpcode name => s!"unknown opcode {name}"
  | needsLabel name => s!"{name} needs a label"
  | unexpected text => s!"unexpected {Text.quoted text}"

/-- A fault with the number of its line, counted from one. -/
structure ListingError where
  line : Nat
  fault : LineFault
deriving DecidableEq, Repr

def ListingError.message (e : ListingError) : String :=
  s!"line {e.line}: {e.fault.message}"

namespace Listing

abbrev LineResult := Except LineFault

def readNumber {α : Type} (parse? : List Char → Option α) (role : NumberRole) (cs : List Char) :
    LineResult α :=
  match parse? (Text.trim cs) with
  | some n => .ok n
  | none => .error (.badNumber role (ofList cs))

def readLines (cs : List Char) : LineResult (Int × Int) := do
  match Text.splitAt? '-' cs with
  | some (start, stop) =>
    let line ← readNumber Numeral.signedWord? .line start
    let endLine ← readNumber Numeral.signedWord? .endLine stop
    if endLine < line then throw (.endBeforeStart endLine line) else return (line, endLine)
  | none =>
    let line ← readNumber Numeral.signedWord? .line cs
    return (line, line)

def readColumns (cs : List Char) : LineResult (Int × Int) := do
  let (start, stop) := (Text.splitAt? '-' cs).getD (cs, [])
  let col ← readNumber Numeral.signedWord? .column start
  if stop.isEmpty then return (col, -1)
  else return (col, ← readNumber Numeral.signedWord? .endColumn stop)

/-- A place: lines, and columns after a colon. -/
def readLocation (cs : List Char) : LineResult Location := do
  match Text.splitAt? ':' cs with
  | some (lines, columns) =>
    let (line, endLine) ← readLines lines
    let (col, endCol) ← readColumns columns
    return ⟨line, col, endLine, endCol⟩
  | none =>
    let (line, endLine) ← readLines cs
    return ⟨line, -1, endLine, -1⟩

/-- The characters of a string constant: a backslash stands before a control or any character. -/
def unescape : List Char → LineResult (List Char)
  | [] => .ok []
  | '\\' :: c :: cs => do
    let c := match c with
      | 'n' => '\n'
      | 't' => '\t'
      | 'r' => '\r'
      | c => c
    return c :: (← unescape cs)
  | ['\\'] => .error .danglingEscape
  | c :: cs => do return c :: (← unescape cs)

def unquote? (cs : List Char) : Option (List Char) :=
  match cs with
  | '"' :: body => if body.getLast? = some '"' then some body.dropLast else none
  | _ => none

def readConstant (cs : List Char) : LineResult Constant := do
  let cs := Text.trim cs
  let text := ofList cs
  if text = "None" then return .none
  else if text = "True" then return .bool true
  else if text = "False" then return .bool false
  else if text = "Ellipsis" ∨ text = "..." then return .ellipsis
  else
    match unquote? cs, Numeral.integer? cs, Numeral.fraction? cs with
    | some body, _, _ => return .str (ofList (← unescape body))
    | none, some n, _ => return .int n
    | none, none, some x => return .float x
    | none, none, none => throw (.badConstant text)

def readInstr (cs : List Char) : LineResult ListingItem := do
  let (code, loc) ← match Text.splitAt? '@' cs with
    | some (code, place) => do
      let loc ← readLocation (Text.trim place)
      pure (code, loc)
    | none => pure (cs, Location.none)
  match Text.words code with
  | [] => throw .missingOpcode
  | word :: words =>
    let name := ofList word
    match Operation.ofName? name, words with
    | none, _ => throw (.unknownOpcode name)
    | some op, [] => if op.hasTarget then throw (.needsLabel name) else return .instr op 0 loc
    | some op, operand :: more =>
      let arg ← readNumber Numeral.word? .operand operand
      match more with
      | [] => return .instr op arg loc
      | extra :: _ => throw (.unexpected (ofList extra))

def readLabel (cs : List Char) : LineResult ListingItem := do
  let cs := Text.trim cs
  if cs.getLast? = some ':' then
    return .label (← readNumber Numeral.word? .label cs.dropLast)
  else throw .labelWithoutColon

def addLine (l : Listing) (cs : List Char) : LineResult Listing := do
  let after? (word : String) : Option (List Char) := word.toList.isPrefixOf? cs
  if cs.isEmpty ∨ cs.head? = some '#' then return l
  else if let some rest := after? ".const" then
    return { l with constants := l.constants ++ [← readConstant rest] }
  else if let some rest := after? ".name" then
    return { l with names := l.names ++ [ofList (Text.trim rest)] }
  else if let some rest := after? ".local" then
    return { l with locals := l.locals ++ [ofList (Text.trim rest)] }
  else if let some rest := after? "label" then
    return { l with items := l.items ++ [← readLabel rest] }
  else return { l with items := l.items ++ [← readInstr cs] }

def addLines (l : Listing) (number : Nat) : List (List Char) → Except ListingError Listing
  | [] => .ok l
  | line :: lines =>
    match l.addLine (Text.trim line) with
    | .ok l => addLines l (number + 1) lines
    | .error fault => .error ⟨number, fault⟩

def parse (text : String) : Except ListingError Listing :=
  addLines {} 1 (Text.lines text.toList)

end Listing

end Bytecode
