import Bytecode.Code
import Bytecode.Code.Units
import Bytecode.Table.Handlers
import Bytecode.Table.Locations
import Bytecode.Text.Blank

/-!
# Disassembly

A code object as text: one line for every instruction with its source line, its place in bytes, its
operand and what the operand stands for, and then the handler table.
-/

namespace Bytecode

def padRight (width : Nat) (text : String) : String :=
  text ++ String.ofList (List.replicate (width - text.length) ' ')

def padLeft (width : Nat) (text : String) : String :=
  String.ofList (List.replicate (width - text.length) ' ') ++ text

namespace CodeObject

variable (c : CodeObject)

def preview? (i : DecodedInstr) : Option String :=
  if i.op.hasConstant then c.constants[i.arg]?.map (·.text)
  else
    match i.jumpTarget? with
    | some target => some s!"to {target}"
    | none =>
      let withNull := i.arg % 2 = 1
      match i.op with
      | .loadGlobal => c.names[i.arg / 2]?.map fun n => if withNull then s!"NULL + {n}" else n
      | .loadAttr => c.names[i.arg / 2]?.map fun n => if withNull then s!"{n} + NULL|self" else n
      | .compareOp => ["<", "<=", "==", "!=", ">", ">="][i.arg]?
      | .isOp => some (if i.arg = 0 then "is" else "is not")
      | .containsOp => some (if i.arg = 0 then "in" else "not in")
      | op =>
        if op.hasName then c.names[i.arg]?
        else if op.hasSlot then c.slotNames[i.arg]?
        else none

def instrText (lineColumn : String) (i : DecodedInstr) : String :=
  let operand :=
    if i.op.hasOperand then
      let preview := match c.preview? i with
        | some text => s!" ({text})"
        | none => ""
      s!" {i.arg}{preview}"
    else ""
  let place := padLeft 6 (toString (i.offset * 2))
  let text := s!"{lineColumn} {place} {padRight 28 i.op.name}{operand}"
  String.ofList (Text.trimEnd text.toList)

/-- The instructions line by line; a source line is shown where it changes. -/
def instrTexts (locations : Array Location) (shown : Option Int) : List DecodedInstr → List String
  | [] => []
  | i :: rest =>
    let line := (locations[i.offset]?.map (·.line)).filter (0 ≤ ·)
    match line with
    | some line =>
      if shown = some line then c.instrText (padLeft 4 "") i :: instrTexts locations shown rest
      else c.instrText (padLeft 4 (toString line)) i :: instrTexts locations (some line) rest
    | none => c.instrText (padLeft 4 "") i :: instrTexts locations shown rest

end CodeObject

def HandlerRange.text (r : HandlerRange) : String :=
  let position := if r.keepsPosition then " lasti" else ""
  s!"  {r.start * 2} to {r.stop * 2} -> {r.target * 2} [{r.depth}]{position}"

def CodeObject.disassemble (c : CodeObject) : Result String := do
  let instrs ← decode c.code
  let locations ← LocationTable.read c.firstLine c.locationTable
  let ranges ← HandlerTable.read c.handlerTable
  let flags := String.ofList (Text.hexDigits c.flags.toBits)
  let title := s!"Disassembly of {c.qualifiedName} (stack {c.stackSize}, flags 0x{flags}):"
  let handlers := if ranges.isEmpty then [] else "ExceptionTable:" :: ranges.map (·.text)
  let lines := title :: c.instrTexts locations.toArray none instrs ++ handlers
  .ok (String.join (lines.map (· ++ "\n")))

end Bytecode
