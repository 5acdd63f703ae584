import Bytecode.Listing

/-!
# The text of a listing

The tables come first, one entry a line, and then the items. An instruction has its operand if it
takes one or if it is not zero, and its place after an `@`.
-/

namespace Bytecode

/-- A place as `line-endLine:col-endCol`, without the parts that are not known or repeat. -/
def Location.text? (loc : Location) : Option String :=
  if loc.line < 0 then .none
  else
    let endLine := if loc.endLine = loc.line then "" else s!"-{loc.endLine}"
    let endCol := if loc.endCol < 0 then "" else s!"-{loc.endCol}"
    let cols := if loc.col < 0 then "" else s!":{loc.col}{endCol}"
    some s!"{loc.line}{endLine}{cols}"

def ListingItem.text : ListingItem → String
  | .label number => s!"label {number}:"
  | .instr op arg loc =>
    let operand := if op.hasOperand || op.hasTarget || arg ≠ 0 then s!" {arg}" else ""
    let place := match loc.text? with
      | some text => s!" @ {text}"
      | none => ""
    s!"{op.name}{operand}{place}"

def Listing.text (l : Listing) : String :=
  let lines := l.constants.map (".const " ++ ·.text) ++ l.names.map (".name " ++ ·) ++
    l.locals.map (".local " ++ ·) ++ l.items.map (·.text)
  String.join (lines.map (· ++ "\n"))

end Bytecode
