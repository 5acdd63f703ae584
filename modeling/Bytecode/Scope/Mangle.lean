/-!
# Private names

Inside a class, a name that starts with two underscores and does not end with two belongs to that
class, and the name of the class becomes part of it.
-/

namespace Bytecode

def isPrivateName (name : String) : Bool :=
  let cs := name.toList
  ['_', '_'].isPrefixOf cs && !(['_', '_'].isSuffixOf cs) && !cs.contains '.'

/-- The full name inside a class, or outside of every class. Underscores at the start of the
class's name are left out, and a class whose name has nothing else has no private names. -/
def mangle (className : Option String) (name : String) : String :=
  match className with
  | none => name
  | some className =>
    let stem := className.toList.dropWhile (· = '_')
    if isPrivateName name ∧ stem ≠ [] then "_" ++ String.ofList stem ++ name else name

end Bytecode
