/-!
# Cautions

What is legal in a program and likely a mistake.
-/

namespace Bytecode

/-- A likely mistake. Types are named as programs name them. -/
inductive Caution where
  | assertTuple
  | isLiteral
  | isNotLiteral
  | notCallable (type : String)
  | notSubscriptable (type : String)
  | badIndex (type index : String)
deriving DecidableEq, Repr

def Caution.message : Caution → String
  | assertTuple => "assertion is always true, perhaps remove parentheses?"
  | isLiteral => "\"is\" with a literal. Did you mean \"==\"?"
  | isNotLiteral => "\"is not\" with a literal. Did you mean \"!=\"?"
  | notCallable type => s!"'{type}' object is not callable; perhaps you missed a comma?"
  | notSubscriptable type => s!"'{type}' object is not subscriptable; perhaps you missed a comma?"
  | badIndex type index =>
    s!"{type} indices must be integers or slices, not {index}; perhaps you missed a comma?"

end Bytecode
