/-!
# Limits

The sizes that a code object cannot exceed.
-/

namespace Bytecode

inductive Limit where
  | stackDepth
  | constants
  | names
  /-- An operand or a jump of more than 32 bits. -/
  | operand
  | handlerValue (value : Nat)
  | handlerDepth
  | nestedBlocks
deriving DecidableEq, Repr

def Limit.message : Limit → String
  | stackDepth => "stack depth exceeds the frame limit"
  | constants => "too many constants"
  | names => "too many names"
  | operand => "operand exceeds 32 bits"
  | handlerValue value => s!"exception table value {value} does not fit in 30 bits"
  | handlerDepth => "handler depth out of range"
  | nestedBlocks => "too many statically nested blocks"

end Bytecode
