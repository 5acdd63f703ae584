import Bytecode.Proofs.Matching.Trials
import Bytecode.Lowering.Pattern

/-!
# What patterns mean

The trial of a value by a pattern results in the names that the pattern captures, with their values.
It asks for the parts of the value by the operations of the machine, and tries them in turn.
-/

namespace Bytecode

variable {V : Type}

/-- Names with their values. -/
abbrev Bindings (V : Type) := List (String × V)

def Bindings.values (bs : Bindings V) : List V :=
  bs.map Prod.snd

abbrev Matcher (V : Type) := V → Trial (Bindings V)

def bindTo (name : Option String) (v : V) : Bindings V :=
  name.toList.map fun n => (n, v)

def matchEach : List (Matcher V) → List V → Trial (Bindings V)
  | m :: ms, v :: vs => do
    let bs ← m v
    let cs ← matchEach ms vs
    return bs ++ cs
  | [], [] => return []
  | _, _ => .fail

def inOrder (names : List String) (t : Trial (Bindings V)) : Trial (Bindings V) := do
  let bs ← t
  .any fun bs' => bs'.Perm bs ∧ bs'.map Prod.fst = names

/-- The first alternative that matches, with its bindings in the order of the names. -/
def matchFirst (names : List String) : List (Matcher V) → Matcher V
  | [], _ => .fail
  | m :: ms, v => (inOrder names (m v)).orElse (matchFirst names ms v)

mutual

/-- The names that a pattern captures, in the order in which they are bound. Alternatives capture
what the first of them does. -/
def Pattern.captures : Pattern ScopeId → List String
  | .value _ _ => []
  | .singleton _ _ => []
  | .sequence _ patterns => capturesOf patterns
  | .mapping _ _ patterns rest => capturesOf patterns ++ rest.toList
  | .classPattern _ _ patterns _ attrPatterns => capturesOf patterns ++ capturesOf attrPatterns
  | .star _ name => name.toList
  | .capture _ none name => name.toList
  | .capture _ (some pattern) name => pattern.captures ++ name.toList
  | .alternatives _ patterns => capturesOfFirst patterns

def capturesOf : List (Pattern ScopeId) → List String
  | [] => []
  | q :: qs => q.captures ++ capturesOf qs

def capturesOfFirst : List (Pattern ScopeId) → List String
  | [] => []
  | q :: _ => q.captures

end

namespace Interpretation

variable (D : Interpretation V)

/-! ### Single values -/

def compare (op : CompareOp) (left right : V) : Trial V :=
  .any fun w => D.does op.opcode op.code [right, left] [] [w]

def compares (op : CompareOp) (left right : V) : Trial Unit := do
  let w ← D.compare op left right
  .check (D.truthy w)

/-- What an instruction finds of the value on top of the stack. -/
def inspect (op : Opcode) (v : V) : Trial V :=
  .any fun w => D.does op 0 [] [v] [w]

def matchValue (e : Expr ScopeId) (v : V) : Trial (Bindings V) := do
  let w ← .any (D.value e)
  D.compares .equal v w
  return []

def matchSingleton (k : Constant) (v : V) : Trial (Bindings V) := do
  D.compares .is v (D.const k)
  return []

/-! ### Parts -/

def matchLength (op : CompareOp) (n : Nat) (v : V) : Trial Unit := do
  let len ← D.inspect .getLen v
  D.compares op len (D.const (.int n))

def present (v : V) : Trial Unit :=
  D.compares .isNot v (D.const .none)

def unpack (n : Nat) (v : V) : Trial (List V) :=
  .any (D.does .unpackSequence n [v] [])

/-! ### Sequences -/

/-- The items of a sequence, where those at the place of a star are one item. -/
def items (size : Nat) (star : Option Nat) (v : V) : Trial (List V) :=
  match star with
  | none => D.unpack size v
  | some star => .any (D.does .unpackEx (unpackOperand star (size - star - 1)) [v] [])

/-- The index of an item, counted from the end if it is after the star. -/
def index (size star i : Nat) (v : V) : Trial V :=
  if i < star then return D.const (.int i)
  else do
    let len ← D.inspect .getLen v
    .any fun w =>
      D.does .binaryOp BinaryOp.sub.code [D.const (.int (size - i : Nat)), len] [] [w]

def item (size star i : Nat) (v : V) : Trial V := do
  let k ← D.index size star i v
  .any fun w => D.does .binarySubscr 0 [k, v] [] [w]

/-- The items that matter are tried one by one, those from the place `i` on. -/
def matchIndexed (size star : Nat) (v : V) :
    (i : Nat) → List (Pattern ScopeId) → List (Matcher V) → Trial (Bindings V)
  | i, q :: qs, m :: ms =>
    if q.isWildcard || i = star then matchIndexed size star v (i + 1) qs ms
    else do
      let w ← D.item size star i v
      let bs ← m w
      let cs ← matchIndexed size star v (i + 1) qs ms
      return bs ++ cs
  | _, _, _ => return []

/-- The value is a sequence of a length that can match. -/
def matchSequenceLength (size : Nat) (star : Option Nat) (v : V) : Trial Unit := do
  let w ← D.inspect .matchSequence v
  .check (D.truthy w)
  match star with
  | none => D.matchLength .equal size v
  | some _ => if 1 < size then D.matchLength .greaterOrEqual (size - 1) v else return ()

def matchSequence (patterns : List (Pattern ScopeId)) (ms : List (Matcher V)) (v : V) :
    Trial (Bindings V) := do
  let star := (positions (·.isStar) patterns).head?
  D.matchSequenceLength patterns.length star v
  if patterns.all fun q => q.isWildcard || q.isStarWildcard then return []
  else match star, patterns.any (·.isStarWildcard) with
    | some star, true => D.matchIndexed patterns.length star v 0 patterns ms
    | star, _ => do
      let vs ← D.items patterns.length star v
      matchEach ms vs

/-! ### Mappings -/

def values : List (Expr ScopeId) → Trial (List V)
  | [] => return []
  | e :: es => do
    let v ← .any (D.value e)
    let vs ← values es
    return v :: vs

def removeKeys (mapping : V) : List V → Trial Unit
  | [] => return ()
  | k :: ks => do
    .any fun _ => D.does .deleteSubscr 0 [k, mapping] [] []
    removeKeys mapping ks

def rest (size : Nat) (keys v : V) : Trial V := do
  let copy ← .any fun w => D.does .buildMap 0 [] [] [w]
  Trial.any fun (_ : Unit) => D.does .dictUpdate 2 [v] [keys, copy] []
  let ks ← D.unpack size keys
  D.removeKeys copy ks
  return copy

def matchSize (n : Nat) (v : V) : Trial Unit :=
  if 0 < n then D.matchLength .greaterOrEqual n v else return ()

/-- What is left of a mapping goes to the name, if there is one. -/
def matchRest (size : Nat) (name : Option String) (keys v : V) : Trial (Bindings V) :=
  match name with
  | none => return []
  | some name => do
    let copy ← D.rest size keys v
    return [(name, copy)]

/-- The values of the keys are tried one by one, and then what is left. -/
def matchKeys (keys : List (Expr ScopeId)) (ms : List (Matcher V)) (name : Option String)
    (v : V) : Trial (Bindings V) := do
  let ks ← D.values keys
  let tuple ← .any fun w => D.does .buildTuple keys.length ks.reverse [] [w]
  let found ← .any fun w => D.does .matchKeys 0 [] [tuple, v] [w]
  D.present found
  let vs ← D.unpack keys.length found
  let bs ← matchEach ms vs
  let cs ← D.matchRest keys.length name tuple v
  return bs ++ cs

def matchMapping (keys : List (Expr ScopeId)) (ms : List (Matcher V)) (name : Option String)
    (v : V) : Trial (Bindings V) := do
  let w ← D.inspect .matchMapping v
  .check (D.truthy w)
  if keys.length = 0 && name.isNone then return []
  else do
    D.matchSize keys.length v
    D.matchKeys keys ms name v

/-! ### Classes -/

def matchClass (cls : Expr ScopeId) (count : Nat) (attrs : List String) (ms : List (Matcher V))
    (v : V) : Trial (Bindings V) := do
  let c ← .any (D.value cls)
  let found ← .any fun w =>
    D.does .matchClass count [D.const (.tuple (attrs.map .str)), c, v] [] [w]
  D.present found
  let vs ← D.unpack ms.length found
  matchEach ms vs

/-! ### Patterns -/

mutual

def matcher : Pattern ScopeId → Matcher V
  | .value _ e => D.matchValue e
  | .singleton _ k => D.matchSingleton k
  | .sequence _ patterns => D.matchSequence patterns (matchers patterns)
  | .mapping _ keys patterns rest => D.matchMapping keys (matchers patterns) rest
  | .classPattern _ cls patterns attrs attrPatterns =>
    D.matchClass cls patterns.length attrs (matchers patterns ++ matchers attrPatterns)
  | .star _ name => fun v => pure (bindTo name v)
  | .capture _ none name => fun v => pure (bindTo name v)
  | .capture _ (some pattern) name => fun v => do
    let bs ← matcher pattern v
    return bs ++ bindTo name v
  | .alternatives _ patterns => matchFirst (capturesOfFirst patterns) (matchers patterns)

def matchers : List (Pattern ScopeId) → List (Matcher V)
  | [] => []
  | q :: qs => matcher q :: matchers qs

end

end Interpretation

end Bytecode
