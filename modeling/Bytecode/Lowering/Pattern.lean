import Bytecode.Lowering.Expression

/-!
# Patterns

The code of a pattern tests the subject on top of the stack and takes it off. Captured values wait
on the stack below everything that is still to be tested, and are bound only once the whole pattern
has matched. A test that fails jumps into a chain of pops, at the place that takes off just what is
on the stack above the start.
-/

namespace Bytecode

open Gen

structure PatternState where
  /-- The names whose values wait on the stack, that of the first on top. -/
  stores : List String := []
  /-- The entries to the chain of pops; the one at place `n` takes off `n` values. -/
  failures : List Label := []
  /-- The values on top of those that wait, the subject apart. -/
  onTop : Nat := 0

namespace PatternState

variable (p : PatternState)

def grow (n : Nat) : PatternState :=
  { p with onTop := p.onTop + n }

def shrink (n : Nat) : PatternState :=
  { p with onTop := p.onTop - n }

def failure (n : Nat) : Gen (PatternState × Label) := do
  let more ← (List.range (n + 1 - p.failures.length)).mapM fun _ => newLabel
  let failures := p.failures ++ more
  return ({ p with failures := failures }, failures.getD n 0)

def jumpToFailure (op : PseudoOp) (loc : Location) : Gen PatternState := do
  let (p, label) ← p.failure (p.onTop + p.stores.length)
  emitJump op label loc
  return p

def failIfFalse (loc : Location) : Gen PatternState :=
  p.jumpToFailure .popJumpIfFalse loc

def emitFailures (loc : Location) : Gen Unit :=
  match p.failures with
  | [] => pure ()
  | first :: rest => do
    rest.reverse.forM fun label => do
      bindLabel label
      emit .popTop 0 loc
    bindLabel first

end PatternState

/-- The exchanges with the top that move it below the next `n - 1` values. -/
def sinkDepths (n : Nat) : List Nat :=
  (List.range (n - 1)).map (n - ·)

def sink (n : Nat) (loc : Location) : Gen Unit :=
  (sinkDepths n).forM (emit .swap · loc)

/-- The code of a pattern. It may match everything only where that is allowed. -/
structure PatternCode where
  source : Pattern ScopeId
  test : (irrefutable : Bool) → PatternState → Gen PatternState

namespace PatternCode

def loc (c : PatternCode) : Location :=
  c.source.loc

def testPart (c : PatternCode) (p : PatternState) : Gen PatternState :=
  c.test true p

end PatternCode

/-- Lets the value on top of the stack wait for a name; without a name it is dropped. -/
def capture (name : Option String) (loc : Location) (p : PatternState) : Gen PatternState :=
  match name with
  | none => do
    emit .popTop 0 loc
    return p
  | some name => do
    if name = debugName then refuse .assignDebug loc
    if p.stores.contains name then refuse (.captureTwice name) loc
    sink (p.onTop + p.stores.length + 1) loc
    return { p with stores := p.stores ++ [name] }

/-! ### Single values -/

def testValue (loc : Location) (value : ExprCode) (p : PatternState) : Gen PatternState := do
  if !value.source.isPatternValue then refuse .patternValue loc
  value.load
  emitCompare .equal loc
  p.failIfFalse loc

def testSingleton (loc : Location) (value : Constant) (p : PatternState) : Gen PatternState := do
  emitConst value loc
  emitCompare .is loc
  p.failIfFalse loc

def testAnything (loc : Location) (name : Option String) (irrefutable : Bool) (p : PatternState) :
    Gen PatternState := do
  if !irrefutable then
    match name with
    | some name => refuse (.captureUnreachable name) loc
    | none => refuse .wildcardUnreachable loc
  capture name loc p

def testAs (loc : Location) (pattern : PatternCode) (name : Option String) (irrefutable : Bool)
    (p : PatternState) : Gen PatternState := do
  emit .copy 1 loc
  let p ← pattern.test irrefutable (p.grow 1)
  capture name loc (p.shrink 1)

/-! ### Sequences -/

def testLength (op : CompareOp) (n : Nat) (loc : Location) (p : PatternState) :
    Gen PatternState := do
  emit .getLen 0 loc
  emitConst (.int n) loc
  emitCompare op loc
  p.failIfFalse loc

def testUnpacked (patterns : List PatternCode) (p : PatternState) : Gen PatternState :=
  patterns.foldlM (fun p pattern => pattern.testPart (p.shrink 1)) p

/-- Unpacks the subject and tests its items one by one; those at the place of a star are one
item. -/
def testItems (patterns : List PatternCode) (star : Option Nat) (loc : Location)
    (p : PatternState) : Gen PatternState := do
  match star with
  | none => emit .unpackSequence patterns.length loc
  | some star =>
    let after := patterns.length - star - 1
    if maxBeforeStar ≤ star || maxAfterStar ≤ after then refuse .starredPatternTooLate loc
    emit .unpackEx (unpackOperand star after) loc
  testUnpacked patterns (p.grow patterns.length)

/-- Loads an item of the subject, which stays. Items after the star are found from the end. -/
def loadItem (size star i : Nat) (loc : Location) : Gen Unit := do
  emit .copy 1 loc
  if i < star then emitConst (.int i) loc
  else
    emit .getLen 0 loc
    emitConst (.int (size - i : Nat)) loc
    emit .binaryOp BinaryOp.sub.code loc
  emit .binarySubscr 0 loc

def testItem (size star : Nat) (loc : Location) (p : PatternState) (x : PatternCode × Nat) :
    Gen PatternState := do
  if x.1.source.isWildcard || x.2 = star then return p
  loadItem size star x.2 loc
  x.1.testPart p

/-- Tests those items that matter, where the rest at a given place does not. -/
def testIndexed (patterns : List PatternCode) (star : Nat) (loc : Location) (p : PatternState) :
    Gen PatternState := do
  let p ← patterns.zipIdx.foldlM (testItem patterns.length star loc) (p.grow 1)
  emit .popTop 0 loc
  return p.shrink 1

def testSequenceLength (size : Nat) (star : Option Nat) (loc : Location) (p : PatternState) :
    Gen PatternState := do
  emit .matchSequence 0 loc
  let p ← p.failIfFalse loc
  match star with
  | none => testLength .equal size loc p
  | some _ => if 1 < size then testLength .greaterOrEqual (size - 1) loc p else return p

def testSequence (loc : Location) (patterns : List PatternCode) (p : PatternState) :
    Gen PatternState := do
  let stars := positions (·.source.isStar) patterns
  if 1 < stars.length then refuse .twoStarredNames loc
  let star := stars.head?
  let p ← testSequenceLength patterns.length star loc (p.grow 1)
  let p := p.shrink 1
  if patterns.all fun c => c.source.isWildcard || c.source.isStarWildcard then
    emit .popTop 0 loc
    return p
  else match star, patterns.any (·.source.isStarWildcard) with
    | some star, true => testIndexed patterns star loc p
    | star, _ => testItems patterns star loc p

/-! ### Mappings -/

/-- Loads the keys of a mapping pattern. They are constants, each at most once, or attributes. -/
def loadKeys (loc : Location) (seen : List Constant) : List ExprCode → Gen Unit
  | [] => pure ()
  | key :: keys => do
    match key.constant? with
    | some c => if seen.contains c then refuse (.duplicateKey c.text) loc
    | none => if !key.source.isPatternValue then refuse .mappingKey loc
    key.load
    loadKeys loc (seen ++ key.constant?.toList) keys

/-- Copies the subject without the keys that have matched, and captures the copy. -/
def captureRest (size : Nat) (rest : String) (loc : Location) (p : PatternState) :
    Gen PatternState := do
  emit .buildMap 0 loc
  emit .swap 3 loc
  emit .dictUpdate 2 loc
  emit .unpackSequence size loc
  ((List.range size).map (size + 1 - ·)).forM fun n => do
    emit .copy n loc
    emit .swap 2 loc
    emit .deleteSubscr 0 loc
  capture (some rest) loc p

def failIfNone (loc : Location) (p : PatternState) : Gen PatternState := do
  emit .copy 1 loc
  emitNone loc
  emitCompare .isNot loc
  p.failIfFalse loc

def testMapping (loc : Location) (keys : List ExprCode) (patterns : List PatternCode)
    (rest : Option String) (p : PatternState) : Gen PatternState := do
  let size := keys.length
  if size ≠ patterns.length then refuse (.mappingLengths size patterns.length) loc
  let p := p.grow 1
  emit .matchMapping 0 loc
  let p ← p.failIfFalse loc
  if size = 0 && rest.isNone then
    emit .popTop 0 loc
    return p.shrink 1
  let p ← if 0 < size then testLength .greaterOrEqual size loc p else pure p
  loadKeys loc [] keys
  emit .buildTuple size loc
  emit .matchKeys 0 loc
  let p ← failIfNone loc (p.grow 2)
  emit .unpackSequence size loc
  let p ← testUnpacked patterns ((p.grow size).shrink 1)
  let p := p.shrink 2
  match rest with
  | some rest => captureRest size rest loc p
  | none =>
    emit .popTop 0 loc
    emit .popTop 0 loc
    return p

/-! ### Classes -/

/-- Refuses attributes that are named twice or that cannot be named. The place of an attribute is
that of its pattern. -/
def checkAttributes : List (String × Location) → Gen Unit
  | [] => pure ()
  | (attr, loc) :: rest => do
    if attr = debugName then refuse .assignDebug loc
    match rest.find? (·.1 = attr) with
    | some (_, again) => refuse (.attributeRepeated attr) again
    | none => checkAttributes rest

/-- Tests a value that lies on the stack, or drops it if it does not matter. -/
def testAttribute (loc : Location) (p : PatternState) (pattern : PatternCode) :
    Gen PatternState := do
  let p := p.shrink 1
  if pattern.source.isWildcard then
    emit .popTop 0 loc
    return p
  else pattern.testPart p

def testClass (loc : Location) (cls : ExprCode) (patterns : List PatternCode)
    (attrs : List String) (attrPatterns : List PatternCode) (p : PatternState) :
    Gen PatternState := do
  if attrs.length ≠ attrPatterns.length then
    refuse (.classLengths attrs.length attrPatterns.length) loc
  checkAttributes (attrs.zip (attrPatterns.map (·.loc)))
  cls.load
  emitConst (.tuple (attrs.map .str)) loc
  emit .matchClass patterns.length loc
  let p ← failIfNone loc (p.grow 1)
  let parts := patterns ++ attrPatterns
  emit .unpackSequence parts.length loc
  parts.foldlM (testAttribute loc) ((p.grow parts.length).shrink 1)

/-! ### Alternatives -/

/-- The names with the first `n` of them moved to stand from a given place on. -/
def moveFirst (n place : Nat) (names : List String) : List String :=
  (names.drop n).take place ++ names.take n ++ (names.drop n).drop place

/-- How the captures of an alternative come into the order of the first alternative, whose names are
given from the last to the first with their places: where each name is when its turn comes and where
it goes, and the captures in the end. -/
def captureMoves : List (String × Nat) → List String → Option (List (Nat × Nat) × List String)
  | [], stores => some ([], stores)
  | (name, place) :: rest, stores => do
    let now ← stores.idxOf? name
    let (moves, stores) ← captureMoves rest
      (if now = place then stores else moveFirst (now + 1) (place - now) stores)
    some ((now, place) :: moves, stores)

/-- The exchanges with the top that let a capture, and all above it, sink to its place. -/
def moveDepths (now place : Nat) : List Nat :=
  if now = place then [] else (List.range (now + 1)).flatMap fun _ => sinkDepths (place + 1)

def alignCaptures (loc : Location) (first stores : List String) : Gen Unit := do
  if first.length ≠ stores.length then refuse .alternativesDiffer loc
  match captureMoves first.zipIdx.reverse stores with
  | none => refuse .alternativesDiffer loc
  | some (moves, _) =>
    (moves.flatMap fun (now, place) => moveDepths now place).forM (emit .swap · loc)

/-- Tests alternatives in turn, where `first` are the captures of the first of them. -/
def testEach (loc : Location) (done : Label) (irrefutable : Bool) :
    (first : Option (List String)) → List PatternCode → Gen (List String)
  | first, [] => return first.getD []
  | first, alternative :: rest => do
    emit .copy 1 alternative.loc
    let p ← alternative.test (rest.isEmpty && irrefutable) {}
    match first with
    | none => pure ()
    | some first => alignCaptures loc first p.stores
    emitJump PseudoOp.jump done alternative.loc
    p.emitFailures alternative.loc
    testEach loc done irrefutable (some (first.getD p.stores)) rest

/-- Lets the captures of alternatives wait with the others. -/
def adoptCaptures (loc : Location) (depth : Nat) (p : PatternState) :
    List String → Gen PatternState
  | [] => return p
  | name :: names => do
    sink depth loc
    if p.stores.contains name then refuse (.captureTwice name) loc
    adoptCaptures loc depth { p with stores := p.stores ++ [name] } names

def testAlternatives (loc : Location) (alternatives : List PatternCode) (irrefutable : Bool)
    (p : PatternState) : Gen PatternState := do
  let done ← newLabel
  let names ← testEach loc done irrefutable none alternatives
  emit .popTop 0 loc
  let p ← p.jumpToFailure .jump loc
  bindLabel done
  let p ← adoptCaptures loc (names.length + 1 + p.onTop + p.stores.length) p names
  emit .popTop 0 loc
  return p

/-! ### Patterns -/

mutual

def lowerPattern : Pattern ScopeId → PatternCode
  | .value loc value => ⟨.value loc value, fun _ => testValue loc (lowerExpr value)⟩
  | .singleton loc value => ⟨.singleton loc value, fun _ => testSingleton loc value⟩
  | .sequence loc patterns =>
    ⟨.sequence loc patterns, fun _ => testSequence loc (lowerPatterns patterns)⟩
  | .mapping loc keys patterns rest =>
    ⟨.mapping loc keys patterns rest,
      fun _ => testMapping loc (lowerExprs keys) (lowerPatterns patterns) rest⟩
  | .classPattern loc cls patterns attrs attrPatterns =>
    ⟨.classPattern loc cls patterns attrs attrPatterns,
      fun _ => testClass loc (lowerExpr cls) (lowerPatterns patterns) attrs
        (lowerPatterns attrPatterns)⟩
  | .star loc name => ⟨.star loc name, fun _ => capture name loc⟩
  | .capture loc none name => ⟨.capture loc none name, testAnything loc name⟩
  | .capture loc (some pattern) name =>
    ⟨.capture loc (some pattern) name, testAs loc (lowerPattern pattern) name⟩
  | .alternatives loc patterns =>
    ⟨.alternatives loc patterns, testAlternatives loc (lowerPatterns patterns)⟩

def lowerPatterns : List (Pattern ScopeId) → List PatternCode
  | [] => []
  | p :: ps => lowerPattern p :: lowerPatterns ps

end

end Bytecode
