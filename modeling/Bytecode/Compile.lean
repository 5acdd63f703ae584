import Bytecode.Lowering.Statement
import Bytecode.Scope.Resolve

/-!
# Compilation

A module becomes a code object. The code objects inside it, at any depth, are entries of a code
table, to which constants refer by number.
-/

namespace Bytecode

structure CompiledModule where
  code : CodeObject
  table : Array CodeObject
  warnings : List Warning

namespace CompiledModule

variable (m : CompiledModule)

def entry? (index : Nat) : Option CodeObject :=
  m.table[index]?

/-- A code object and those inside it, depth first. The constants of an entry refer to smaller
numbers, so that the size of the table bounds the depth. -/
def codesFrom : (fuel : Nat) → CodeObject → List CodeObject
  | 0, c => [c]
  | fuel + 1, c => c :: (c.nested.filterMap m.entry?).flatMap (codesFrom fuel)

def codes : List CodeObject :=
  m.codesFrom m.table.size m.code

end CompiledModule

open Gen

def lowerModule (body : Body ScopeId) : Gen Unit :=
  unitCode (.ofLine 0) (BodyCode.lower ⟨body, lowerBody body⟩)

def moduleUnit (options : CompileOptions) (scopes : ScopeViews) : UnitInfo where
  kind := .module
  scope := scopes.scope 0
  name := "<module>"
  qualifiedName := "<module>"
  flags := options.features.codeFlags

def ScopedModule.compile (options : CompileOptions) (m : ScopedModule) : Result CompiledModule := do
  let context : GenContext := ⟨options, m.scopes, moduleUnit options m.scopes⟩
  let generate : Gen CodeObject := do
    lowerModule m.body
    assembleUnit
  let (code, s) ← (generate.run context).run {}
  return ⟨code, s.codes, s.warnings⟩

def compile (options : CompileOptions) (body : Body Unit) : Result CompiledModule := do
  (← ScopedModule.ofBody options.file body).compile options

end Bytecode
