import Bytecode.Proofs.Composition.Generators
import Bytecode.Scope.Collect

/-!
# Mentions

What a tree with numbered scopes mentions at a site: the names that its code accesses there and at
the sites inside, and those sites.
-/

namespace Bytecode

def Site.module : Site :=
  ⟨0, none, .module⟩

def Site.inner (site : Site) (scope : ScopeId) (kind : UnitKind) : Site :=
  ⟨scope, site.className, kind⟩

def Site.function (site : Site) (scope : ScopeId) (isAsync : Bool) : Site :=
  site.inner scope (if isAsync then .asyncFunction else .function)

def Site.classBody (scope : ScopeId) (name : String) : Site :=
  ⟨scope, some name, .classBody⟩

mutual

def mentionsExpr (site : Site) : Expr ScopeId → List Mention
  | .boolOp _ _ values => mentionsExprs site values
  | .named _ target value => mentionsExpr site target ++ mentionsExpr site value
  | .binary _ left _ right => mentionsExpr site left ++ mentionsExpr site right
  | .unary _ _ operand => mentionsExpr site operand
  | .lambda _ scope params body => .scope (site.inner scope .lambda) ::
      (mentionsParameters site params ++ mentionsExpr (site.inner scope .lambda) body)
  | .conditional _ test body orElse =>
    mentionsExpr site test ++ (mentionsExpr site body ++ mentionsExpr site orElse)
  | .dict _ keys values => mentionsOptionals site keys ++ mentionsExprs site values
  | .set _ items => mentionsExprs site items
  | .list _ items => mentionsExprs site items
  | .tuple _ items => mentionsExprs site items
  | .comprehension _ _ _ [] => []
  | .comprehension _ scope element (⟨target, iter, conditions, _⟩ :: generators) =>
    .scope (site.inner scope .comprehension) ::
      (mentionsExpr site iter ++
        (mentionsExpr (site.inner scope .comprehension) target ++
          (mentionsExprs (site.inner scope .comprehension) conditions ++
            (mentionsGenerators (site.inner scope .comprehension) generators ++
              mentionsElement (site.inner scope .comprehension) element))))
  | .await _ value => mentionsExpr site value
  | .yield _ value => mentionsOptional site value
  | .yieldFrom _ value => mentionsExpr site value
  | .compare _ left _ comparators => mentionsExpr site left ++ mentionsExprs site comparators
  | .call _ func args keywords =>
    mentionsExpr site func ++ (mentionsExprs site args ++ mentionsKeywords site keywords)
  | .formatted _ value _ spec => mentionsExpr site value ++ mentionsOptional site spec
  | .joined _ values => mentionsExprs site values
  | .constant _ _ => []
  | .member _ value _ => mentionsExpr site value
  | .subscript _ value index => mentionsExpr site value ++ mentionsExpr site index
  | .starred _ value => mentionsExpr site value
  | .name _ id => [.name site id]
  | .slice _ lower upper step =>
    mentionsOptional site lower ++ (mentionsOptional site upper ++ mentionsOptional site step)

def mentionsExprs (site : Site) : List (Expr ScopeId) → List Mention
  | [] => []
  | e :: es => mentionsExpr site e ++ mentionsExprs site es

def mentionsOptional (site : Site) : Option (Expr ScopeId) → List Mention
  | none => []
  | some e => mentionsExpr site e

def mentionsOptionals (site : Site) : List (Option (Expr ScopeId)) → List Mention
  | [] => []
  | e :: es => mentionsOptional site e ++ mentionsOptionals site es

def mentionsKeywords (site : Site) : List (Keyword (Expr ScopeId)) → List Mention
  | [] => []
  | ⟨_, value, _⟩ :: keywords => mentionsExpr site value ++ mentionsKeywords site keywords

def mentionsParameter (site : Site) : Parameter (Expr ScopeId) → List Mention
  | ⟨_, hint, _⟩ => mentionsOptional site hint

def mentionsParameterList (site : Site) : List (Parameter (Expr ScopeId)) → List Mention
  | [] => []
  | p :: ps => mentionsParameter site p ++ mentionsParameterList site ps

def mentionsOptionalParameter (site : Site) : Option (Parameter (Expr ScopeId)) → List Mention
  | none => []
  | some p => mentionsParameter site p

def mentionsParameters (site : Site) : Parameters (Expr ScopeId) → List Mention
  | ⟨positionalOnly, positional, variadic, keywordOnly, keywordDefaults, keywordVariadic,
      defaults⟩ =>
    mentionsParameterList site positionalOnly ++ (mentionsParameterList site positional ++
      (mentionsOptionalParameter site variadic ++ (mentionsParameterList site keywordOnly ++
        (mentionsOptionals site keywordDefaults ++
          (mentionsOptionalParameter site keywordVariadic ++ mentionsExprs site defaults)))))

def mentionsGenerators (site : Site) : List (Generator (Expr ScopeId)) → List Mention
  | [] => []
  | ⟨target, iter, conditions, _⟩ :: generators =>
    mentionsExpr site target ++ (mentionsExpr site iter ++
      (mentionsExprs site conditions ++ mentionsGenerators site generators))

def mentionsElement (site : Site) : Element (Expr ScopeId) → List Mention
  | .list item => mentionsExpr site item
  | .set item => mentionsExpr site item
  | .dict key value => mentionsExpr site key ++ mentionsExpr site value
  | .generator item => mentionsExpr site item

end

def mentionsNames (site : Site) (names : List String) : List Mention :=
  names.map (.name site)

mutual

def mentionsPattern (site : Site) : Pattern ScopeId → List Mention
  | .value _ value => mentionsExpr site value
  | .singleton _ _ => []
  | .sequence _ patterns => mentionsPatterns site patterns
  | .mapping _ keys patterns rest =>
    mentionsExprs site keys ++ (mentionsPatterns site patterns ++ mentionsNames site rest.toList)
  | .classPattern _ cls patterns _ attrPatterns =>
    mentionsExpr site cls ++ (mentionsPatterns site patterns ++ mentionsPatterns site attrPatterns)
  | .star _ name => mentionsNames site name.toList
  | .capture _ pattern name =>
    mentionsOptionalPattern site pattern ++ mentionsNames site name.toList
  | .alternatives _ patterns => mentionsPatterns site patterns

def mentionsPatterns (site : Site) : List (Pattern ScopeId) → List Mention
  | [] => []
  | p :: ps => mentionsPattern site p ++ mentionsPatterns site ps

def mentionsOptionalPattern (site : Site) : Option (Pattern ScopeId) → List Mention
  | none => []
  | some p => mentionsPattern site p

end

def mentionsWithItems (site : Site) : List (WithItem (Expr ScopeId)) → List Mention
  | [] => []
  | ⟨context, target⟩ :: items =>
    mentionsExpr site context ++ (mentionsOptional site target ++ mentionsWithItems site items)

/-- A name in parentheses is accessed only with a value. -/
def mentionsAnnotated (site : Site) (target : Expr ScopeId) (hasValue simple : Bool) :
    List Mention :=
  match target with
  | .name _ id => if simple || hasValue then [.name site id] else []
  | other => mentionsExpr site other

def classNames : List String :=
  ["__name__", "__module__", "__qualname__", "__doc__", "__classcell__"]

mutual

def mentionsStmt (site : Site) : Stmt ScopeId → List Mention
  | .functionDef _ ⟨scope, name, params, body, decorators, returns, isAsync⟩ =>
    .name site name :: .scope (site.function scope isAsync) ::
      (mentionsParameters site params ++ (mentionsOptional site returns ++
        (mentionsExprs site decorators ++ mentionsBody (site.function scope isAsync) body)))
  | .classDef _ ⟨scope, name, bases, keywords, body, decorators⟩ =>
    .name site name :: .scope (.classBody scope name) ::
      (mentionsExprs site bases ++ (mentionsKeywords site keywords ++
        (mentionsExprs site decorators ++
          (mentionsNames (.classBody scope name) classNames ++
            mentionsBody (.classBody scope name) body))))
  | .returns _ value => mentionsOptional site value
  | .delete _ targets => mentionsExprs site targets
  | .assign _ targets value => mentionsExprs site targets ++ mentionsExpr site value
  | .augment _ target _ value => mentionsExpr site target ++ mentionsExpr site value
  | .annotate _ target hint value simple =>
    mentionsAnnotated site target value.isSome simple ++
      (mentionsExpr site hint ++ mentionsOptional site value)
  | .forLoop _ target iter body orElse _ =>
    mentionsExpr site target ++ (mentionsExpr site iter ++
      (mentionsBody site body ++ mentionsBody site orElse))
  | .whileLoop _ test body orElse =>
    mentionsExpr site test ++ (mentionsBody site body ++ mentionsBody site orElse)
  | .branch _ test body orElse =>
    mentionsExpr site test ++ (mentionsBody site body ++ mentionsBody site orElse)
  | .withBlock _ items body _ => mentionsWithItems site items ++ mentionsBody site body
  | .matchCases _ subject cases => mentionsExpr site subject ++ mentionsCases site cases
  | .raise _ exception cause => mentionsOptional site exception ++ mentionsOptional site cause
  | .tryBlock _ body handlers orElse finalBody =>
    mentionsBody site body ++ (mentionsHandlers site handlers ++
      (mentionsBody site orElse ++ mentionsBody site finalBody))
  | .assertion _ test message => mentionsExpr site test ++ mentionsOptional site message
  | .importModules _ names =>
    mentionsNames site (names.map fun a => a.asName.getD (Collect.headPart a.name))
  | .importFrom _ _ names _ => mentionsNames site (names.map fun a => a.asName.getD a.name)
  | .globals _ _ => []
  | .nonlocals _ _ => []
  | .expression _ value => mentionsExpr site value
  | .pass _ => []
  | .breakLoop _ => []
  | .continueLoop _ => []

def mentionsBody (site : Site) : List (Stmt ScopeId) → List Mention
  | [] => []
  | s :: ss => mentionsStmt site s ++ mentionsBody site ss

def mentionsCases (site : Site) :
    List (Case (Pattern ScopeId) (Expr ScopeId) (List (Stmt ScopeId))) → List Mention
  | [] => []
  | ⟨pattern, guard, body⟩ :: cases =>
    mentionsPattern site pattern ++ (mentionsOptional site guard ++
      (mentionsBody site body ++ mentionsCases site cases))

def mentionsHandlers (site : Site) :
    List (Handler (Expr ScopeId) (List (Stmt ScopeId))) → List Mention
  | [] => []
  | ⟨type, name, body, _⟩ :: handlers =>
    mentionsOptional site type ++ (mentionsNames site name.toList ++
      (mentionsBody site body ++ mentionsHandlers site handlers))

end

end Bytecode
