import Bytecode.Tree

/-!
# A sample module

The tree of a small module with a closure, a loop and a protected region:

```text
def make_adder(base):
    def add(x):
        return x + base
    return add

for i in range(3):
    try:
        print(make_adder(i)(i))
    finally:
        done = True
```
-/

namespace Bytecode

namespace Sample

def function (name param : String) (body : Body Unit) (loc : Location) : Stmt Unit :=
  .functionDef loc {
    scope := ()
    name := name
    params := { positional := [⟨param, none, loc⟩] }
    body := body
    decorators := []
    returns := none
    isAsync := false }

def call (func arg : Expr Unit) (loc : Location) : Expr Unit :=
  .call loc func [arg] []

def name (id : String) (loc : Location) : Expr Unit :=
  .name loc id

def add : Stmt Unit :=
  let sum := Expr.binary (.span 3 15 23) (name "x" (.span 3 15 16)) .add
    (name "base" (.span 3 19 23))
  function "add" "x" [.returns (.span 3 8 23) (some sum)] (.span 2 4 23)

def makeAdder : Stmt Unit :=
  function "make_adder" "base"
    [add, .returns (.span 4 4 14) (some (name "add" (.span 4 11 14)))] (.span 1 0 14)

def print : Expr Unit :=
  let adder := call (name "make_adder" (.span 8 14 24)) (name "i" (.span 8 25 26)) (.span 8 14 27)
  let applied := call adder (name "i" (.span 8 28 29)) (.span 8 14 30)
  call (name "print" (.span 8 8 13)) applied (.span 8 8 31)

def guarded : Stmt Unit :=
  let done := Stmt.assign (.span 10 8 19) [name "done" (.span 10 8 12)]
    (.constant (.span 10 15 19) (.bool true))
  .tryBlock (.span 7 4 19) [.expression print.loc print] [] [] [done]

def loop : Stmt Unit :=
  let range := call (name "range" (.span 6 9 14)) (.constant (.span 6 15 16) (.int 3))
    (.span 6 9 17)
  .forLoop (.span 6 0 17) (name "i" (.span 6 4 5)) range [guarded] [] false

end Sample

def sampleModule : Body Unit :=
  [Sample.makeAdder, Sample.loop]

end Bytecode
