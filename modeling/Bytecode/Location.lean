/-!
# Source locations

A location is a range of source text. Lines count from one and columns from zero; a negative
number stands for a part that is not known. Instructions that the compiler makes up have no
location at all.
-/

namespace Bytecode

/-- A source range from `line:col` to `endLine:endCol`, the end column excluded. -/
structure Location where
  line : Int
  col : Int
  endLine : Int
  endCol : Int
deriving DecidableEq, Repr

namespace Location

/-- The location of an instruction that no source text stands for. -/
def none : Location := ⟨-1, -1, -1, -1⟩

instance : Inhabited Location := ⟨none⟩

def ofLine (line : Int) : Location := ⟨line, -1, line, -1⟩

def atLine (line : Int) : Location := ⟨line, 0, line, 0⟩

def span (line col endCol : Int) : Location := ⟨line, col, line, endCol⟩

end Location

end Bytecode
