import Bytecode.Number.Shortest
import Bytecode.Text.Quoted

/-!
# Constants

The values that a program can hold ready. Two constants are the same only if the machine cannot
tell them apart: `1`, `1.0` and `True` are three constants, and so are the two zeros. A code
constant refers to an entry of the code table of its compilation.
-/

namespace Bytecode

inductive Constant where
  | none
  | ellipsis
  | bool (value : Bool)
  | int (value : Int)
  | float (value : Binary64)
  | complex (re im : Binary64)
  | str (value : String)
  | bytes (value : List UInt8)
  | tuple (items : List Constant)
  | code (index : Nat) (name : String)
deriving Repr, Inhabited

namespace Constant

mutual

def same : Constant → Constant → Bool
  | .none, .none => true
  | .ellipsis, .ellipsis => true
  | .bool a, .bool b => a = b
  | .int a, .int b => a = b
  | .float a, .float b => a = b
  | .complex a c, .complex b d => a = b && c = d
  | .str a, .str b => a = b
  | .bytes a, .bytes b => a = b
  | .tuple as, .tuple bs => sameAll as bs
  | .code i a, .code j b => i = j && a = b
  | _, _ => false

def sameAll : List Constant → List Constant → Bool
  | [], [] => true
  | a :: as, b :: bs => same a b && sameAll as bs
  | _, _ => false

end

mutual

theorem same_iff : (a b : Constant) → (same a b = true ↔ a = b)
  | .none, b => by cases b <;> simp [same]
  | .ellipsis, b => by cases b <;> simp [same]
  | .bool _, b => by cases b <;> simp [same]
  | .int _, b => by cases b <;> simp [same]
  | .float _, b => by cases b <;> simp [same]
  | .complex _ _, b => by cases b <;> simp [same]
  | .str _, b => by cases b <;> simp [same]
  | .bytes _, b => by cases b <;> simp [same]
  | .tuple as, b => by cases b <;> simp [same, sameAll_iff as]
  | .code _ _, b => by cases b <;> simp [same]

theorem sameAll_iff : (as bs : List Constant) → (sameAll as bs = true ↔ as = bs)
  | [], bs => by cases bs <;> simp [sameAll]
  | a :: as, bs => by cases bs <;> simp [sameAll, same_iff a, sameAll_iff as]

end

instance : DecidableEq Constant :=
  fun a b => decidable_of_iff _ (same_iff a b)

def isTruthy : Constant → Bool
  | .none => false
  | .ellipsis => true
  | .bool b => b
  | .int n => n ≠ 0
  | .float x => !x.isZero
  | .complex re im => !re.isZero || !im.isZero
  | .str s => !s.isEmpty
  | .bytes bs => !bs.isEmpty
  | .tuple items => !items.isEmpty
  | .code .. => true

def typeName : Constant → String
  | .none => "NoneType"
  | .ellipsis => "ellipsis"
  | .bool _ => "bool"
  | .int _ => "int"
  | .float _ => "float"
  | .complex .. => "complex"
  | .str _ => "str"
  | .bytes _ => "bytes"
  | .tuple _ => "tuple"
  | .code .. => "code"

def byteText (b : UInt8) : String :=
  if b = 0x27 then "\\'"
  else if b = 0x5C then "\\\\"
  else if 0x20 ≤ b ∧ b ≤ 0x7E then String.singleton (Char.ofNat b.toNat)
  else
    let hex := Text.hexDigits b.toNat
    "\\x" ++ String.ofList (if hex.length < 2 then '0' :: hex else hex)

/-- A complex number: the imaginary part alone if the real part is a positive zero. -/
def complexText (re im : Binary64) : String :=
  if re.isZero && !re.negative then im.text ++ "j"
  else
    let sign := if im.negative then "" else "+"
    "(" ++ re.text ++ sign ++ im.text ++ "j)"

mutual

def text : Constant → String
  | .none => "None"
  | .ellipsis => "Ellipsis"
  | .bool true => "True"
  | .bool false => "False"
  | .int n => Int.repr n
  | .float x => x.text
  | .complex re im => complexText re im
  | .str s => Text.quoted s
  | .bytes bs => "b'" ++ String.join (bs.map byteText) ++ "'"
  | .tuple items =>
    "(" ++ String.intercalate ", " (texts items) ++ (if items.length = 1 then ",)" else ")")
  | .code _ name => s!"<code object {name}>"

def texts : List Constant → List String
  | [] => []
  | c :: cs => text c :: texts cs

end

end Constant

end Bytecode
