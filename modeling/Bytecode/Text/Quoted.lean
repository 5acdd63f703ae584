import Bytecode.Text.Printable

/-!
# Quoted text

A quoted text stands between double quotes. The quote, the backslash and the usual controls have
a two-character escape, other characters that do not print are written by their code point in
hexadecimal, and all else stands for itself.
-/

namespace Bytecode.Text

/-- A number in hexadecimal, in lower case and without leading zeros. -/
def hexDigits (n : Nat) : List Char :=
  Nat.toDigits 16 n

def escape (c : Char) : List Char :=
  match c with
  | '"' => ['\\', '"']
  | '\\' => ['\\', '\\']
  | '\n' => ['\\', 'n']
  | '\r' => ['\\', 'r']
  | '\t' => ['\\', 't']
  | '\x00' => ['\\', '0']
  | c => if isPrintable c then [c] else ['\\', 'u', '\x7b'] ++ hexDigits c.toNat ++ ['\x7d']

def quoted (text : String) : String :=
  String.ofList ('"' :: text.toList.flatMap escape ++ ['"'])

end Bytecode.Text
