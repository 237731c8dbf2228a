import MuCompletion.Text.Printable

/-!
# Quoted text

A text between double quotes, on one line: a backslash form stands for each quote, backslash, tab,
line break and null, and a hexadecimal form for every other character that is not printable.
-/

namespace MuCompletion.Text

/-- The form of one character inside quotes. -/
def quoteChar (c : Char) : List Char :=
  if c = '\x00' then ['\\', '0']
  else if c = '\t' then ['\\', 't']
  else if c = '\r' then ['\\', 'r']
  else if c = '\n' then ['\\', 'n']
  else if c = '\x22' then ['\\', '\x22']
  else if c = '\\' then ['\\', '\\']
  else if isPrintable c then [c]
  else ['\\', 'u', '{'] ++ Nat.toDigits 16 c.toNat ++ ['}']

/-- The text between quotes, with every character in its quoted form. -/
def quote (text : String) : String :=
  String.ofList ('\x22' :: text.toList.flatMap quoteChar ++ ['\x22'])

end MuCompletion.Text
