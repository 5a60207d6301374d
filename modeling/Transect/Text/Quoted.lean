import Transect.Text.Printable

/-!
# Quoted text

A text is shown between single quotes, or between double quotes when it holds single ones and no
double one. The backslash, the quote in use and every character that cannot be printed are escaped.
-/
namespace Transect.Text

/-- A code as lower-case hexadecimal digits, filled with zeros to a width. -/
def hexadecimal (width n : Nat) : String :=
  let digits := Nat.toDigits 16 n
  String.ofList (List.replicate (width - digits.length) '0' ++ digits)

/-- One character inside quotes: escaped by its code, in two, four or eight digits, when it cannot
be printed. -/
def escape (quote c : Char) : String :=
  if c = quote ∨ c = '\x5c' then String.ofList ['\x5c', c]
  else if c = '\n' then "\\n"
  else if c = '\t' then "\\t"
  else if c = '\r' then "\\r"
  else if isPrintable c then String.singleton c
  else if c.toNat < 0x100 then "\\x" ++ hexadecimal 2 c.toNat
  else if c.toNat < 0x10000 then "\\u" ++ hexadecimal 4 c.toNat
  else "\\U" ++ hexadecimal 8 c.toNat

def quoted (s : String) : String :=
  let quote := if s.contains '\x27' && !s.contains '\x22' then '\x22' else '\x27'
  String.singleton quote ++ String.join (s.toList.map (escape quote)) ++ String.singleton quote

end Transect.Text
