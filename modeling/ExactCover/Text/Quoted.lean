/-
ExactCover.Text.Quoted — text in quotation marks, so that it shows on one line.

Strings stand in double quotes and characters in single quotes. The enclosing
quote, the backslash, tab, line feed, carriage return and the null character are
written with a backslash; a character that does not show as itself is written by
its number in lower-case hexadecimal without leading zeros; all else stands for
itself.
-/
import ExactCover.Text.Invisible

namespace ExactCover.Text

/-- A character by its number, as in `\u{301}`. -/
def numbered (c : Char) : List Char :=
  '\\' :: 'u' :: '{' :: (Nat.toDigits 16 c.toNat ++ ['}'])

/-- How a character is written between two quotes `q`. -/
def escape (q c : Char) : List Char :=
  if c = '\x00' then ['\\', '0']
  else if c = '\t' then ['\\', 't']
  else if c = '\r' then ['\\', 'r']
  else if c = '\n' then ['\\', 'n']
  else if c = '\\' ∨ c = q then ['\\', c]
  else if isInvisible c then numbered c
  else [c]

/-- A string in double quotes. -/
def quoted (s : String) : String :=
  String.ofList ('"' :: (s.toList.flatMap (escape '"') ++ ['"']))

/-- A character in single quotes. -/
def quotedChar (c : Char) : String :=
  String.ofList ('\'' :: (escape '\'' c ++ ['\'']))

end ExactCover.Text
