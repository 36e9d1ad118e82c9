/-
ExactCover.Text.Line — text cut into lines and words.

A line ends at a line feed, and a text that ends with one has no further line.
Words are the longest runs without blanks, where the blanks are the characters
with the property White_Space. A carriage return is a blank, so a line that is
trimmed has none at its end.
-/

namespace ExactCover.Text

/-- The characters with the property White_Space. -/
def isBlank (c : Char) : Bool :=
  let n := c.toNat
  (9 ≤ n && n ≤ 13) || n == 0x20 || n == 0x85 || n == 0xa0 || n == 0x1680 ||
    (0x2000 ≤ n && n ≤ 0x200a) || n == 0x2028 || n == 0x2029 || n == 0x202f ||
    n == 0x205f || n == 0x3000

/-- The parts between the characters that satisfy `p`: one more than there are such characters. -/
def splitAt (p : Char → Bool) : List Char → List (List Char)
  | [] => [[]]
  | c :: rest =>
    if p c then [] :: splitAt p rest
    else match splitAt p rest with
      | [] => [[c]]
      | part :: parts => (c :: part) :: parts

/-- The lines of a text. What follows the last line feed is a line only if it is not empty. -/
def lines (s : List Char) : List (List Char) :=
  let parts := splitAt (· == '\n') s
  if parts.getLast? = some [] then parts.dropLast else parts

/-- A text without the blanks at both ends. -/
def trim (s : List Char) : List Char :=
  ((s.dropWhile isBlank).reverse.dropWhile isBlank).reverse

/-- The words of a text. -/
def words (s : List Char) : List (List Char) :=
  (splitAt isBlank s).filter fun w => !w.isEmpty

theorem splitAt_ne_nil (p : Char → Bool) (s : List Char) : splitAt p s ≠ [] := by
  cases s with
  | nil => simp [splitAt]
  | cons c rest =>
    unfold splitAt
    split
    · simp
    · split <;> simp

end ExactCover.Text
