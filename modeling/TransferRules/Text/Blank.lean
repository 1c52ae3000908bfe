/-!
# Blank characters and trimming

Two notions of blank meet in this library.  Attribute values and text of a document are
trimmed of the Unicode property White_Space (`isBlank`); the layout between pieces of markup
is only what the markup language calls space (`isSpace`).

## Main Definitions

* `isBlank`, `isSpace` — the two character classes
* `strip` — drop a class of characters at both ends
* `trim` — `strip` for `isBlank`, on strings
-/

namespace TransferRules.Text

/-- The characters of the Unicode property White_Space. -/
def isBlank (c : Char) : Bool :=
  let n := c.toNat
  (9 ≤ n && n ≤ 13) || n == 0x20 || n == 0x85 || n == 0xA0 || n == 0x1680 ||
    (0x2000 ≤ n && n ≤ 0x200A) || n == 0x2028 || n == 0x2029 || n == 0x202F ||
    n == 0x205F || n == 0x3000

/-- Space, tab, carriage return and line feed: the only layout of markup. -/
def isSpace (c : Char) : Bool :=
  c == ' ' || c == '\t' || c == '\r' || c == '\n'

/-- Drop the longest tail whose characters all satisfy `p`. -/
def dropTail (p : Char → Bool) (cs : List Char) : List Char :=
  (cs.reverse.dropWhile p).reverse

/-- Drop the characters satisfying `p` at both ends. -/
def strip (p : Char → Bool) (cs : List Char) : List Char :=
  dropTail p (cs.dropWhile p)

/-- The text without the blanks at its two ends. -/
def trim (s : String) : String :=
  String.ofList (strip isBlank s.toList)

/-- Markup space is blank. -/
theorem isBlank_of_isSpace {c : Char} (h : isSpace c = true) : isBlank c = true := by
  simp only [isSpace, Bool.or_eq_true, beq_iff_eq] at h
  rcases h with ((rfl | rfl) | rfl) | rfl <;> decide

/-- Nothing is dropped from an end that does not satisfy the class. -/
theorem dropTail_concat {p : Char → Bool} {cs : List Char} {c : Char} (h : p c = false) :
    dropTail p (cs ++ [c]) = cs ++ [c] := by
  simp [dropTail, h]

end TransferRules.Text
