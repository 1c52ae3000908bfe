import TransferRules.Text.LetterCase

/-!
# Lowercase

Every character is lowered by itself, with two exceptions: a capital I with a dot becomes an i
and a combining dot, and a capital sigma that ends a word becomes a final sigma.
-/

namespace TransferRules.Text

/-- Whether a code lies in one of some ranges. -/
def inRanges (ranges : List (Nat × Nat)) (n : Nat) : Bool :=
  ranges.any fun (first, last) => first ≤ n && n ≤ last

/-- The lowercase form of a single character. -/
def lowercaseChar (c : Char) : Char :=
  let n := c.toNat
  match lowercaseRuns.find? fun (first, last, distance, _) =>
      first ≤ n && n ≤ last && (n - first) % distance == 0 with
  | some (first, _, _, image) => Char.ofNat (image + (n - first))
  | none => c

/-- Whether the first character that is not passed over has case. -/
def leadsToCased (cs : List Char) : Bool :=
  match cs.dropWhile fun c => inRanges caseIgnorableRanges c.toNat with
  | c :: _ => inRanges casedRanges c.toNat
  | [] => false

/-- Lower what follows `before`, which is given in reverse. -/
def lowercaseFrom (before : List Char) : List Char → List Char
  | [] => []
  | c :: rest =>
    let lowered :=
      if c = '\u0130' then ['i', '\u0307']
      else if c = '\u03A3' then
        if leadsToCased before && !leadsToCased rest then ['\u03C2'] else ['\u03C3']
      else [lowercaseChar c]
    lowered ++ lowercaseFrom (c :: before) rest

/-- The lowercase form of a text. -/
def lowercase (s : String) : String := String.ofList (lowercaseFrom [] s.toList)

end TransferRules.Text
