import TransferRules.Markup.Entity
import TransferRules.Text.Blank

/-!
# Attributes of a tag

The content of a tag is its name, up to the first space, and a list of attributes.  They are
read from left to right, and the first fault ends the reading: a key without a value, a key
seen before, a value without quotes, a value whose entities cannot be read.

## Main Definitions

* `AttributeError` — the faults, with byte offsets in the content of the tag
* `readAttributes` — the attributes of a tag
* `tagName` — the name of a tag
-/

namespace TransferRules.Markup

open TransferRules.Text

/-- A fault in an attribute list.  Positions are byte offsets in the content of the tag. -/
inductive AttributeError where
  | missingEquals (position : Nat)
  | duplicate (position previous : Nat)
  | missingValue (position : Nat)
  | unquotedValue (position : Nat)
  | unclosedQuote (position : Nat) (quote : Char)
  | badValue (error : EntityError)
  deriving Repr, DecidableEq

/-- The wording of an attribute fault. -/
def AttributeError.message : AttributeError → String
  | .missingEquals position =>
    "position " ++ toString position ++
      ": attribute key must be directly followed by `=` or space"
  | .duplicate position previous =>
    "position " ++ toString position ++
      ": duplicated attribute, previous declaration at position " ++ toString previous
  | .missingValue position =>
    "position " ++ toString position ++ ": `=` must be followed by an attribute value"
  | .unquotedValue position =>
    "position " ++ toString position ++ ": attribute value must be enclosed in `\"` or `'`"
  | .unclosedQuote position quote =>
    "position " ++ toString position ++ ": missing closing quote `" ++ String.singleton quote ++
      "` in attribute value"
  | .badValue error => error.message

/-- The name at the start of a tag's content. -/
def tagName (content : List Char) : List Char := content.takeWhile fun c => !isSpace c

/-- Whether a character ends a key. -/
def endsKey (c : Char) : Bool := c == '=' || isSpace c

/-- Split before the first character that satisfies `p`. -/
def splitBefore (p : Char → Bool) (cs : List Char) : List Char × List Char :=
  (cs.takeWhile fun c => !p c, cs.dropWhile fun c => !p c)

/-- An attribute as it was found: where its key starts, the key and the value. -/
structure FoundAttribute where
  position : Nat
  key : List Char
  value : List Char

/-- Read the first attribute of `cs`, which is what is left of a content of `length` bytes,
given the attributes before it.  The rest starts behind the closing quote. -/
def readAttribute (length : Nat) (earlier : List FoundAttribute) (c : Char) (cs : List Char) :
    Except AttributeError (FoundAttribute × List Char) :=
  let position := length - byteSize (c :: cs)
  let (more, afterKey) := splitBefore endsKey cs
  let key := c :: more
  match afterKey.dropWhile isSpace with
  | [] => .error (.missingEquals length)
  | e :: afterEquals =>
    if e ≠ '=' then .error (.missingEquals (length - byteSize (e :: afterEquals)))
    else
      match earlier.find? fun found => found.key == key with
      | some found => .error (.duplicate position found.position)
      | none =>
        match afterEquals.dropWhile isSpace with
        | [] => .error (.missingValue length)
        | q :: afterQuote =>
          if q ≠ '"' ∧ q ≠ '\'' then
            .error (.unquotedValue (length - byteSize (q :: afterQuote)))
          else
            let (raw, closing) := splitBefore (· == q) afterQuote
            match closing with
            | [] => .error (.unclosedQuote length q)
            | _ :: rest =>
              match unescape raw with
              | .error error => .error (.badValue error)
              | .ok value => .ok (⟨position, key, value⟩, rest)

theorem length_dropWhile_le {α : Type} (p : α → Bool) (l : List α) :
    (l.dropWhile p).length ≤ l.length := by
  induction l with
  | nil => simp
  | cons a l ih =>
    rw [List.dropWhile_cons]
    split
    · simp only [List.length_cons]; omega
    · simp

theorem readAttribute_length {length : Nat} {earlier : List FoundAttribute} {c : Char}
    {cs rest : List Char} {found : FoundAttribute}
    (h : readAttribute length earlier c cs = .ok (found, rest)) :
    rest.length < cs.length + 1 := by
  unfold readAttribute at h
  simp only [splitBefore] at h
  split at h
  · exact absurd h (by simp)
  · next e afterEquals hequals =>
    split at h
    · exact absurd h (by simp)
    · split at h
      · exact absurd h (by simp)
      · split at h
        · exact absurd h (by simp)
        · next q afterQuote hquote =>
          split at h
          · exact absurd h (by simp)
          · split at h
            · exact absurd h (by simp)
            · next d rest' hclosing =>
              split at h
              · exact absurd h (by simp)
              · simp only [Except.ok.injEq, Prod.mk.injEq] at h
                have h1 := length_dropWhile_le (fun c => !endsKey c) cs
                have h2 := length_dropWhile_le isSpace (cs.dropWhile fun c => !endsKey c)
                have h3 := length_dropWhile_le isSpace afterEquals
                have h4 := length_dropWhile_le (fun x => !(x == q)) afterQuote
                rw [hequals] at h2
                rw [hquote] at h3
                rw [hclosing] at h4
                simp only [List.length_cons] at h2 h3 h4
                rw [← h.2]
                omega

/-- Read the attributes in `cs`, what is left of a content of `length` bytes, after those
found so far. -/
def readAttributesFrom (length : Nat) (earlier : List FoundAttribute) (cs : List Char) :
    Except AttributeError (List FoundAttribute) :=
  match _h : cs.dropWhile isSpace with
  | [] => .ok earlier
  | c :: rest =>
    match _hread : readAttribute length earlier c rest with
    | .error error => .error error
    | .ok (found, rest') => readAttributesFrom length (earlier ++ [found]) rest'
termination_by cs.length
decreasing_by
  have h1 := readAttribute_length ‹_›
  have h2 := length_dropWhile_le isSpace cs
  rw [‹cs.dropWhile isSpace = _›] at h2
  simp only [List.length_cons] at h2
  omega

/-- The attributes of a tag with the given content, in order. -/
def readAttributes (content : List Char) : Except AttributeError (List (String × String)) :=
  let unread := content.drop (tagName content).length
  (readAttributesFrom (byteSize content) [] unread).map fun found =>
    found.map fun a => (String.ofList a.key, String.ofList a.value)

end TransferRules.Markup
