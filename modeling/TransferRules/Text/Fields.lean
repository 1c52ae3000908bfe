/-!
# Fields

A text cut at every occurrence of a separating character.  There is always one field more than
separators.
-/

namespace TransferRules.Text

/-- The fields between the separators of a text. -/
def fields (separator : Char) : List Char → List (List Char)
  | [] => [[]]
  | c :: cs =>
    if c = separator then [] :: fields separator cs
    else
      match fields separator cs with
      | [] => [[c]]
      | field :: rest => (c :: field) :: rest

/-- The fields of a string. -/
def fieldsOf (separator : Char) (s : String) : List String :=
  (fields separator s.toList).map String.ofList

/-- There is always a field. -/
theorem fields_ne_nil (separator : Char) (cs : List Char) : fields separator cs ≠ [] := by
  cases cs with
  | nil => simp [fields]
  | cons c cs =>
    unfold fields
    split
    · simp
    · split <;> simp

/-- A text without the separator is a field. -/
theorem fields_of_notMem {separator : Char} {cs : List Char} (h : separator ∉ cs) :
    fields separator cs = [cs] := by
  induction cs with
  | nil => rfl
  | cons c cs ih =>
    rw [List.mem_cons, not_or] at h
    rw [fields, if_neg fun heq => h.1 heq.symm, ih h.2]

/-- The fields on both sides of a separator. -/
theorem fields_append_cons (separator : Char) (cs ds : List Char) :
    fields separator (cs ++ separator :: ds) = fields separator cs ++ fields separator ds := by
  induction cs with
  | nil => simp [fields]
  | cons c cs ih =>
    rw [List.cons_append, fields, fields, ih]
    split
    · rfl
    · cases hfields : fields separator cs with
      | nil => exact absurd hfields (fields_ne_nil separator cs)
      | cons field rest => rfl

end TransferRules.Text
