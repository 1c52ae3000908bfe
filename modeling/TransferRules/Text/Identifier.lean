import TransferRules.Text.Blank

/-!
# Identifiers

Names in a transfer file may not hold spaces.  An identifier is made from free text by
trimming it and writing an underscore for every space; no other character is touched.
-/

namespace TransferRules.Text

/-- The character written in an identifier. -/
def identifierChar (c : Char) : Char :=
  if c = ' ' then '_' else c

/-- The identifier of a text: trimmed, with an underscore for every space. -/
def identifier (s : String) : String :=
  String.ofList ((trim s).toList.map identifierChar)

/-- No identifier holds a space. -/
theorem space_notMem_identifier (s : String) : ' ' ∉ (identifier s).toList := by
  simp only [identifier, String.toList_ofList, List.mem_map, not_exists, not_and]
  intro c _ h
  unfold identifierChar at h
  split at h
  · exact absurd h (by decide)
  · next hne => exact hne h

end TransferRules.Text
