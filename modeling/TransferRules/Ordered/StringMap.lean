import TransferRules.Ordered.StringSet

/-!
# Maps from strings in order

A map from strings is the list of its entries with strictly ascending keys.  Looking up,
inserting and updating keep the order, so listing the entries of a map needs no sorting.

## Main Definitions

* `StringMap` — entries with strictly ascending keys
* `StringMap.find?`, `StringMap.insert`, `StringMap.update`, `StringMap.keys`
-/

namespace TransferRules.Ordered

/-- Put an entry into a list with ascending keys, in place of one with the same key. -/
def insertEntry {α : Type} (key : String) (value : α) : List (String × α) → List (String × α)
  | [] => [(key, value)]
  | (k, v) :: rest =>
    if key < k then (key, value) :: (k, v) :: rest
    else if key = k then (key, value) :: rest
    else (k, v) :: insertEntry key value rest

theorem keys_insertEntry {α : Type} (key : String) (value : α) (l : List (String × α)) :
    (insertEntry key value l).map Prod.fst = insertString key (l.map Prod.fst) := by
  induction l with
  | nil => rfl
  | cons e l ih =>
    obtain ⟨k, v⟩ := e
    simp only [insertEntry, insertString, List.map_cons]
    split
    · rfl
    · split
      · next h => simp [h]
      · simp [ih]

/-- A finite map from strings, listed with ascending keys. -/
structure StringMap (α : Type) where
  entries : List (String × α)
  sorted : (entries.map Prod.fst).Pairwise (· < ·)

namespace StringMap

variable {α : Type}

instance [DecidableEq α] : DecidableEq (StringMap α) := fun m n =>
  if h : m.entries = n.entries then
    isTrue (by cases m; cases n; subst h; rfl)
  else
    isFalse fun heq => h (congrArg entries heq)

/-- The map without entries. -/
def empty : StringMap α where
  entries := []
  sorted := by rw [List.map_nil]; exact List.Pairwise.nil

instance : Inhabited (StringMap α) := ⟨empty⟩

/-- The keys in ascending order. -/
def keys (m : StringMap α) : List String := m.entries.map Prod.fst

/-- The value of a key. -/
def find? (m : StringMap α) (key : String) : Option α :=
  (m.entries.find? fun entry => entry.1 == key).map Prod.snd

/-- Whether the key has a value. -/
def contains (m : StringMap α) (key : String) : Bool :=
  m.keys.contains key

/-- The map in which `key` has the value `value`. -/
def insert (m : StringMap α) (key : String) (value : α) : StringMap α :=
  ⟨insertEntry key value m.entries, by
    rw [keys_insertEntry]
    exact pairwise_insertString m.sorted⟩

/-- The map in which the value of `key` is what `f` makes of the old value. -/
def update (m : StringMap α) (key : String) (f : Option α → α) : StringMap α :=
  m.insert key (f (m.find? key))

/-- The map of a list of entries; of two entries with one key the later one counts. -/
def ofList (l : List (String × α)) : StringMap α :=
  l.foldl (fun m entry => m.insert entry.1 entry.2) empty

theorem nodup_keys (m : StringMap α) : m.keys.Nodup :=
  m.sorted.imp fun {a b} (h : a < b) (heq : a = b) => String.lt_irrefl b (heq ▸ h)

end StringMap

end TransferRules.Ordered
