import Mathlib.Data.List.Count
import Mathlib.Data.List.Nodup
import TransferRules.Proofs.Rule.Permutation
import TransferRules.Proofs.Specification.WellFormed

/-!
# Well-formed rules, once they are read

What is checked while a rule is read does not show in the type of rules.  The compiler relies on it
all the same: it looks words up by id and takes the first that it finds.  In a rule that was read
without an issue the first one is the only one, so it does not matter in which order the words
stand, and leaving out words other than the head gives a rule of the same kind.

## Main Definitions

* `Rule.Identified` — an id stands for one word of a phrase, and there is one head
* `Rule.WellFormed` — what holds of a rule that was read without an issue

## Main Statements

* `wellFormed_of_readRule` — rules that are read without an issue are well formed
* `Rule.Identified.exists_head`, `Rule.Identified.reorder` — there is one head, in whatever order
  the words stand
* `Rule.WellFormed.exists_position` — every target word has the position of a source word
* `Rule.WellFormed.retain` — leaving out words other than the head
-/

namespace TransferRules

open TransferRules.Ordered

namespace Rule

/-- The ids of the words are their own within each phrase, and one target word is the head. -/
structure Identified (r : Rule) : Prop where
  sourceIds : (r.source.map SourceWord.id).Nodup
  targetIds : (r.target.map TargetWord.id).Nodup
  head : r.target.countP TargetWord.isHead = 1

/-- A rule is well formed if its ids are its own, there is one head, it has a source word, and every
target word translates a source word. -/
structure WellFormed (r : Rule) : Prop extends Identified r where
  nonempty : r.source ≠ []
  translated : ∀ w ∈ r.target, ∃ v ∈ r.source, v.id = w.id

section Decide

variable {r : Rule}

theorem identified_iff : r.Identified ↔
    (r.source.map SourceWord.id).Nodup ∧ (r.target.map TargetWord.id).Nodup ∧
      r.target.countP TargetWord.isHead = 1 :=
  ⟨fun h => ⟨h.sourceIds, h.targetIds, h.head⟩,
    fun ⟨hsource, htarget, hhead⟩ => ⟨hsource, htarget, hhead⟩⟩

instance : Decidable r.Identified := decidable_of_iff' _ identified_iff

theorem wellFormed_iff : r.WellFormed ↔
    r.Identified ∧ r.source ≠ [] ∧ ∀ w ∈ r.target, ∃ v ∈ r.source, v.id = w.id :=
  ⟨fun h => ⟨h.toIdentified, h.nonempty, h.translated⟩,
    fun ⟨hids, hnonempty, htranslated⟩ => ⟨hids, hnonempty, htranslated⟩⟩

instance : Decidable r.WellFormed := decidable_of_iff' _ wellFormed_iff

end Decide

namespace Identified

variable {r : Rule}

/-- **There is one head.** -/
theorem exists_head (h : r.Identified) :
    ∃ w ∈ r.target, r.head? = some w ∧ ∀ v ∈ r.target, v.isHead = true ↔ v = w := by
  have hcount := h.head
  rw [List.countP_eq_length_filter] at hcount
  obtain ⟨w, hw⟩ := List.length_eq_one_iff.1 hcount
  have hhead : r.head? = some w := by
    rw [head?, ← List.head?_filter, hw]
    rfl
  have hmem : ∀ v, v ∈ r.target ∧ v.isHead = true ↔ v = w := by
    intro v
    rw [← List.mem_filter, hw, List.mem_singleton]
  refine ⟨w, ((hmem w).2 rfl).1, hhead, fun v hv => ⟨fun hv' => (hmem v).1 ⟨hv, hv'⟩, ?_⟩⟩
  rintro rfl
  exact ((hmem v).2 rfl).2

/-- An id stands for one word of the source phrase. -/
theorem sourceWord_unique (h : r.Identified) {v w : SourceWord} (hv : v ∈ r.source)
    (hw : w ∈ r.source) (hid : v.id = w.id) : v = w :=
  List.inj_on_of_nodup_map h.sourceIds hv hw hid

/-- An id stands for one word of the target phrase. -/
theorem targetWord_unique (h : r.Identified) {v w : TargetWord} (hv : v ∈ r.target)
    (hw : w ∈ r.target) (hid : v.id = w.id) : v = w :=
  List.inj_on_of_nodup_map h.targetIds hv hw hid

/-- A target word is the head if it has the id of the head. -/
theorem isHead_eq (h : r.Identified) {w : TargetWord} (hw : w ∈ r.target) :
    w.isHead = (r.head?.map TargetWord.id == some w.id) := by
  obtain ⟨head, hmem, hhead, hall⟩ := h.exists_head
  rw [Bool.eq_iff_iff, hall w hw, hhead, Option.map_some, beq_iff_eq, Option.some.injEq]
  constructor
  · intro heq
    rw [heq]
  · intro hid
    exact h.targetWord_unique hw hmem hid.symm

variable {source : List SourceWord} {target : List TargetWord}

/-- **In another order** the ids are still their own, and there is still one head. -/
theorem reorder (h : r.Identified) (hsource : source.Perm r.source)
    (htarget : target.Perm r.target) : { r with source, target }.Identified where
  sourceIds := (hsource.map _).nodup_iff.2 h.sourceIds
  targetIds := (htarget.map _).nodup_iff.2 h.targetIds
  head := (htarget.countP_eq _).trans h.head

/-- It is the same one. -/
theorem head?_reorder (h : r.Identified) (hsource : source.Perm r.source)
    (htarget : target.Perm r.target) : { r with source, target }.head? = r.head? := by
  obtain ⟨head, -, hhead, hall⟩ := h.exists_head
  obtain ⟨head', hmem', hhead', hall'⟩ := (h.reorder hsource htarget).exists_head
  rw [hhead, hhead', (hall head' (htarget.mem_iff.1 hmem')).1 ((hall' head' hmem').2 rfl)]

end Identified

/-- A position is that of a source word. -/
theorem position?_bounds {r : Rule} {id : String} {position : Nat}
    (h : r.position? id = some position) : 1 ≤ position ∧ position ≤ r.source.length := by
  obtain ⟨i, hi, rfl⟩ := Option.map_eq_some_iff.1 h
  have hlt : i < r.source.length := (List.findIdx?_eq_some_iff_getElem.1 hi).choose
  exact ⟨Nat.le_add_left 1 i, hlt⟩

namespace WellFormed

variable {r : Rule} {name id : String} {keep : String → Bool}

/-- **Every target word has the position** of the source word that it translates. -/
theorem exists_position (h : r.WellFormed) {w : TargetWord} (hw : w ∈ r.target) :
    ∃ position, r.position? w.id = some position ∧ 1 ≤ position ∧ position ≤ r.source.length := by
  obtain ⟨v, hv, hid⟩ := h.translated w hw
  have hsome : (r.source.findIdx? fun u => u.id == w.id).isSome = true := by
    rw [List.findIdx?_isSome, List.any_eq_true]
    exact ⟨v, hv, by rw [hid, beq_self_eq_true]⟩
  rw [← Option.isSome_map (f := (· + 1))] at hsome
  obtain ⟨position, hposition⟩ := Option.isSome_iff_exists.1 hsome
  exact ⟨position, hposition, position?_bounds hposition⟩

/-- There are no more target words than source words. -/
theorem length_target_le (h : r.WellFormed) : r.target.length ≤ r.source.length := by
  have hsubset : r.target.map TargetWord.id ⊆ r.source.map SourceWord.id := by
    intro id hid
    obtain ⟨w, hw, rfl⟩ := List.mem_map.1 hid
    obtain ⟨v, hv, hv'⟩ := h.translated w hw
    exact List.mem_map.2 ⟨v, hv, hv'⟩
  have hlength := (h.targetIds.subperm hsubset).length_le
  rwa [List.length_map, List.length_map] at hlength

/-- **Leaving out words other than the head** leaves a well-formed rule. -/
theorem retain (h : r.WellFormed) (hkeep : ∀ w, r.head? = some w → keep w.id = true) :
    (r.retain name keep).WellFormed where
  nonempty := by
    obtain ⟨w, hw, hhead, -⟩ := h.exists_head
    obtain ⟨v, hv, hid⟩ := h.translated w hw
    refine List.ne_nil_of_mem (a := v) (List.mem_filter.2 ⟨hv, ?_⟩)
    rw [hid]
    exact hkeep w hhead
  sourceIds := h.sourceIds.sublist (List.filter_sublist.map _)
  targetIds := h.targetIds.sublist (List.filter_sublist.map _)
  head := by
    obtain ⟨w, -, hhead, hall⟩ := h.exists_head
    rw [← h.head, Rule.retain, List.countP_filter]
    refine List.countP_congr fun v hv => ?_
    simp only [Bool.and_eq_true, and_iff_left_iff_imp]
    intro hv'
    rw [(hall v hv).1 hv']
    exact hkeep w hhead
  translated := by
    intro w hw
    obtain ⟨hw, hw'⟩ := List.mem_filter.1 hw
    obtain ⟨v, hv, hid⟩ := h.translated w hw
    refine ⟨v, List.mem_filter.2 ⟨hv, ?_⟩, hid⟩
    rwa [hid]

end WellFormed

end Rule

/-! ## Reading -/

/-- Words that are meant by elements with ids of their own have ids of their own. -/
theorem nodup_ids_of_ownIds {α : Type} {Means : Markup.Element → α → Prop} {id : α → String}
    (hid : ∀ e a, Means e a → e.Says "id" (id a)) {es : List Markup.Element} {as : List α}
    (h : List.Forall₂ Means es as)
    (hown : es.Pairwise fun v w => ∀ id, v.Says "id" id → ¬ w.Says "id" id) :
    (as.map id).Nodup := by
  induction h with
  | nil => exact List.nodup_nil
  | @cons e a es as ha has ih =>
      obtain ⟨hothers, hes⟩ := List.pairwise_cons.1 hown
      refine List.nodup_cons.2 ⟨fun hmem => ?_, ih hes⟩
      obtain ⟨b, hb, heq⟩ := List.mem_map.1 hmem
      obtain ⟨e', he', hb'⟩ := exists_of_forall₂_of_mem has hb
      exact hothers e' he' _ (hid e a ha) (heq ▸ hid e' b hb')

/-- **Rules that are read without an issue are well formed.** -/
theorem wellFormed_of_readRule {e : Markup.Element} {number : Nat}
    (h : (readRule e number).isValid = true) : (readRule e number).rule.WellFormed := by
  obtain ⟨hrule, hnonempty, hsourceIds, htargetIds, hknown, hhead⟩ :=
    readRule_eq_iff.1 ⟨isValid_readRule_iff.1 h, rfl⟩
  refine ⟨⟨?_, ?_, hhead⟩, hnonempty, fun w hw => ?_⟩
  · exact nodup_ids_of_ownIds (fun _ _ hword => hword.id) hrule.source (ownIds_nil_iff.1 hsourceIds)
  · exact nodup_ids_of_ownIds (fun _ _ hword => hword.id) hrule.target (ownIds_nil_iff.1 htargetIds)
  · obtain ⟨target, htarget, hword⟩ := exists_of_forall₂_of_mem hrule.target hw
    obtain ⟨source, hsource, hsaid⟩ := hknown target htarget w.id hword.id
    obtain ⟨v, hv, hword'⟩ := exists_of_forall₂_of_mem hrule.source.flip hsource
    exact ⟨v, hv, hword'.id.unique hsaid⟩

end TransferRules
