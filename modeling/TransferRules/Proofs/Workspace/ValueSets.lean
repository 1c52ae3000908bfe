import TransferRules.Proofs.Workspace.Changes
import TransferRules.Proofs.Workspace.Resolved

/-!
# Value sets of attributes

Attributes are shared by their value sets: where some tags are wanted, the first attribute that
lists exactly these is used, and only if there is none an attribute is made.  So an attribute that
was made has its value set for itself.  Loaded attributes may have value sets in common, and the
category attribute may get one that is taken, since it grows in place.

## Main Definitions

* `KeptApart` — two attributes have different value sets, if one of them was made
* `Deduplicated` — all attributes of a document do
* `HasAttribute` — an attribute of a document lists exactly some tags

## Main Statements

* `Request.valueSets` — a request adds a value set that is new, or the category attribute grows
* `Workspace.Unshared.changes` — **run lemma**: no change lets attributes share a value set
* `Workspace.Coherent.ensureAttribute_lists` — the attribute of a feature lists its values
-/

namespace TransferRules

open TransferRules.Compile
open TransferRules.Markup
open TransferRules.Ordered
open TransferRules.Transfer

/-- Two attributes, given with their value sets, have different ones.  It is not asked of the
category attribute, nor of two attributes that were both loaded. -/
def KeptApart (d : TransferDocument) (entry other : String × StringSet) : Prop :=
  entry.1 ≠ gramCatName → other.1 ≠ gramCatName →
    (d.provenanceOf? .attributes entry.1 = some .generated ∨
      d.provenanceOf? .attributes other.1 = some .generated) →
    entry.2 ≠ other.2

/-- No two named attributes of a document list the same tags if one of them was made, but for the
category attribute. -/
def Deduplicated (d : TransferDocument) : Prop :=
  (d.definitions .attributes).Pairwise fun e e' =>
    ∀ name name', definitionName? .attributes e = some name →
      definitionName? .attributes e' = some name' →
      KeptApart d (name, StringSet.ofList (attributeItems e))
        (name', StringSet.ofList (attributeItems e'))

/-- An attribute of a document lists exactly the given tags. -/
def HasAttribute (d : TransferDocument) (name : String) (values : StringSet) : Prop :=
  ∃ e ∈ d.definitions .attributes, definitionName? .attributes e = some name ∧
    StringSet.ofList (attributeItems e) = values

instance (d : TransferDocument) (name : String) (values : StringSet) :
    Decidable (HasAttribute d name values) :=
  inferInstanceAs (Decidable (∃ e ∈ d.definitions .attributes, _ ∧ _))

/-- The table of attributes has all that matters of them. -/
theorem deduplicated_iff {d : TransferDocument} :
    Deduplicated d ↔ (AttributeTable.ofDocument d).valueSets.Pairwise (KeptApart d) := by
  unfold Deduplicated AttributeTable.ofDocument
  rw [List.pairwise_filterMap]
  refine List.Pairwise.iff fun e e' => ⟨fun h entry hentry other hother => ?_, fun h => ?_⟩
  · obtain ⟨name, hname, rfl⟩ := Option.map_eq_some_iff.1 hentry
    obtain ⟨name', hname', rfl⟩ := Option.map_eq_some_iff.1 hother
    exact h name name' hname hname'
  · intro name name' hname hname'
    exact h _ (Option.map_eq_some_iff.2 ⟨name, hname, rfl⟩) _
      (Option.map_eq_some_iff.2 ⟨name', hname', rfl⟩)

namespace AttributeTable

variable {t : AttributeTable} {name : String} {values : StringSet}
  {entries : List (String × StringSet)} {entry : String × StringSet}

/-- The attribute that is found by its value set has it. -/
theorem mem_of_nameOf? (h : t.nameOf? values = some name) : (name, values) ∈ t.valueSets := by
  obtain ⟨entry, hentry, rfl⟩ := Option.map_eq_some_iff.1 h
  have hvalues : decide (entry.2 = values) = true :=
    List.find?_some (p := fun e : String × StringSet => decide (e.2 = values)) hentry
  rw [← of_decide_eq_true hvalues]
  exact List.mem_of_find?_eq_some hentry

theorem ne_of_nameOf?_eq_none (h : t.nameOf? values = none) (hentry : entry ∈ t.valueSets) :
    entry.2 ≠ values := by
  have hnone := List.find?_eq_none.1 (Option.map_eq_none_iff.1 h) entry hentry
  simpa using hnone

theorem mem_setEntry (h : entry ∈ setEntry name values entries) :
    entry = (name, values) ∨ entry ∈ entries := by
  induction entries with
  | nil => exact .inl (List.mem_singleton.1 h)
  | cons first entries ih =>
      obtain ⟨n, v⟩ := first
      rw [setEntry] at h
      split at h
      · next heq =>
        rcases List.mem_cons.1 h with rfl | h
        · exact .inl (by rw [heq])
        · exact .inr (List.mem_cons_of_mem _ h)
      · rcases List.mem_cons.1 h with rfl | h
        · exact .inr List.mem_cons_self
        · rcases ih h with heq | hmem
          · exact .inl heq
          · exact .inr (List.mem_cons_of_mem _ hmem)

/-- What holds between any two entries still does if the entry that is set goes with all. -/
theorem pairwise_setEntry {r : String × StringSet → String × StringSet → Prop}
    (h : entries.Pairwise r) (hset : ∀ entry, r (name, values) entry ∧ r entry (name, values)) :
    (setEntry name values entries).Pairwise r := by
  induction entries with
  | nil => exact List.pairwise_singleton _ _
  | cons first entries ih =>
      obtain ⟨n, v⟩ := first
      obtain ⟨hfirst, hrest⟩ := List.pairwise_cons.1 h
      rw [setEntry]
      split
      · next heq =>
        rw [heq]
        exact List.pairwise_cons.2 ⟨fun entry _ => (hset entry).1, hrest⟩
      · refine List.pairwise_cons.2 ⟨fun entry hentry => ?_, ih hrest⟩
        rcases mem_setEntry hentry with rfl | hentry
        · exact (hset _).2
        · exact hfirst entry hentry

end AttributeTable

/-! ## What a request does to the table -/

/-- What a request does to the value sets of attributes: nothing, or one is added that no attribute
has, or the category attribute gets another one. -/
inductive ValueSetStep (entries : List (String × StringSet)) :
    List (String × StringSet) → Prop where
  | same : ValueSetStep entries entries
  | new (name : String) {values : StringSet} (hnew : ∀ entry ∈ entries, entry.2 ≠ values) :
      ValueSetStep entries (entries ++ [(name, values)])
  | gramCat (values : StringSet) :
      ValueSetStep entries (AttributeTable.setEntry gramCatName values entries)

namespace Workspace

variable {w w' : Workspace} {x : Lexicon} {q : FeatureQuery} {name : String}

/-- Where there is no attribute with the values, one with these is added. -/
theorem valueSets_addAttribute (base : String) (values : StringSet) :
    (w.addAttribute base values).2.attributes.valueSets = w.attributes.valueSets ∧
        ((w.addAttribute base values).1, values) ∈ w.attributes.valueSets ∨
      (∀ entry ∈ w.attributes.valueSets, entry.2 ≠ values) ∧
        (w.addAttribute base values).2.attributes.valueSets =
          w.attributes.valueSets ++ [((w.addAttribute base values).1, values)] := by
  unfold addAttribute
  cases hfound : w.attributes.nameOf? values with
  | some name => exact .inl ⟨rfl, AttributeTable.mem_of_nameOf? hfound⟩
  | none => exact .inr ⟨fun _ => AttributeTable.ne_of_nameOf?_eq_none hfound, rfl⟩

/-- The attribute that is answered has the value set. -/
theorem addAttribute_lists (base : String) (values : StringSet) :
    ((w.addAttribute base values).1, values) ∈
      (w.addAttribute base values).2.attributes.valueSets := by
  rcases w.valueSets_addAttribute base values with ⟨heq, hmem⟩ | ⟨-, heq⟩
  · rwa [heq]
  · rw [heq]
    exact List.mem_append_right _ (List.mem_singleton_self _)

theorem valueSets_ensureGramCat (categories : StringSet) :
    ∃ values, (w.ensureGramCat categories).attributes.valueSets =
      AttributeTable.setEntry gramCatName values w.attributes.valueSets := by
  unfold ensureGramCat
  split
  · exact ⟨_, rfl⟩
  · exact ⟨_, rfl⟩

/-- **A feature that is resolved** was resolved before, or it gets an attribute with its values. -/
theorem ensureAttribute_cases (h : w.ensureAttribute x q = .ok (name, w')) :
    (w.attributes.resolved? q.key = some name ∧ w' = w) ∨
      w.attributes.resolved? q.key = none ∧ (featureValues x q.key).isEmpty = false ∧
      ∃ w₁, w.addAttribute ("a_" ++ q.stem) (featureValues x q.key) = (name, w₁) ∧
        w' = { w₁ with
          attributes :=
            { w₁.attributes with resolved := w₁.attributes.resolved ++ [(q.key, name)] } } := by
  unfold ensureAttribute at h
  cases hfound : w.attributes.resolved? q.key with
  | some found =>
      rw [hfound] at h
      cases h
      exact .inl ⟨rfl, rfl⟩
  | none =>
      simp only [hfound] at h
      split at h
      · cases h
      · next hvalues =>
        cases h
        exact .inr ⟨rfl, Bool.eq_false_iff.2 hvalues, _, rfl, rfl⟩

end Workspace

/-- **A request adds a value set that no attribute has, or the category attribute gets another
one.** -/
theorem Request.valueSets {ctx : Lexicons} {w w' : Workspace} (h : Request ctx w w') :
    ValueSetStep w.attributes.valueSets w'.attributes.valueSets := by
  have hsame : w'.attributes = w.attributes →
      ValueSetStep w.attributes.valueSets w'.attributes.valueSets := by
    intro heq
    rw [heq]
    exact .same
  have hadd : ∀ (base : String) (values : StringSet), ValueSetStep w.attributes.valueSets
      (w.addAttribute base values).2.attributes.valueSets := by
    intro base values
    rcases w.valueSets_addAttribute base values with ⟨heq, -⟩ | ⟨hnew, heq⟩
    · rw [heq]
      exact .same
    · rw [heq]
      exact .new _ hnew
  cases h with
  | needCategory category values => exact hsame (Workspace.attributes_ensureCategory _ _)
  | @needAttribute _ q name h =>
      rcases Workspace.ensureAttribute_cases h with ⟨-, rfl⟩ | ⟨-, -, w₁, hadded, rfl⟩
      · exact .same
      · have hstep := hadd ("a_" ++ q.stem)
          (featureValues (if q.key.isSource then ctx.source else ctx.target) q.key)
        rwa [hadded] at hstep
  | needValues base values => exact hadd base values
  | needVariable name comment? => exact hsame (Workspace.attributes_ensureVariable _ _)
  | needLemmaMacro h => exact hsame (Workspace.attributes_ensureLemmaMacro h)
  | needDisjointMacro _ h => exact hsame (Workspace.attributes_ensureDisjointMacro h)
  | needGramCat categories =>
      obtain ⟨values, heq⟩ := w.valueSets_ensureGramCat categories
      rw [heq]
      exact .gramCat values

/-! ## Value sets are not shared -/

namespace Workspace

variable {w w' : Workspace} {replaced : List String} {d : TransferDocument}

/-- No attribute that was made shares its value set. -/
def Unshared (w : Workspace) : Prop :=
  w.attributes.valueSets.Pairwise (KeptApart w.document)

/-- In a file that was just loaded no attribute was made. -/
theorem unshared_ofDocument (hd : d.AsLoaded) : (ofDocument d).Unshared := by
  have hloaded : ∀ name, d.provenanceOf? .attributes name ≠ some .generated := by
    intro name hgenerated
    rw [hd .attributes name] at hgenerated
    split at hgenerated
    · cases hgenerated
    · cases hgenerated
  refine List.pairwise_of_forall fun entry other _ _ hgenerated => ?_
  rcases hgenerated with hgenerated | hgenerated
  · exact absurd hgenerated (hloaded _)
  · exact absurd hgenerated (hloaded _)

/-- It only matters where the attributes come from. -/
theorem pairwise_keptApart_of_provenance {d' : TransferDocument}
    {entries : List (String × StringSet)} (h : entries.Pairwise (KeptApart d))
    (hprovenance : ∀ entry ∈ entries,
      d'.provenanceOf? .attributes entry.1 = d.provenanceOf? .attributes entry.1) :
    entries.Pairwise (KeptApart d') := by
  refine List.Pairwise.imp_of_mem (fun hentry hother hapart => ?_) h
  unfold KeptApart
  rwa [hprovenance _ hentry, hprovenance _ hother]

theorem Unshared.request (h : w.Unshared) (hw : w.Coherent) {ctx : Lexicons}
    (hrequest : Request ctx w w') : w'.Unshared := by
  have hold : w.attributes.valueSets.Pairwise (KeptApart w'.document) := by
    refine pairwise_keptApart_of_provenance h fun entry hentry => ?_
    refine (hrequest.grows hw).provenanceOf? ?_
    rw [← AttributeTable.map_fst_valueSets_ofDocument, ← hw.valueSets]
    exact List.mem_map_of_mem hentry
  have hstep := hrequest.valueSets
  unfold Unshared
  generalize w'.attributes.valueSets = entries at hstep ⊢
  cases hstep with
  | same => exact hold
  | new name hnew =>
      refine List.pairwise_append.2
        ⟨hold, List.pairwise_singleton _ _, fun entry hentry other hother _ _ _ => ?_⟩
      rw [List.mem_singleton.1 hother]
      exact hnew entry hentry
  | gramCat values =>
      exact AttributeTable.pairwise_setEntry hold fun entry =>
        ⟨fun hne => absurd rfl hne, fun _ hne => absurd rfl hne⟩

/-- **Step lemma.**  No change lets an attribute that was made share its value set. -/
theorem Unshared.change (h : w.Unshared) (hw : w.Coherent) (hchange : Change replaced w w') :
    w'.Unshared := by
  have hdiscard : ∀ {kind : SectionKind} {names : List String}, kind ≠ .attributes →
      (w.discard kind names).Unshared := fun hkind =>
    pairwise_keptApart_of_provenance h fun entry _ =>
      (TransferDocument.provenanceOf?_removeAll entry.1).trans (if_neg fun h => hkind h.1.symm)
  cases hchange with
  | work hwork =>
      cases hwork with
      | request hrequest _ => exact h.request hw hrequest
      | take kind name => exact h
      | addRule htag hname _ =>
          exact pairwise_keptApart_of_provenance h fun entry _ =>
            (TransferDocument.provenanceOf?_addDefinition hname entry.1).trans
              (if_neg fun h => SectionKind.noConfusion h.1)
      | dropRule _ => exact hdiscard nofun
  | dropUnused hkind _ =>
      rcases hkind with rfl | rfl
      · exact hdiscard nofun
      · exact hdiscard nofun

/-- **Run lemma.** -/
theorem Unshared.changes (h : w.Unshared) (hw : w.Coherent) (hchanges : Changes replaced w w') :
    w'.Unshared := by
  induction hchanges with
  | refl => exact h
  | tail hbefore hchange ih => exact ih.change (hw.changes hbefore) hchange

/-- In step with its document, a workspace says of the document that no value set is shared. -/
theorem Unshared.deduplicated (h : w.Unshared) (hw : w.Coherent) : Deduplicated w.document := by
  rw [deduplicated_iff, ← hw.valueSets]
  exact h

/-! ## Attributes of features -/

variable {x : Lexicon} {q : FeatureQuery} {name : String} {values : StringSet}

/-- What the table of attributes says is so. -/
theorem Coherent.hasAttribute_iff (hw : w.Coherent) :
    HasAttribute w.document name values ↔ (name, values) ∈ w.attributes.valueSets := by
  rw [hw.valueSets, AttributeTable.ofDocument, List.mem_filterMap]
  constructor
  · rintro ⟨e, he, hname, rfl⟩
    exact ⟨e, he, Option.map_eq_some_iff.2 ⟨name, hname, rfl⟩⟩
  · rintro ⟨e, he, hentry⟩
    obtain ⟨n, hname, heq⟩ := Option.map_eq_some_iff.1 hentry
    cases heq
    exact ⟨e, he, hname, rfl⟩

/-- **A feature that is resolved for the first time** gets an attribute with exactly its values. -/
theorem Coherent.ensureAttribute_lists (hw : w.Coherent)
    (h : w.ensureAttribute x q = .ok (name, w')) (hfirst : w.attributes.resolved? q.key = none) :
    HasAttribute w'.document name (featureValues x q.key) := by
  have hw' : w'.Coherent := hw.grows (hw.ensureAttribute_grows h).1
  rw [hw'.hasAttribute_iff]
  rcases ensureAttribute_cases h with ⟨hresolved, -⟩ | ⟨-, -, w₁, hadded, rfl⟩
  · rw [hfirst] at hresolved
    cases hresolved
  · have hlists := w.addAttribute_lists ("a_" ++ q.stem) (featureValues x q.key)
    rwa [hadded] at hlists

/-- From then on it is found again. -/
theorem resolved?_ensureAttribute (h : w.ensureAttribute x q = .ok (name, w')) :
    w'.attributes.resolved? q.key = some name := by
  rcases ensureAttribute_cases h with ⟨hresolved, rfl⟩ | ⟨hfirst, -, w₁, hadded, rfl⟩
  · exact hresolved
  · have hsame := resolved_addAttribute (w := w) ("a_" ++ q.stem) (featureValues x q.key)
    rw [hadded] at hsame
    unfold AttributeTable.resolved? at hfirst ⊢
    rw [hsame, List.find?_append, Option.map_eq_none_iff.1 hfirst, Option.none_or]
    simp

theorem ensureAttribute_of_resolved (h : w.attributes.resolved? q.key = some name) :
    w.ensureAttribute x q = .ok (name, w) := by
  unfold ensureAttribute
  rw [h]

/-- A feature is refused if it was not resolved and the lexicon knows no values of it. -/
theorem ensureAttribute_eq_error_iff {issue : Issue} : w.ensureAttribute x q = .error issue ↔
    (w.attributes.resolved? q.key = none ∧ (featureValues x q.key).isEmpty = true) ∧
      issue = .unresolvedFeature q.key.category q.key.label := by
  unfold ensureAttribute
  cases w.attributes.resolved? q.key with
  | some found => simp
  | none =>
      dsimp only
      split
      · next hvalues => simp [hvalues, eq_comm]
      · next hvalues => simp [hvalues]

end Workspace

end TransferRules
