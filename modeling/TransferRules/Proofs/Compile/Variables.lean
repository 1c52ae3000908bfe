import Mathlib.Data.List.Chain
import TransferRules.Proofs.Compile.Claims

/-!
# Who owns a variable

A rule uses a variable for one of three purposes: it holds the value of a match label, it is a copy
of such a variable with a fallback, or it is put out as part of a word.  What is claimed has one
owner, which is a match label or a claim for the output, and an owner has one purpose.  So a
variable is only used for two purposes if one of them is a copy that was never made, since the rule
used its variable already.

## Main Definitions

* `Purpose`, `Uses` — what a variable is for
* `Copy.MadeIn` — a compiled rule has the statements of a copy
* `Allotted` — how the variables of a compiled rule are allotted
* `Owns` — an owner of a variable, and its purpose

## Main Statements

* `compile_allotted` — the variables of every compiled rule are allotted
* `Allotted.madeIn_iff` — a copy is made if its variable is claimed for it
* `Allotted.exists_not_madeIn` — two purposes of one variable
* `Allotted.exists_uses` — the other purpose of a copy that is not made
-/

namespace TransferRules

open TransferRules.Action

/-- The lemma and the tags of a word of the output. -/
def Action.OutputWord.parts (w : OutputWord) : List Value := w.lemmaValue :: w.tags

/-- Whether a statement is a choice that leaves the variable as it is if no branch applies. -/
def Action.Statement.isPartial : Statement → Bool
  | .step (.choose choice) => choice.otherwise.isNone
  | _ => false

namespace Compile

/-! ## Purposes -/

/-- What a rule uses a variable for. -/
inductive Purpose where
  /-- It holds the value of a match label. -/
  | binding (label : String)
  /-- It is a copy of the variable of a match label, with a fallback. -/
  | copy (label fallback : String)
  /-- It is put out as part of a word: the lemma is the first part, then the tags follow. -/
  | output (word part : Nat)
  deriving Repr, DecidableEq

/-- The purpose of a copy. -/
def Copy.purpose (c : Copy) : Purpose := .copy c.label c.fallback

/-- A variable is put out as part of a word. -/
def PutOut (output : List (Nat × OutputWord)) (word part : Nat) (name : String) : Prop :=
  ∃ w, output[word]? = some w ∧ w.2.parts[part]? = some (.var name)

/-- What the variables of a rule are used for, given its bindings, the copies that consumers ask
for, and its output. -/
inductive Uses (bindings : Bindings) (copies : List Copy) (output : List (Nat × OutputWord)) :
    Purpose → String → Prop where
  | binding {label : String} {bound : Bound} (h : (label, bound) ∈ bindings) :
      Uses bindings copies output (.binding label) bound.name
  | copy {c : Copy} (h : c ∈ copies) : Uses bindings copies output c.purpose c.name
  | output {word part : Nat} {name : String} (h : PutOut output word part name) :
      Uses bindings copies output (.output word part) name

/-- The copies that the consumers of a rule ask for when it is compiled. -/
def askedCopies (ctx : Lexicons) (rule : Rule) (r : Resolution) (e : Emission) : List Copy :=
  copiesOfWords ctx (openRule ctx rule r e).1.2 rule r rule.target.zipIdx

/-- What the variables of a rule are used for when it is compiled. -/
def RuleUses (ctx : Lexicons) (rule : Rule) (r : Resolution) (e : Emission) :
    Purpose → String → Prop :=
  Uses (openRule ctx rule r e).1.2 (askedCopies ctx rule r e) (compile ctx rule r e).1.output

/-- A compiled rule has the statements of a copy. -/
def Copy.MadeIn (c : Copy) (compiled : CompiledRule) : Prop :=
  c.statements <:+: compiled.statements

/-- What stands at two places of a list that are not related is at the same place. -/
theorem eq_of_pairwise {α : Type} {R : α → α → Prop} {l : List α} (h : l.Pairwise R) {i j : Nat}
    {a b : α} (hi : l[i]? = some a) (hj : l[j]? = some b) (hab : ¬ R a b) (hba : ¬ R b a) :
    i = j := by
  obtain ⟨hi', rfl⟩ := List.getElem?_eq_some_iff.1 hi
  obtain ⟨hj', rfl⟩ := List.getElem?_eq_some_iff.1 hj
  rw [List.pairwise_iff_getElem] at h
  rcases Nat.lt_trichotomy i j with hlt | heq | hgt
  · exact absurd (h i j hi' hj' hlt) hab
  · exact heq
  · exact absurd (h j i hj' hi' hgt) hba

/-- If no variable is put out twice, a variable is only part of one word, and once. -/
theorem PutOut.unique {output : List (Nat × OutputWord)}
    (hnodup : (output.flatMap fun w => w.2.variables).Nodup) {word part word' part' : Nat}
    {name : String} (h : PutOut output word part name) (h' : PutOut output word' part' name) :
    word = word' ∧ part = part' := by
  obtain ⟨w, hword, hpart⟩ := h
  obtain ⟨w', hword', hpart'⟩ := h'
  obtain ⟨hwithin, hbetween⟩ := List.nodup_flatMap.1 hnodup
  have hmem : ∀ {w : Nat × OutputWord} {part : Nat}, w.2.parts[part]? = some (.var name) →
      name ∈ w.2.variables :=
    fun hpart => List.mem_filterMap.2 ⟨_, List.mem_of_getElem? hpart, rfl⟩
  obtain rfl : word = word' := by
    refine eq_of_pairwise hbetween hword hword' (fun hdisjoint => ?_) fun hdisjoint => ?_
    · exact hdisjoint (hmem hpart) (hmem hpart')
    · exact hdisjoint (hmem hpart') (hmem hpart)
  obtain rfl : w = w' := Option.some.inj (hword.symm.trans hword')
  refine ⟨rfl, eq_of_pairwise (List.pairwise_filterMap.1 (hwithin w (List.mem_of_getElem? hword)))
    hpart hpart' (fun hne => ?_) fun hne => ?_⟩
  · exact hne name rfl name rfl rfl
  · exact hne name rfl name rfl rfl

/-- Every variable of the output is part of some word. -/
theorem exists_putOut {output : List (Nat × OutputWord)} {name : String}
    (h : name ∈ output.flatMap fun w => w.2.variables) :
    ∃ word part, PutOut output word part name := by
  obtain ⟨w, hw, hname⟩ := List.mem_flatMap.1 h
  obtain ⟨v, hv, hvar⟩ := List.mem_filterMap.1 hname
  obtain ⟨word, hword⟩ := List.mem_iff_getElem?.1 hw
  obtain ⟨part, hpart⟩ := List.mem_iff_getElem?.1 hv
  exact ⟨word, part, w, hword, Value.var?_eq_some_iff.1 hvar ▸ hpart⟩

/-! ## Copies that are asked for -/

variable {ctx : Lexicons} {bindings : Bindings} {rule : Rule} {r : Resolution} {e : Emission}

theorem copy?_eq_some {o : Occurrence} {c : Copy} (h : copy? bindings o = some c) :
    ∃ bound, bindings.find? c.label = some bound ∧ bound.name = c.copied := by
  unfold copy? at h
  cases hbinding : o.feature.binding with
  | fixed value =>
      rw [hbinding] at h
      cases h
  | agreement label =>
      rw [hbinding] at h
      obtain ⟨bound, hbound, hcopy⟩ := Option.bind_eq_some_iff.1 h
      obtain ⟨fallback, -, rfl⟩ := Option.map_eq_some_iff.1 hcopy
      exact ⟨bound, hbound, rfl⟩

theorem find?_of_mem_copiesOf {forms : String → List Exponent} {occurrences : List Occurrence}
    {c : Copy} (h : c ∈ copiesOf bindings forms occurrences) :
    ∃ bound, bindings.find? c.label = some bound ∧ bound.name = c.copied := by
  obtain ⟨o, -, hc⟩ := List.mem_flatMap.1 h
  split at hc
  · cases hc
  · exact copy?_eq_some (Option.mem_toList.1 hc)

/-- A copy is asked for of the variable that belongs to its match label. -/
theorem find?_of_mem_copiesOfWords {words : List (TargetWord × Nat)} {c : Copy}
    (h : c ∈ copiesOfWords ctx bindings rule r words) :
    ∃ bound, bindings.find? c.label = some bound ∧ bound.name = c.copied := by
  obtain ⟨w, -, hc⟩ := List.mem_flatMap.1 h
  split at hc
  · rcases List.mem_append.1 hc with hc | hc
    · split at hc
      · cases hc
      · exact find?_of_mem_copiesOf hc
    · obtain ⟨affix, -, hc⟩ := List.mem_flatMap.1 hc
      exact find?_of_mem_copiesOf hc
  · cases hc

/-- So the purposes of two copies that are asked for are different. -/
theorem copy_eq_of_purpose_eq {words : List (TargetWord × Nat)} {c c' : Copy}
    (hc : c ∈ copiesOfWords ctx bindings rule r words)
    (hc' : c' ∈ copiesOfWords ctx bindings rule r words) (h : c.purpose = c'.purpose) : c = c' := by
  obtain ⟨label, copied, fallback⟩ := c
  obtain ⟨label', copied', fallback'⟩ := c'
  obtain ⟨rfl, rfl⟩ := Purpose.copy.inj h
  obtain ⟨bound, hbound, rfl⟩ := find?_of_mem_copiesOfWords hc
  obtain ⟨bound', hbound', rfl⟩ := find?_of_mem_copiesOfWords hc'
  obtain rfl : bound = bound' := Option.some.inj (hbound.symm.trans hbound')
  rfl

/-! ## Statements that bind labels -/

theorem isPartial_sourceStatement (x : Lexicon) (key : FeatureKey) (position : Nat)
    (part target : String) : (sourceStatement x key position part target).isPartial = false := by
  unfold sourceStatement
  split
  · rfl
  · rfl

/-- No choice that binds a label is partial. -/
theorem Block.isPartial {bound : List BoundLabel} {b : BoundLabel} {w w' : Workspace}
    {block : List Statement} (h : Block ctx bound b w block w') :
    ∀ s ∈ block, s.isPartial = false := by
  cases h with
  | read _ _ => exact List.forall_mem_singleton.2 (isPartial_sourceStatement _ _ _ _ _)
  | lemmaMacro _ _ _ => exact List.forall_mem_cons.2 ⟨rfl, List.forall_mem_singleton.2 rfl⟩
  | disjointMacro _ _ hprepares =>
      refine List.forall_mem_cons.2
        ⟨?_, List.forall_mem_cons.2 ⟨rfl, List.forall_mem_singleton.2 rfl⟩⟩
      cases hprepares with
      | read _ _ => exact isPartial_sourceStatement _ _ _ _ _
      | copied _ => rfl

theorem Binds.isPartial {occurrences : List Occurrence} {done : List Provider}
    {bound : List BoundLabel} {statements : List Statement} {e e' : Emission}
    (h : Binds ctx occurrences e done bound statements e') :
    ∀ s ∈ statements, s.isPartial = false := by
  induction h with
  | nil => exact nofun
  | snoc _ _ _ hstep ih =>
      refine List.forall_mem_append.2 ⟨ih, ?_⟩
      cases hstep with
      | unused _ => exact nofun
      | refused _ _ _ => exact nofun
      | added _ _ hblock _ => exact hblock.isPartial

/-! ## Allotment -/

/-- How the variables of a compiled rule are allotted: to the match labels that are bound, and to
the claims that are made after that, which are for some of the copies and for tables. -/
structure Allotted (ctx : Lexicons) (copies : List Copy) (bound : List BoundLabel)
    (claims : List Claim) (compiled : CompiledRule) (e : Emission) : Prop where
  distinct : (bound.map BoundLabel.name ++ claims.map Claim.name).Nodup
  statements : ∃ new : List Statement, (∀ s ∈ new, s.isPartial = false) ∧
    compiled.statements = new ++ claims.flatMap Claim.statements
  asked : ∀ c, .copy c ∈ claims → c ∈ copies
  served : ∀ c ∈ copies,
    c.name ∈ claims.map Claim.name ∨ c.name ∈ bound.map BoundLabel.name ∨ e.report.Unresolved
  tables : (claims.filterMap Claim.table?).Perm (compiled.output.flatMap fun w => w.2.variables)

/-- **The variables of a compiled rule are allotted**, and no variable among the tags ends like the
variable of a macro. -/
theorem compile_allotted (hclaimed : e.claimed = []) (hstatements : e.statements = []) :
    ∃ bound claims, (openRule ctx rule r e).1.2 = bound.map BoundLabel.entry ∧
      Allotted ctx (copiesOfWords ctx (bound.map BoundLabel.entry) rule r rule.target.zipIdx) bound
        claims (compile ctx rule r e).1 (compile ctx rule r e).2 ∧
      ∀ w ∈ (compile ctx rule r e).1.output, ∀ name ∈ w.2.tags.filterMap Value.var?,
        ¬ EndsStem name := by
  obtain ⟨bound, statements, start, hstart, hnone, -, hbindings, hopened⟩ :=
    openRule_binds ctx rule r e
  obtain ⟨claims, hclaims, hasked, hserved, htables, htags⟩ := @closeRule_claiming ctx
    (bound.map BoundLabel.entry) rule r (openRule ctx rule r e).1.1 (openRule ctx rule r e).2
  refine ⟨bound, claims, hbindings, ?_⟩
  rw [compile_eq_open, bind_apply, hbindings]
  refine ⟨⟨?_, ?_, hasked, fun c hc => ?_, htables⟩, htags⟩
  · have hdistinct := hclaims.distinct
      (hopened.distinct (hstart.trans hclaimed ▸ List.nodup_nil))
    rw [hclaims.claimed, List.nodup_append] at hdistinct
    refine List.nodup_append.2 ⟨hopened.nodup, List.nodup_reverse.1 hdistinct.1, ?_⟩
    intro name hname other hother heq
    obtain ⟨b, hb, rfl⟩ := List.mem_map.1 hname
    exact hdistinct.2.2 other (List.mem_reverse.2 hother) b.name (hopened.mem_claimed hb) heq.symm
  · refine ⟨statements, hopened.isPartial, ?_⟩
    rw [closeRule_statements, hclaims.statements, hopened.statements_eq, hnone, hstatements,
      List.nil_append]
  · have hname := hserved c hc
    rw [hclaims.claimed, List.mem_append, List.mem_reverse] at hname
    refine hname.imp_right fun hname => ?_
    rcases hopened.owned _ hname with hold | hbound | hunresolved
    · rw [hstart, hclaimed] at hold
      cases hold
    · exact .inl hbound
    · exact .inr (hunresolved.mono (closeRule_onward rule r _ _ _).report.subset)

/-! ## Copies that are made -/

section Allotted

variable {copies : List Copy} {bound : List BoundLabel} {claims : List Claim}
  {compiled : CompiledRule}

theorem Copy.eq_of_statements_eq {c c' : Copy} (h : c.statements = c'.statements) :
    c.copied = c'.copied ∧ c.fallback = c'.fallback := by
  simp only [statements, copyWithFallback, Statement.assign, Statement.choose, List.cons.injEq,
    Statement.step.injEq, Step.assign.injEq, Step.choose.injEq, Assignment.mk.injEq,
    Choice.mk.injEq, Prod.mk.injEq, Value.var.injEq, Value.tag.injEq, and_true] at h
  exact ⟨h.1.2, h.2.2.2⟩

/-- A partial choice comes after the statement with which a copy begins. -/
def AfterCopy (claims : List Claim) (before s : Statement) : Prop :=
  s.isPartial = true → ∃ c, .copy c ∈ claims ∧ c.statements = [before, s]

/-- Every partial choice among the statements of some claims completes a copy. -/
theorem isChain_statements (claims : List Claim) :
    (claims.flatMap Claim.statements).IsChain (AfterCopy claims) ∧
      ∀ s ∈ (claims.flatMap Claim.statements).head?, s.isPartial = false := by
  suffices h : ∀ later ⊆ claims, (later.flatMap Claim.statements).IsChain (AfterCopy claims) ∧
      ∀ s ∈ (later.flatMap Claim.statements).head?, s.isPartial = false from
    h claims (List.Subset.refl claims)
  intro later hlater
  induction later with
  | nil => exact ⟨.nil, nofun⟩
  | cons claim later ih =>
      obtain ⟨hclaim, hlater⟩ := List.cons_subset.1 hlater
      obtain ⟨hchain, hhead⟩ := ih hlater
      have hnext : ∀ before, ∀ s ∈ (later.flatMap Claim.statements).head?,
          AfterCopy claims before s := fun before s hs hpartial => by
        rw [hhead s hs] at hpartial
        cases hpartial
      rw [List.flatMap_cons]
      cases claim with
      | copy c =>
          refine ⟨List.isChain_append.2 ⟨.cons_cons (fun _ => ⟨c, hclaim, rfl⟩) (.singleton _),
            hchain, fun before _ => hnext before⟩, ?_⟩
          rintro s ⟨⟩
          rfl
      | table name branches otherwise =>
          refine ⟨List.isChain_append.2 ⟨.singleton _, hchain, fun before _ => hnext before⟩, ?_⟩
          rintro s ⟨⟩
          rfl

/-- Every partial choice among the statements of a rule completes a copy. -/
theorem Allotted.isChain (h : Allotted ctx copies bound claims compiled e) :
    compiled.statements.IsChain (AfterCopy claims) := by
  obtain ⟨new, hnew, hstatements⟩ := h.statements
  obtain ⟨hclaims, hhead⟩ := isChain_statements claims
  have hnever : ∀ {before s : Statement}, s.isPartial = false → AfterCopy claims before s := by
    intro before s hs hpartial
    rw [hs] at hpartial
    cases hpartial
  rw [hstatements]
  refine List.isChain_append.2
    ⟨List.Pairwise.isChain ?_, hclaims, fun _ _ s hs => hnever (hhead s hs)⟩
  exact List.pairwise_of_forall_mem_list fun _ _ s hs => hnever (hnew s hs)

/-- The label of a binding that is found belongs to a label that is bound. -/
theorem exists_of_find? {label : String} {found : Bound}
    (h : Bindings.find? (bound.map BoundLabel.entry) label = some found) :
    ∃ b ∈ bound, b.provider.label = label ∧ b.name = found.name := by
  obtain ⟨entry, hentry, rfl⟩ := Option.map_eq_some_iff.1 h
  obtain ⟨b, hb, rfl⟩ := List.mem_map.1 (List.mem_of_find?_eq_some hentry)
  have hlabel := List.find?_some hentry
  exact ⟨b, hb, beq_iff_eq.1 hlabel, rfl⟩

/-- **A copy is made** just if its variable is claimed for it. -/
theorem Allotted.madeIn_iff {words : List (TargetWord × Nat)}
    (h : Allotted ctx (copiesOfWords ctx (bound.map BoundLabel.entry) rule r words) bound claims
      compiled e) {c : Copy}
    (hc : c ∈ copiesOfWords ctx (bound.map BoundLabel.entry) rule r words) :
    c.MadeIn compiled ↔ .copy c ∈ claims := by
  obtain ⟨new, -, hstatements⟩ := h.statements
  constructor
  · rintro ⟨before, after, hmade⟩
    have hchain := h.isChain
    rw [← hmade, List.append_assoc] at hchain
    obtain ⟨-, hafter, -⟩ := List.isChain_append_cons_cons.1 hchain
    obtain ⟨c', hclaim, hsame⟩ := hafter rfl
    obtain ⟨hcopied, hfallback⟩ := Copy.eq_of_statements_eq hsame
    -- The statements say all but the label, and this belongs to the variable that is copied.
    obtain ⟨found, hfound, hname⟩ := find?_of_mem_copiesOfWords hc
    obtain ⟨found', hfound', hname'⟩ := find?_of_mem_copiesOfWords (h.asked _ hclaim)
    obtain ⟨b, hb, hlabel, hfoundName⟩ := exists_of_find? hfound
    obtain ⟨b', hb', hlabel', hfoundName'⟩ := exists_of_find? hfound'
    have hsameName : b'.name = b.name := by
      rw [hfoundName, hname, hfoundName', hname', hcopied]
    obtain rfl : b' = b :=
      List.inj_on_of_nodup_map (List.nodup_append.1 h.distinct).1 hb' hb hsameName
    have hpurpose : c'.purpose = c.purpose := by
      rw [Copy.purpose, Copy.purpose, ← hlabel, ← hlabel', hfallback]
    exact copy_eq_of_purpose_eq (h.asked _ hclaim) hc hpurpose ▸ hclaim
  · intro hclaim
    obtain ⟨before, after, hsplit⟩ := List.append_of_mem hclaim
    refine ⟨new ++ before.flatMap Claim.statements, after.flatMap Claim.statements, ?_⟩
    rw [hstatements, hsplit, List.flatMap_append, List.flatMap_cons]
    simp only [List.append_assoc]
    rfl

/-! ## Owners -/

/-- The variable of a match label or of a claim for the output. -/
def ownedName : BoundLabel ⊕ Claim → String := Sum.elim BoundLabel.name Claim.name

/-- The purpose for which a match label or a claim owns its variable. -/
inductive Owns (bound : List BoundLabel) (claims : List Claim) (output : List (Nat × OutputWord)) :
    BoundLabel ⊕ Claim → Purpose → Prop where
  | label {b : BoundLabel} (h : b ∈ bound) :
      Owns bound claims output (.inl b) (.binding b.provider.label)
  | copy {c : Copy} (h : .copy c ∈ claims) :
      Owns bound claims output (.inr (.copy c)) c.purpose
  | table {name : String} {branches : List (Test × Assignment)} {otherwise : Assignment}
      {word part : Nat} (h : .table name branches otherwise ∈ claims)
      (hput : PutOut output word part name) :
      Owns bound claims output (.inr (.table name branches otherwise)) (.output word part)

/-- An owner is among those to which the variables are allotted. -/
theorem Owns.mem {output : List (Nat × OutputWord)} {owner : BoundLabel ⊕ Claim} {p : Purpose}
    (h : Owns bound claims output owner p) :
    owner ∈ bound.map Sum.inl ++ claims.map Sum.inr := by
  cases h with
  | label hb => exact List.mem_append_left _ (List.mem_map_of_mem hb)
  | copy hc => exact List.mem_append_right _ (List.mem_map_of_mem hc)
  | table ht _ => exact List.mem_append_right _ (List.mem_map_of_mem ht)

/-- **An owner has one purpose.** -/
theorem Allotted.purpose_unique (h : Allotted ctx copies bound claims compiled e)
    {owner : BoundLabel ⊕ Claim} {p q : Purpose} (hp : Owns bound claims compiled.output owner p)
    (hq : Owns bound claims compiled.output owner q) : p = q := by
  have houtput : (compiled.output.flatMap fun w => w.2.variables).Nodup := by
    have hclaims := (List.nodup_append.1 h.distinct).2.1
    refine h.tables.nodup (List.pairwise_filterMap.2 ((List.pairwise_map.1 hclaims).imp ?_))
    intro claim claim' hne name hname name' hname'
    rwa [← Claim.name_of_table? hname, ← Claim.name_of_table? hname']
  cases hp with
  | label _ =>
      cases hq with
      | label _ => rfl
  | copy _ =>
      cases hq with
      | copy _ => rfl
  | table _ hput =>
      cases hq with
      | table _ hput' =>
          obtain ⟨rfl, rfl⟩ := hput.unique houtput hput'
          rfl

/-- **A variable has one owner.** -/
theorem Allotted.owner_unique (h : Allotted ctx copies bound claims compiled e)
    {owner other : BoundLabel ⊕ Claim} {p q : Purpose}
    (howner : Owns bound claims compiled.output owner p)
    (hother : Owns bound claims compiled.output other q)
    (hname : ownedName owner = ownedName other) : owner = other := by
  refine List.inj_on_of_nodup_map ?_ howner.mem hother.mem hname
  rw [List.map_append, List.map_map, List.map_map]
  exact h.distinct

/-- The variable of a label that is bound is used for it. -/
theorem Uses.label {output : List (Nat × OutputWord)} {b : BoundLabel} (hb : b ∈ bound) :
    Uses (bound.map BoundLabel.entry) copies output (.binding b.provider.label) b.name := by
  have hentry : (b.provider.label, b.entry.2) ∈ bound.map BoundLabel.entry := List.mem_map_of_mem hb
  exact .binding hentry

/-- What is used for a purpose has an owner, unless it is used for a copy that is not made. -/
theorem Allotted.exists_owner (h : Allotted ctx copies bound claims compiled e) {p : Purpose}
    {name : String} (huses : Uses (bound.map BoundLabel.entry) copies compiled.output p name)
    (hcopies : ∀ c ∈ copies, p = c.purpose → .copy c ∈ claims) :
    ∃ owner, Owns bound claims compiled.output owner p ∧ ownedName owner = name := by
  cases huses with
  | binding hmem =>
      obtain ⟨b, hb, hentry⟩ := List.mem_map.1 hmem
      cases hentry
      exact ⟨_, .label hb, rfl⟩
  | @copy c hc => exact ⟨_, .copy (hcopies c hc rfl), rfl⟩
  | @output word part name hput =>
      have hname : name ∈ claims.filterMap Claim.table? := by
        obtain ⟨w, hword, hpart⟩ := hput
        refine h.tables.mem_iff.2 (List.mem_flatMap.2 ⟨w, List.mem_of_getElem? hword, ?_⟩)
        exact List.mem_filterMap.2 ⟨_, List.mem_of_getElem? hpart, rfl⟩
      obtain ⟨claim, hclaim, htable⟩ := List.mem_filterMap.1 hname
      cases claim with
      | copy c => cases htable
      | table name' branches otherwise =>
          cases htable
          exact ⟨_, .table hclaim hput, rfl⟩

section Words

variable {words : List (TargetWord × Nat)}
  (h : Allotted ctx (copiesOfWords ctx (bound.map BoundLabel.entry) rule r words) bound claims
    compiled e)

include h

/-- **A variable that is used for two purposes** is used in the place of a copy that is not made. -/
theorem Allotted.exists_not_madeIn {p q : Purpose} {name : String}
    (hp : Uses (bound.map BoundLabel.entry)
      (copiesOfWords ctx (bound.map BoundLabel.entry) rule r words) compiled.output p name)
    (hq : Uses (bound.map BoundLabel.entry)
      (copiesOfWords ctx (bound.map BoundLabel.entry) rule r words) compiled.output q name)
    (hne : p ≠ q) :
    ∃ c ∈ copiesOfWords ctx (bound.map BoundLabel.entry) rule r words,
      (p = c.purpose ∨ q = c.purpose) ∧ ¬ c.MadeIn compiled := by
  by_contra hmade
  push Not at hmade
  obtain ⟨owner, howner, hname⟩ := h.exists_owner hp fun c hc hpurpose =>
    (h.madeIn_iff hc).1 (hmade c hc (.inl hpurpose))
  obtain ⟨other, hother, hname'⟩ := h.exists_owner hq fun c hc hpurpose =>
    (h.madeIn_iff hc).1 (hmade c hc (.inr hpurpose))
  obtain rfl := h.owner_unique howner hother (hname.trans hname'.symm)
  exact hne (h.purpose_unique howner hother)

/-- **If a copy is not made**, its variable is used for another purpose, unless some feature could
not be resolved. -/
theorem Allotted.exists_uses {c : Copy}
    (hc : c ∈ copiesOfWords ctx (bound.map BoundLabel.entry) rule r words)
    (hmade : ¬ c.MadeIn compiled) :
    (∃ q, q ≠ c.purpose ∧ Uses (bound.map BoundLabel.entry)
      (copiesOfWords ctx (bound.map BoundLabel.entry) rule r words) compiled.output q c.name) ∨
      e.report.Unresolved := by
  rcases h.served c hc with hclaimed | hbound | hunresolved
  · refine .inl ?_
    obtain ⟨claim, hclaim, hname⟩ := List.mem_map.1 hclaimed
    cases claim with
    | copy c' =>
        refine ⟨c'.purpose, fun hpurpose => hmade ((h.madeIn_iff hc).2 ?_), ?_⟩
        · exact copy_eq_of_purpose_eq (h.asked c' hclaim) hc hpurpose ▸ hclaim
        · exact hname ▸ .copy (h.asked c' hclaim)
    | table name branches otherwise =>
        have htable : name ∈ claims.filterMap Claim.table? :=
          List.mem_filterMap.2 ⟨_, hclaim, rfl⟩
        obtain ⟨word, part, hput⟩ := exists_putOut (h.tables.mem_iff.1 htable)
        exact ⟨.output word part, nofun, hname ▸ .output hput⟩
  · obtain ⟨b, hb, hname⟩ := List.mem_map.1 hbound
    exact .inl ⟨.binding b.provider.label, nofun, hname ▸ .label hb⟩
  · exact .inr hunresolved

end Words

end Allotted

end Compile

end TransferRules
