import TransferRules.Proofs.Compile.AffixGloss
import TransferRules.Proofs.Compile.CoFeature
import TransferRules.Proofs.Compile.LemmaAgreement
import TransferRules.Proofs.Workspace.MacroNames

/-!
# Variables for the output

After the match labels are bound, variables are claimed for two purposes only.  A consumer with a
fallback asks for a copy of the variable that it compares with, and a table sets a variable that is
put out.  The name of a table's variable is made such that the rule does not use it; the name of a
copy is given, and if the rule uses it already, for whatever it may be, nothing is copied.

So a computation is described by its claims, in the order in which they are made.  They say which
variables are claimed and which statements are added; what has been asked for is said besides,
because not every copy that is asked for is made.

## Main Definitions

* `Copy`, `copiesOf` — a copy of a variable, and the copies that consumers ask for
* `Claim`, `Claims` — a variable that is claimed, and the claims between two emissions
* `Claiming` — what a computation asks for, and how its tables go with its result

## Main Statements

* `operand?_claiming`, `emitRows_claiming` — where variables are claimed
* `emitWord_claiming`, `closeRule_claiming` — the tables of a word and of a rule set what is put out
-/

namespace TransferRules

open TransferRules.Action
open TransferRules.Ordered
open TransferRules.Text
open TransferRules.Transfer

/-- The variable whose content a value is. -/
def Action.Value.var? : Value → Option String
  | .var name => some name
  | _ => none

theorem Action.Value.var?_eq_some_iff {v : Value} {name : String} :
    v.var? = some name ↔ v = .var name := by
  cases v <;> simp [var?]

/-- The variables that a word of the output puts out. -/
def Action.OutputWord.variables (w : OutputWord) : List String :=
  (w.lemmaValue :: w.tags).filterMap Value.var?

namespace Compile

/-! ## Copies -/

/-- A copy of the variable of a match label, which holds a fallback if the variable is empty. -/
structure Copy where
  label : String
  /-- The variable of the match label. -/
  copied : String
  fallback : String
  deriving Repr, DecidableEq

namespace Copy

/-- The variable of the copy. -/
def name (c : Copy) : String := identifier (c.copied ++ "_or_" ++ c.fallback)

/-- The statements that make the copy. -/
def statements (c : Copy) : List Statement := copyWithFallback c.name c.copied c.fallback

end Copy

/-- The copy that an occurrence is compared with, if it is compared with one. -/
def copy? (bindings : Bindings) (o : Occurrence) : Option Copy :=
  match o.feature.binding with
  | .fixed _ => none
  | .agreement label =>
    (bindings.find? label).bind fun bound =>
      (o.feature.fallback <|> bound.fallback).map fun fallback => ⟨label, bound.name, fallback⟩

/-- The copies that some occurrences ask for; those without forms are not compared. -/
def copiesOf (bindings : Bindings) (forms : String → List Exponent)
    (occurrences : List Occurrence) : List Copy :=
  occurrences.flatMap fun o =>
    if (forms o.feature.label).isEmpty then [] else (copy? bindings o).toList

/-- The copies that an affix asks for. -/
def copiesOfAffix (ctx : Lexicons) (bindings : Bindings) (r : Resolution) (targetIndex : Nat)
    (category : String) (index : Nat) : List Copy :=
  copiesOf bindings (ctx.target.affixes category)
    ((occurrencesAt r targetIndex (.affix index)).map Prod.fst)

/-- The copies that a word of the output asks for: for its lemma, unless it is the head, and then
for its affixes. -/
def copiesOfWord (ctx : Lexicons) (bindings : Bindings) (rule : Rule) (r : Resolution)
    (w : TargetWord) (index : Nat) : List Copy :=
  (if w.isHead then []
    else copiesOf bindings (ctx.target.lemmas (rule.targetCategory w)) (byRanking
      (((occurrencesAt r index .word).filter fun (_, i) => !r.provides i).map Prod.fst))) ++
    w.affixes.zipIdx.flatMap fun affix =>
      copiesOfAffix ctx bindings r index (rule.targetCategory w) affix.2

/-- The copies that some target words ask for. -/
def copiesOfWords (ctx : Lexicons) (bindings : Bindings) (rule : Rule) (r : Resolution)
    (words : List (TargetWord × Nat)) : List Copy :=
  words.flatMap fun w =>
    if (rule.position? w.1.id).isSome then copiesOfWord ctx bindings rule r w.1 w.2 else []

/-! ## Claims -/

/-- A variable that is claimed: for a copy, or for a table that sets it. -/
inductive Claim where
  | copy (c : Copy)
  | table (name : String) (branches : List (Test × Assignment)) (otherwise : Assignment)
  deriving Repr, DecidableEq

namespace Claim

/-- The variable. -/
def name : Claim → String
  | copy c => c.name
  | table name _ _ => name

/-- The statements that are added for it. -/
def statements : Claim → List Statement
  | copy c => c.statements
  | table _ branches otherwise => [.choose ⟨branches, some otherwise⟩]

/-- The variable of a table. -/
def table? : Claim → Option String
  | copy _ => none
  | table name _ _ => some name

theorem name_of_table? {claim : Claim} {name : String} (h : claim.table? = some name) :
    claim.name = name := by
  cases claim with
  | copy _ => cases h
  | table _ _ _ => exact Option.some.inj h

end Claim

/-- The claims that are made between two emissions. -/
structure Claims (e : Emission) (claims : List Claim) (e' : Emission) : Prop where
  claimed : e'.claimed = (claims.map Claim.name).reverse ++ e.claimed
  statements : e'.statements = e.statements ++ claims.flatMap Claim.statements
  distinct : e.claimed.Nodup → e'.claimed.Nodup

theorem Claims.of_eq {e e' : Emission} (hclaimed : e'.claimed = e.claimed)
    (hstatements : e'.statements = e.statements) : Claims e [] e' :=
  ⟨hclaimed, hstatements.trans (List.append_nil _).symm, fun h => hclaimed ▸ h⟩

theorem Claims.trans {e e' e'' : Emission} {claims more : List Claim} (h : Claims e claims e')
    (h' : Claims e' more e'') : Claims e (claims ++ more) e'' where
  claimed := by
    rw [h'.claimed, h.claimed, List.map_append, List.reverse_append, List.append_assoc]
  statements := by
    rw [h'.statements, h.statements, List.flatMap_append, List.append_assoc]
  distinct hdistinct := h'.distinct (h.distinct hdistinct)

/-- What a computation claims: only copies that are asked for, and the variable of each of these is
claimed in the end.  The variables of its tables go with the result. -/
def Claiming {α : Type} (m : Emit α) (asked : List Copy) (Q : α → List String → Prop) : Prop :=
  ∀ e, ∃ claims, Claims e claims (m e).2 ∧ (∀ c, .copy c ∈ claims → c ∈ asked) ∧
    (∀ c ∈ asked, c.name ∈ (m e).2.claimed) ∧ Q (m e).1 (claims.filterMap Claim.table?)

namespace Claiming

variable {α β : Type} {m : Emit α} {f : α → Emit β} {asked more : List Copy}
  {P : α → List String → Prop} {Q : β → List String → Prop}

/-- A computation that claims nothing and adds no statement. -/
theorem silent (hm : ∀ e, (m e).2.claimed = e.claimed ∧ (m e).2.statements = e.statements ∧
    P (m e).1 []) : Claiming m [] P :=
  fun e => ⟨[], .of_eq (hm e).1 (hm e).2.1, nofun, nofun, (hm e).2.2⟩

theorem pure {a : α} (h : P a []) : Claiming (Pure.pure a : Emit α) [] P :=
  silent fun _ => ⟨rfl, rfl, h⟩

theorem bind (hm : Claiming m asked P)
    (hf : ∀ a names, P a names → Claiming (f a) more fun b names' => Q b (names ++ names')) :
    Claiming (m >>= f) (asked ++ more) Q := by
  intro e
  obtain ⟨claims, hclaims, hcopies, hasked, hP⟩ := hm e
  obtain ⟨claims', hclaims', hcopies', hasked', hQ⟩ := hf _ _ hP (m e).2
  refine ⟨claims ++ claims', hclaims.trans hclaims', fun c hc => ?_, fun c hc => ?_, ?_⟩
  · rcases List.mem_append.1 hc with hc | hc
    · exact List.mem_append_left _ (hcopies c hc)
    · exact List.mem_append_right _ (hcopies' c hc)
  · rcases List.mem_append.1 hc with hc | hc
    · show c.name ∈ (f (m e).1 (m e).2).2.claimed
      rw [hclaims'.claimed]
      exact List.mem_append_right _ (hasked c hc)
    · exact hasked' c hc
  · rw [List.filterMap_append]
    exact hQ

theorem imp {P' : α → List String → Prop} (hm : Claiming m asked P)
    (h : ∀ a names, P a names → P' a names) : Claiming m asked P' := by
  intro e
  obtain ⟨claims, hclaims, hcopies, hasked, hP⟩ := hm e
  exact ⟨claims, hclaims, hcopies, hasked, h _ _ hP⟩

/-- The last step of a computation. -/
theorem map {g : α → β} (hm : Claiming m asked P) (h : ∀ a names, P a names → Q (g a) names) :
    Claiming (m >>= fun a => Pure.pure (g a)) asked Q := by
  have hbind : Claiming (m >>= fun a => Pure.pure (g a)) (asked ++ []) Q :=
    hm.bind fun a names hP => pure (by rw [List.append_nil]; exact h a names hP)
  rwa [List.append_nil] at hbind

/-- What is claimed for some entries one after the other. -/
theorem mapM {f : α → Emit β} {asked : α → List Copy} (var? : β → Option String)
    {S : String → Prop} (hf : ∀ a, Claiming (f a) (asked a) fun b names =>
      names = (var? b).toList ∧ ∀ name ∈ names, S name) (l : List α) :
    Claiming (l.mapM f) (l.flatMap asked) fun bs names =>
      names = bs.filterMap var? ∧ ∀ name ∈ names, S name := by
  induction l with
  | nil => exact pure ⟨rfl, nofun⟩
  | cons a l ih =>
      rw [List.mapM_cons, List.flatMap_cons]
      refine (hf a).bind fun b names hnames => ih.map fun bs names' hnames' => ⟨?_, ?_⟩
      · rw [hnames.1, hnames'.1, List.filterMap_cons]
        cases var? b with
        | none => rfl
        | some name => rfl
      · intro name hname
        rcases List.mem_append.1 hname with hname | hname
        · exact hnames.2 name hname
        · exact hnames'.2 name hname

end Claiming

/-! ## Consumers -/

variable {ctx : Lexicons} {bindings : Bindings} {position : Nat} {category : String}

theorem report_claiming (issue : Issue) : Claiming (report issue) [] fun _ names => names = [] :=
  .silent fun _ => ⟨rfl, rfl, rfl⟩

/-- **A copy is only made** if the rule does not use its variable. -/
theorem operand?_claiming (o : Occurrence) :
    Claiming (operand? bindings o) (copy? bindings o).toList fun _ names => names = [] := by
  unfold operand? copy?
  cases o.feature.binding with
  | fixed value => exact .pure rfl
  | agreement label =>
      dsimp only
      cases bindings.find? label with
      | none => exact .pure rfl
      | some bound =>
          dsimp only [Option.bind_some]
          cases o.feature.fallback <|> bound.fallback with
          | none => exact .pure rfl
          | some fallback =>
              intro e
              dsimp only
              rw [bind_apply, claimExactly_apply]
              split
              · next hmem =>
                refine ⟨[], .of_eq rfl rfl, nofun, fun c hc => ?_, rfl⟩
                rw [List.mem_singleton.1 hc]
                exact hmem
              · next hfresh =>
                refine ⟨[.copy ⟨label, bound.name, fallback⟩],
                  ⟨rfl, List.append_assoc _ _ _, List.nodup_cons.2 ∘ .intro hfresh⟩,
                  fun c hc => ?_, fun c hc => ?_, rfl⟩
                · cases List.mem_singleton.1 hc
                  exact List.mem_singleton_self _
                · rw [List.mem_singleton.1 hc]
                  exact List.mem_cons_self

theorem usableFeatures_claiming (forms : String → List Exponent) (occurrences : List Occurrence) :
    Claiming (usableFeatures bindings category forms occurrences)
      (copiesOf bindings forms occurrences) fun _ names => names = [] := by
  induction occurrences with
  | nil => exact .pure rfl
  | cons o rest ih =>
      rw [usableFeatures_cons, copiesOf, List.flatMap_cons]
      split
      · refine (report_claiming _).bind fun _ names hnames => ?_
        rw [hnames]
        exact ih
      · refine (operand?_claiming o).bind fun operand names hnames => ?_
        rw [hnames]
        cases operand with
        | none => exact ih
        | some operand => exact ih.map fun _ _ h => h

/-- A table sets a variable that the rule does not use, and this is what is put out. -/
theorem emitRows_claiming {base : String} {us : List Usable} {rows : List (List String × Value)}
    {other : Value} (hrows : ∀ row ∈ rows, row.2.var? = none) (missing? : Option Issue) :
    Claiming (emitRows base position us rows other missing?) [] fun output names =>
      names = (output.bind Value.var?).toList ∧
        ∀ name ∈ names, ∃ claimed, name = unclaimed base position claimed := by
  unfold emitRows
  cases rows with
  | nil =>
      cases missing? with
      | none => exact .pure ⟨rfl, nofun⟩
      | some issue => exact .silent fun e => ⟨rfl, rfl, rfl, nofun⟩
  | cons row rest =>
      dsimp only
      split
      · refine .pure ⟨?_, nofun⟩
        rw [Option.bind_some, hrows row List.mem_cons_self]
        rfl
      · intro e
        refine ⟨[.table (unclaimed base position e.claimed) _ _],
          ⟨rfl, rfl, List.nodup_cons.2 ∘ .intro (unclaimed_notMem _ _ _)⟩, nofun, nofun, rfl, ?_⟩
        intro name hname
        exact ⟨e.claimed, List.mem_singleton.1 hname⟩

theorem emitTable_claiming {base : List Usable → String}
    {rows : List Usable → List (List String × Value)} {other : Value}
    (hrows : ∀ us, ∀ row ∈ rows us, row.2.var? = none) (forms : String → List Exponent)
    (occurrences : List Occurrence) (missing? : List Usable → Option Issue) :
    Claiming
      (emitTable bindings position category forms occurrences base rows other missing?)
      (copiesOf bindings forms occurrences) fun output names =>
        names = (output.bind Value.var?).toList ∧
          ∀ name ∈ names, ∃ us claimed, name = unclaimed (base us) position claimed := by
  rw [← List.append_nil (copiesOf bindings forms occurrences)]
  refine (usableFeatures_claiming forms occurrences).bind fun us names hnames => ?_
  rw [hnames]
  refine (emitRows_claiming (hrows us) (missing? us)).imp fun output names h => ⟨h.1, ?_⟩
  exact fun name hname => ⟨us, h.2 name hname⟩

/-- A variable with a number behind it does not end like the variable of a macro. -/
theorem not_endsStem_unclaimed {base : String} (hbase : ¬ EndsStem base) (position : Nat)
    (claimed : List String) : ¬ EndsStem (unclaimed base position claimed) := by
  unfold unclaimed
  split
  · obtain ⟨n, -, heq, -⟩ := firstFree_spec (variableCandidate_injective base position) 0 claimed
    rw [heq]
    cases n with
    | zero => exact not_endsStem_numbered (base ++ "_") position
    | succ n => exact not_endsStem_numbered (base ++ "_" ++ toString position ++ "_") (n + 1)
  · exact hbase

theorem not_endsStem_affixVariable (category : String) (us : List Usable) :
    ¬ EndsStem (affixVariable category us) := by
  let stem := category ++ "_" ++ String.intercalate "_" (us.map Usable.label)
  have hstem : (stem ++ "_affix").toList = (stem ++ "_affi").toList ++ ['x'] := by
    simp [String.toList_append]
  obtain ⟨ds, hds⟩ := exists_identifier_concat hstem (by decide)
  rintro ⟨cs, hcs⟩
  have hlast := congrArg List.getLast? hcs
  rw [affixVariable, String.toList_append, hds, ← List.append_assoc, List.getLast?_concat,
    List.getLast?_concat] at hlast
  exact absurd (Option.some.inj hlast) (by decide)

/-- **The variable of an affix** does not end like the variable of a macro. -/
theorem emitAffix_claiming (occurrences : List Occurrence) :
    Claiming (emitAffix ctx bindings position category occurrences)
      (copiesOf bindings (ctx.target.affixes category) occurrences) fun output names =>
        names = (output.bind Value.var?).toList ∧ ∀ name ∈ names, ¬ EndsStem name := by
  rw [emitAffix_eq]
  refine (emitTable_claiming (fun us row hrow => ?_) _ _ _).imp fun output names h => ⟨h.1, ?_⟩
  · obtain ⟨_, -, rfl⟩ := List.mem_map.1 hrow
    rfl
  · intro name hname
    obtain ⟨us, claimed, rfl⟩ := h.2 name hname
    exact not_endsStem_unclaimed (not_endsStem_affixVariable category us) position claimed

theorem emitLemma_claiming (occurrences : List Occurrence) :
    Claiming (emitLemma ctx bindings position category occurrences)
      (copiesOf bindings (ctx.target.lemmas category) (byRanking occurrences)) fun output names =>
        names = (output.bind Value.var?).toList := by
  rw [emitLemma_eq]
  refine (emitTable_claiming (fun us row hrow => ?_) _ _ _).imp fun output names h => h.1
  obtain ⟨_, -, rfl⟩ := List.mem_map.1 hrow
  rfl

/-! ## Words and rules -/

variable {rule : Rule} {r : Resolution} {w : TargetWord} {index : Nat}

theorem emitAffixes_claiming (affixes : List (Affix × Nat)) :
    Claiming (emitAffixes ctx bindings r index position category affixes)
      (affixes.flatMap fun affix => copiesOfAffix ctx bindings r index category affix.2)
      fun sided names => names = (sided.map Prod.snd).filterMap Value.var? ∧
        ∀ name ∈ names, ¬ EndsStem name := by
  unfold emitAffixes
  refine Claiming.map (.mapM (S := fun name => ¬ EndsStem name)
    (fun entry : Option (AffixSide × Value) => entry.bind fun output => output.2.var?)
    (fun affix => ?_) affixes) fun entries names h => ?_
  · refine (emitAffix_claiming _).map fun output names h => ?_
    cases output with
    | none => exact h
    | some v => exact h
  · refine ⟨?_, h.2⟩
    rw [h.1, List.filterMap_map, List.filterMap_filterMap]
    rfl

/-- The variables among the tags of a word are those of its affixes. -/
theorem perm_filterMap_wordTags (hkeeps : keepsTags w = false) (position : Nat)
    (sided : List (AffixSide × Value)) :
    ((sided.map Prod.snd).filterMap Value.var?).Perm
      ((wordTags w position sided).filterMap Value.var?) := by
  have htags : (wordTags w position sided).filterMap Value.var? =
      (onSide .before sided ++ onSide .after sided).filterMap Value.var? := by
    rw [wordTags, hkeeps, if_neg Bool.false_ne_true]
    cases w.category with
    | none => rfl
    | some category => rfl
  -- An affix is on the one side or on the other.
  have hafter : (fun output : AffixSide × Value => output.1 == .after) =
      fun output => !(output.1 == .before) := by
    funext output
    cases output.1 with
    | before => rfl
    | after => rfl
  rw [htags]
  refine List.Perm.filterMap _ ?_
  unfold onSide
  rw [← List.map_append, hafter]
  exact (List.filter_append_perm _ sided).symm.map Prod.snd

/-- The tables of the affixes set the variables among the tags of the word, each of them once. -/
theorem emitAffixes_claiming_wordTags (w : TargetWord) :
    Claiming (emitAffixes ctx bindings r index position category w.affixes.zipIdx)
      (w.affixes.zipIdx.flatMap fun affix => copiesOfAffix ctx bindings r index category affix.2)
      fun sided names => names.Perm ((wordTags w position sided).filterMap Value.var?) ∧
        ∀ name ∈ names, ¬ EndsStem name := by
  cases hkeeps : keepsTags w with
  | true =>
      rw [affixes_eq_nil_of_keepsTags hkeeps]
      refine .pure ⟨?_, nofun⟩
      rw [wordTags, hkeeps]
      exact .nil
  | false =>
      refine (emitAffixes_claiming _).imp fun sided names h => ⟨?_, h.2⟩
      rw [h.1]
      exact perm_filterMap_wordTags hkeeps position sided

/-- **The tables of a word** set the variables that it puts out, each of them once. -/
theorem emitWord_claiming (w : TargetWord) (index position : Nat) :
    Claiming (emitWord ctx bindings rule r w index position)
      (copiesOfWord ctx bindings rule r w index) fun word names =>
        names.Perm word.variables ∧
          ∀ name ∈ word.tags.filterMap Value.var?, ¬ EndsStem name := by
  -- Whatever the lemma is, the tags come after it.
  have hword : ∀ (chosen : Option Value) (names : List String),
      names = (chosen.bind Value.var?).toList → Claiming
        (do
          let sided ← emitAffixes ctx bindings r index position (rule.targetCategory w)
            w.affixes.zipIdx
          return (⟨chosen.getD (.clip position .target "lem"), wordTags w position sided⟩ :
            OutputWord))
        (w.affixes.zipIdx.flatMap fun affix =>
          copiesOfAffix ctx bindings r index (rule.targetCategory w) affix.2)
        fun word names' => (names ++ names').Perm word.variables ∧
          ∀ name ∈ word.tags.filterMap Value.var?, ¬ EndsStem name := by
    rintro chosen names rfl
    refine (emitAffixes_claiming_wordTags w).map fun sided names h => ⟨?_, fun name hname => ?_⟩
    · cases chosen with
      | none => exact h.1
      | some v => cases v with
        | var name => exact h.1.cons name
        | _ => exact h.1
    · exact h.2 name (h.1.mem_iff.2 hname)
  unfold emitWord copiesOfWord
  dsimp only
  split
  · exact Claiming.bind (.pure rfl) hword
  · exact (emitLemma_claiming _).bind hword

/-- The tables of an output set the variables that its words put out, each of them once. -/
theorem emitOutput_claiming (words : List (TargetWord × Nat)) :
    Claiming (emitOutput ctx bindings rule r words) (copiesOfWords ctx bindings rule r words)
      fun output names => names.Perm (output.flatMap fun word => word.2.variables) ∧
        ∀ word ∈ output, ∀ name ∈ word.2.tags.filterMap Value.var?, ¬ EndsStem name := by
  induction words with
  | nil => exact .pure ⟨.nil, nofun⟩
  | cons word words ih =>
      obtain ⟨w, index⟩ := word
      rw [copiesOfWords, List.flatMap_cons, emitOutput]
      cases hposition : rule.position? w.id with
      | none => exact ih
      | some position =>
          refine (emitWord_claiming w index position).bind fun word names hword => ?_
          refine ih.map fun output names' houtput =>
            ⟨hword.1.append houtput.1, fun other hother => ?_⟩
          rcases List.mem_cons.1 hother with rfl | hother
          · exact hword.2
          · exact houtput.2 other hother

/-- **The tables of a rule** set the variables that it puts out, each of them once. -/
theorem closeRule_claiming (pattern : List String) :
    Claiming (closeRule ctx rule r pattern bindings)
      (copiesOfWords ctx bindings rule r rule.target.zipIdx) fun compiled names =>
        names.Perm (compiled.output.flatMap fun word => word.2.variables) ∧
          ∀ word ∈ compiled.output, ∀ name ∈ word.2.tags.filterMap Value.var?, ¬ EndsStem name := by
  intro e
  obtain ⟨claims, hclaims, h⟩ := @emitOutput_claiming ctx bindings rule r rule.target.zipIdx e
  refine ⟨claims, ?_⟩
  unfold closeRule
  rw [bind_apply]
  split
  · exact ⟨⟨hclaims.claimed, hclaims.statements, hclaims.distinct⟩, h⟩
  · exact ⟨hclaims, h⟩

/-- The statements of a compiled rule are those that were added. -/
theorem closeRule_statements (pattern : List String) (e : Emission) :
    (closeRule ctx rule r pattern bindings e).1.statements =
      (closeRule ctx rule r pattern bindings e).2.statements := by
  unfold closeRule
  rw [bind_apply]
  split
  · rfl
  · rfl

end Compile

end TransferRules
