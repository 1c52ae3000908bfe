import TransferRules.Proofs.Session.Runs
import TransferRules.Proofs.Transfer.Writing

/-!
# What a session writes is loaded again

All that is asked of a workspace, and every rule that is compiled, adds plain elements.  So a
session that started with nothing writes a file that is read back with the same definitions,
whatever names the lexicons and the rules have.

## Main Statements

* `Request.plain` — requests keep a document plain
* `Session.plain_applyAll` — and so do operations
* `Session.loadText_write` — what a session writes is loaded again
-/

namespace TransferRules

open TransferRules.Action
open TransferRules.Compile
open TransferRules.Markup
open TransferRules.Ordered
open TransferRules.Transfer
open TransferRules.Transfer.TransferDocument

/-! ## Definitions -/

/-- A definition that has a name and plain children. -/
theorem plain_definition (kind : SectionKind) (name : String) {children : List Element}
    (hchildren : ∀ child ∈ children, child.Plain) :
    ((⟨kind.definitionTag, [("n", name)], []⟩ : Element).pushAll children).Plain := by
  refine plain_pushAll (plain_leaf ?_ (plainKeys_singleton rfl name)) hchildren
  cases kind <;> rfl

theorem plain_attributeItem (tag : String) : (attributeItem tag).Plain :=
  plain_leaf rfl (plainKeys_singleton rfl tag)

theorem plain_attributeElement (name : String) (values : StringSet) :
    (attributeElement name values).Plain := by
  refine plain_definition .attributes name fun child hchild => ?_
  obtain ⟨tag, -, rfl⟩ := List.mem_map.1 hchild
  exact plain_attributeItem tag

theorem plain_categoryElement (name : String) (covered values : List String) :
    (categoryElement name covered values).Plain := by
  refine plain_definition .categories name fun child hchild => ?_
  obtain ⟨tags, -, rfl⟩ := List.mem_map.1 hchild
  exact plain_leaf rfl (plainKeys_singleton rfl tags)

theorem plain_variableElement (name : String) (comment? : Option String) :
    (Workspace.variableElement name comment?).Plain := by
  refine plain_leaf rfl ?_
  cases comment? with
  | none => exact plainKeys_singleton rfl name
  | some comment =>
      have hkeys : [("n", name), ("c", comment)].map Prod.fst = ["n", "c"] := rfl
      exact PlainKeys.of_keys hkeys rfl (by decide)

/-! ## Requests -/

namespace Workspace

variable {w w' : Workspace} {ctx : Lexicons}

theorem plain_define (hw : w.document.Plain) {kind : SectionKind} {e : Element} (he : e.Plain)
    (name : String) : (w.define kind name e).document.Plain :=
  hw.addDefinition he

theorem plain_ensureVariable (hw : w.document.Plain) (name : String) (comment? : Option String) :
    (w.ensureVariable name comment?).document.Plain := by
  unfold ensureVariable
  split
  · exact hw
  · exact plain_define hw (plain_variableElement name comment?) name

theorem plain_addAttribute (hw : w.document.Plain) (base : String) (values : StringSet) :
    (w.addAttribute base values).2.document.Plain := by
  unfold addAttribute
  split
  · exact hw
  · exact hw.addDefinition (plain_attributeElement _ values)

theorem plain_makeMacro (hw : w.document.Plain) (m : MacroDefinition) (vs : List String) :
    (w.makeMacro m vs).document.Plain := by
  have hmacro : (w.ensureMacro m).document.Plain := by
    unfold ensureMacro
    split
    · exact hw
    · exact plain_define hw (plain_macroDefinition m) m.name
  unfold makeMacro
  generalize w.ensureMacro m = w₁ at hmacro
  induction vs generalizing w₁ with
  | nil => exact hmacro
  | cons v vs ih => exact ih _ (plain_ensureVariable hmacro v none)

end Workspace

/-- Requests keep a document plain. -/
theorem Request.plain {ctx : Lexicons} {w w' : Workspace} (hw : w.document.Plain)
    (h : Request ctx w w') : w'.document.Plain := by
  cases h with
  | needCategory category values =>
      unfold Workspace.ensureCategory
      dsimp only
      split
      · exact hw
      · exact Workspace.plain_define hw (plain_categoryElement _ _ _) _
  | @needAttribute _ q name h =>
      generalize (if q.key.isSource then ctx.source else ctx.target) = x at h
      unfold Workspace.ensureAttribute at h
      split at h
      · cases h
        exact hw
      · dsimp only at h
        split at h
        · cases h
        · cases h
          exact Workspace.plain_addAttribute hw _ _
  | needValues base values => exact Workspace.plain_addAttribute hw base values
  | needVariable name comment? => exact Workspace.plain_ensureVariable hw name comment?
  | needLemmaMacro h =>
      rcases Workspace.ensureLemmaMacro_cases h with ⟨-, rfl⟩ | ⟨rfl, rfl⟩
      · exact hw
      · exact Workspace.plain_makeMacro hw _ _
  | needDisjointMacro _ h =>
      rcases Workspace.ensureDisjointMacro_cases h with ⟨-, rfl⟩ | ⟨-, name, w₁, -, hw₁, rfl, rfl⟩
      · exact hw
      · have hplain : w₁.document.Plain := by rcases hw₁ with rfl | rfl <;> exact hw
        exact Workspace.plain_makeMacro hplain _ _
  | needGramCat categories =>
      unfold Workspace.ensureGramCat
      split
      · refine hw.updateDefinition fun e he => plain_pushAll he fun child hchild => ?_
        obtain ⟨tag, -, rfl⟩ := List.mem_map.1 hchild
        exact plain_attributeItem tag
      · exact Workspace.plain_define hw (plain_attributeElement _ _) gramCatName

theorem Compile.Moves.plain {ctx : Lexicons} {e e' : Emission} (he : e.workspace.document.Plain)
    (h : Moves ctx e e') : e'.workspace.document.Plain := by
  induction h with
  | refl => exact he
  | tail _ hmove ih =>
      cases hmove with
      | ask h => exact h.plain ih
      | note _ => exact ih
      | claim _ => exact ih
      | emit _ => exact ih

/-! ## Sessions -/

namespace Session

variable {s t : Session}

theorem plain_steps {disjoint : Option DisjointSet} {replaced : List String}
    (hcoherent : s.workspace.Coherent) (hs : s.document.Plain)
    (h : Steps disjoint replaced s t) : t.document.Plain := by
  induction h with
  | refl => exact hs
  | tail hsteps hstep ih =>
      cases hstep with
      | tell entries => exact ih
      | drop hname => exact ih.removeAll _
      | add rule r =>
          obtain ⟨compiled, e, hmoves, -, heq⟩ := addCompiled_spec _ disjoint rule r
            (hcoherent.works (Steps.works hcoherent hsteps))
          show (addCompiled _ disjoint rule r).workspace.document.Plain
          rw [heq]
          exact Workspace.plain_define (hmoves.plain ih) (plain_compiledRule _ compiled) _

/-- Operations keep a document plain. -/
theorem plain_apply (hcoherent : s.workspace.Coherent) (hs : s.document.Plain) (op : Operation) :
    (s.apply op).document.Plain := by
  cases op with
  | process x document => exact plain_steps hcoherent hs (s.process_steps x document)
  | trim => exact (hs.removeAll _).removeAll _
  | ensureAttribute q =>
      show (s.ensureAttribute q).2.document.Plain
      unfold ensureAttribute
      cases h : s.workspace.ensureAttribute (s.lexiconOf q.key) q with
      | ok result =>
          have hrequest : Request (s.lexicons none) s.workspace result.2 := .needAttribute h
          exact hrequest.plain hs
      | error issue => exact hs
  | addAttribute base values => exact Workspace.plain_addAttribute hs base values
  | addVariable name comment? => exact Workspace.plain_ensureVariable hs _ comment?
  | availableName kind base => exact hs

theorem plain_applyAll (hcoherent : s.workspace.Coherent) (hs : s.document.Plain)
    (ops : List Operation) : (s.applyAll ops).document.Plain := by
  induction ops generalizing s with
  | nil => exact hs
  | cons op ops ih =>
      exact ih (hcoherent.changes (apply_changes hcoherent op)) (plain_apply hcoherent hs op)

theorem plain_start (source target : Lexicon) (settings : GeneratorSettings) :
    (start source target settings).document.Plain := by
  have hstandard : ∀ body ∈ some standardDoctype, PlainDoctype body := by
    rintro body ⟨⟩
    exact plainDoctype_standard
  cases hdoctype : settings.doctype with
  | true =>
      simp only [start, document, hdoctype]
      exact Plain.of_blank hstandard
  | false =>
      simp only [start, document, hdoctype]
      exact Plain.of_blank (by simp)

/-- Whatever a session that started with nothing has done, its document is plain. -/
theorem plain_of_start (source target : Lexicon) (settings : GeneratorSettings)
    (ops : List Operation) : ((start source target settings).applyAll ops).document.Plain :=
  plain_applyAll (coherent_run source target settings []) (plain_start source target settings) ops

/-- **What a session writes is loaded again**, by any session, with the definitions that it has. -/
theorem loadText_write (source target : Lexicon) (settings : GeneratorSettings)
    (ops : List Operation) (reader : Session) :
    let s := (start source target settings).applyAll ops
    reader.loadText s.write = .ok (reader.load (ofMarkup s.document.toMarkup)) ∧
      ∀ kind, (ofMarkup s.document.toMarkup).definitions kind = s.document.definitions kind := by
  intro s
  have hplain : s.document.Plain := plain_of_start source target settings ops
  refine ⟨?_, hplain.definitions_ofMarkup⟩
  rw [loadText, write, hplain.parse_write]
  rfl

end Session

end TransferRules
