import TransferRules.Action.Basic
import TransferRules.Lexicon.Basic
import TransferRules.Rule.Issue
import TransferRules.Workspace.Basic

/-!
# Macros

Macros look up the value of a feature by the lemma of a word.  A lemma macro does so for one
feature of one category.  A disjoint macro does so for the parts of a disjoint feature set, and
the value of another variable decides which part applies.  Macros are found again by name, so
a file that was written before keeps its macros.

## Main Definitions

* `groupByValue` — the forms that express each value
* `Workspace.ensureLemmaMacro`, `Workspace.ensureDisjointMacro` — the two kinds of macro
-/

namespace TransferRules

open TransferRules.Action
open TransferRules.Ordered
open TransferRules.Text
open TransferRules.Transfer

/-- The exponents whose form has not occurred before; `seen` are the forms that have. -/
def firstExponents (seen : List String) : List Exponent → List Exponent
  | [] => []
  | e :: es =>
    if e.form ∈ seen then firstExponents seen es else e :: firstExponents (e.form :: seen) es

/-- The values that some exponents express in ascending order, each with its forms in ascending
order. -/
def groupByValue (es : List Exponent) : List (String × List String) :=
  (sortStrings (es.map Exponent.value)).map fun value =>
    (value, sortStrings ((es.filter fun e => e.value == value).map Exponent.form))

/-- The lemmas that express each value; a lemma that is listed twice keeps its first value. -/
def lemmasByValue (es : List Exponent) : List (String × List String) :=
  groupByValue (firstExponents [] es)

/-- Set a variable to the value that the lemma of the first word expresses, and clear it if it
expresses none. -/
def lemmaChoice (target : String) (groups : List (String × List String)) : Choice Assignment where
  branches := groups.map fun (value, lemmas) =>
    (.any (lemmas.map fun form => ⟨.clip 1 .target "lem", .lit form⟩), ⟨target, .tag value⟩)
  otherwise := some (.clear target)

/-- The name of the lemma macro for a feature and of the variable that it sets. -/
def lemmaMacroNames (category label : String) : String × String :=
  let stem := identifier (category ++ "_" ++ label ++ "_from_lemma")
  ("m_" ++ stem, "v_" ++ stem)

/-- The name of the macro for a disjoint set, the variable that it sets, and the variable of
the co-feature. -/
def disjointNames (set : DisjointSet) : String × String × String :=
  let stem := identifier set.name
  ("m_" ++ stem ++ "_from_lemma", "v_" ++ stem ++ "_from_lemma",
    identifier ("v_" ++ stem ++ "_" ++ set.coFeature))

/-- The lemma macro of a feature. -/
def lemmaMacro (handle : MacroHandle) (category : String) (groups : List (String × List String)) :
    MacroDefinition where
  name := handle.name
  comment := "Set " ++ handle.result ++ " from the " ++ category ++ " lemma"
  body :=
    let choice := lemmaChoice handle.result groups
    { branches := choice.branches.map fun (test, a) => (test, .assign a)
      otherwise := choice.otherwise.map .assign }

/-- What a disjoint macro does for one part: nothing is known without lemmas. -/
def partStep (target : String) (groups : List (String × List String)) : Step :=
  if groups.isEmpty then .assign (.clear target) else .choose (lemmaChoice target groups)

/-- The macro of a disjoint set. -/
def disjointMacro (handle : MacroHandle) (set : DisjointSet) (coVariable : String)
    (parts : List (String × List (String × List String))) : MacroDefinition where
  name := handle.name
  comment := "Set " ++ handle.result ++ " by " ++ set.coFeature ++ " from the lemma"
  body :=
    { branches := parts.map fun (coValue, groups) =>
        (.all [⟨.var coVariable, .tag coValue⟩], partStep handle.result groups)
      otherwise := some (.assign (.clear handle.result)) }

/-- The lemmas of all categories that express values of a feature. -/
def allLemmas (x : Lexicon) (label : String) : List Exponent :=
  x.categoryNames.flatMap fun category => x.lemmas category label

/-- The categories that have lemmas for some part of a disjoint set. -/
def disjointCategories (x : Lexicon) (set : DisjointSet) : List String :=
  sortStrings (set.pairings.flatMap fun pairing =>
    x.categoryNames.filter fun category => !(x.lemmas category pairing.part).isEmpty)

namespace Workspace

/-- Define a macro unless one with its name is defined. -/
def ensureMacro (w : Workspace) (m : MacroDefinition) : Workspace :=
  if w.document.contains .macros m.name then w else w.define .macros m.name m.toElement

/-- The macro that finds a feature of a word of some category by its lemma. -/
def ensureLemmaMacro (w : Workspace) (x : Lexicon) (category label : String) :
    Except Issue (MacroHandle × Workspace) :=
  match w.macros.lemmaMacro? category label with
  | some handle => .ok (handle, w)
  | none =>
    let (name, result) := lemmaMacroNames category label
    let handle : MacroHandle := ⟨name, result, [category]⟩
    let groups := lemmasByValue (x.lemmas category label)
    if !w.document.contains .macros name && groups.isEmpty then
      .error (.unresolvedFeature category label)
    else
      let w := (w.ensureMacro (lemmaMacro handle category groups)).ensureVariable result none
      .ok (handle,
        { w with
          macros :=
            { w.macros with
              lemmaMacros := w.macros.lemmaMacros ++ [((category, label), handle)] } })

/-- The macro that finds the parts of a disjoint set.  A macro that was made for another set
keeps its name. -/
def ensureDisjointMacro (w : Workspace) (x : Lexicon) (set : DisjointSet) :
    Except Issue (MacroHandle × Workspace) :=
  match w.macros.disjoint.filter fun entry => decide (entry.1 = set) with
  | some (_, handle) => .ok (handle, w)
  | none =>
    let (base, result, coVariable) := disjointNames set
    let parts := set.pairings.map fun pairing =>
      (pairing.coValue, lemmasByValue (allLemmas x pairing.part))
    if parts.all fun part => part.2.isEmpty then .error (.unresolvedFeature "*" set.name)
    else
      let (name, w) := if w.macros.disjoint.isSome then w.allocate .macros base else (base, w)
      let handle : MacroHandle := ⟨name, result, disjointCategories x set⟩
      let w := w.ensureMacro (disjointMacro handle set coVariable parts)
      let w := (w.ensureVariable result none).ensureVariable coVariable none
      .ok (handle, { w with macros := { w.macros with disjoint := some (set, handle) } })

end Workspace

end TransferRules
