import TransferRules.Lexicon.Basic
import TransferRules.Rule.Issue
import TransferRules.Workspace.Basic

/-!
# Attributes

An attribute lists the tags that a clip may find.  Attributes are shared by their value sets:
where the same tags are wanted again, the first attribute that lists exactly these is used.
One attribute is special, the one that lists the grammatical categories; it grows in place.

## Main Definitions

* `featureValues` — the tags that a feature can have
* `Workspace.addAttribute` — an attribute with the given value set
* `Workspace.ensureAttribute` — the attribute of a feature
* `Workspace.ensureGramCat` — let the category attribute list some categories
-/

namespace TransferRules

open TransferRules.Markup
open TransferRules.Ordered
open TransferRules.Transfer

/-- The attribute that lists the grammatical categories. -/
def gramCatName : String := "a_gram_cat"

/-- The element of a tag that an attribute lists. -/
def attributeItem (tag : String) : Element := ⟨"attr-item", [("tags", tag)], []⟩

/-- The definition of an attribute. -/
def attributeElement (name : String) (values : StringSet) : Element :=
  (⟨"def-attr", [("n", name)], []⟩ : Element).pushAll (values.toList.map attributeItem)

/-- The tags that a feature can have: the glosses of an affix, the values of the feature itself,
or else its values in words of any category. -/
def featureValues (x : Lexicon) (key : FeatureKey) : StringSet :=
  StringSet.ofList
    (if key.isAffix then (x.affixes key.category key.label).map Exponent.form
    else
      match x.values key.category key.label with
      | [] => x.values "" key.label
      | values => values)

namespace AttributeTable

/-- The value set of an attribute. -/
def values? (t : AttributeTable) (name : String) : Option StringSet :=
  (t.valueSets.find? fun entry => entry.1 == name).map Prod.snd

/-- The first attribute with exactly these values. -/
def nameOf? (t : AttributeTable) (values : StringSet) : Option String :=
  (t.valueSets.find? fun entry => decide (entry.2 = values)).map Prod.fst

/-- The attribute that was resolved for a feature. -/
def resolved? (t : AttributeTable) (key : FeatureKey) : Option String :=
  (t.resolved.find? fun entry => entry.1 == key).map Prod.snd

/-- Give the first entry with a name the value set; without one, add an entry. -/
def setEntry (name : String) (values : StringSet) :
    List (String × StringSet) → List (String × StringSet)
  | [] => [(name, values)]
  | (n, v) :: rest =>
    if n = name then (n, values) :: rest else (n, v) :: setEntry name values rest

/-- The table in which an attribute has the value set. -/
def setValues (t : AttributeTable) (name : String) (values : StringSet) : AttributeTable :=
  { t with valueSets := setEntry name values t.valueSets }

end AttributeTable

namespace Workspace

/-- The name of an attribute with the given value set, which is defined if there is none. -/
def addAttribute (w : Workspace) (base : String) (values : StringSet) : String × Workspace :=
  match w.attributes.nameOf? values with
  | some name => (name, w)
  | none =>
    let (name, w) := w.allocate .attributes base
    (name,
      { w with
        document := w.document.addDefinition .attributes (attributeElement name values)
        attributes :=
          { w.attributes with valueSets := w.attributes.valueSets ++ [(name, values)] } })

/-- The name of the attribute of a feature, which is defined if need be; the lexicon has to know
values. -/
def ensureAttribute (w : Workspace) (x : Lexicon) (q : FeatureQuery) :
    Except Issue (String × Workspace) :=
  match w.attributes.resolved? q.key with
  | some name => .ok (name, w)
  | none =>
    let values := featureValues x q.key
    if values.isEmpty then .error (.unresolvedFeature q.key.category q.key.label)
    else
      let (name, w) := w.addAttribute ("a_" ++ q.stem) values
      .ok (name,
        { w with
          attributes :=
            { w.attributes with resolved := w.attributes.resolved ++ [(q.key, name)] } })

/-- Let the category attribute list the given categories.  If it is defined, the missing ones
are added at its end. -/
def ensureGramCat (w : Workspace) (categories : StringSet) : Workspace :=
  match w.document.definition? .attributes gramCatName with
  | some e =>
    let present := attributeItems e
    let missing := categories.toList.filter fun category => !present.contains category
    { w with
      document := w.document.updateDefinition .attributes gramCatName fun e =>
        e.pushAll (missing.map attributeItem)
      attributes :=
        w.attributes.setValues gramCatName ((StringSet.ofList present).union categories) }
  | none =>
    let values := ((w.attributes.values? gramCatName).getD .empty).union categories
    let w := w.define .attributes gramCatName (attributeElement gramCatName values)
    { w with attributes := w.attributes.setValues gramCatName values }

end Workspace

end TransferRules
