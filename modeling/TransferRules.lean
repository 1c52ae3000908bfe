import TransferRules.Main
import TransferRules.Files.Store
import TransferRules.Json.Limits
import TransferRules.Rule.Exchange
import TransferRules.Settings.Writing
import TransferRules.Workspace.Exchange
import TransferRules.Proofs.Ordered.Reachable
import TransferRules.Proofs.Transfer.Names
import TransferRules.Proofs.Transfer.Sections
import TransferRules.Proofs.Workspace.Coherence
import TransferRules.Proofs.Compile.Emitting
import TransferRules.Proofs.Session.Preservation
import TransferRules.Proofs.Session.Regeneration
import TransferRules.Proofs.Session.Trim
import TransferRules.Proofs.Action.References
import TransferRules.Proofs.Session.Closure
import TransferRules.Proofs.Action.Agreement
import TransferRules.Proofs.Session.Independence
import TransferRules.Proofs.Action.Plain
import TransferRules.Proofs.Session.Writing
import TransferRules.Proofs.Markup.Rewriting
import TransferRules.Proofs.Session.Skipping
import TransferRules.Proofs.Session.Reuse
import TransferRules.Proofs.Transfer.NormalForm
import TransferRules.Proofs.Session.Relisting
import TransferRules.Proofs.Session.Repetition
import TransferRules.Proofs.Session.Permutations
import TransferRules.Proofs.Specification.WellFormed
import TransferRules.Proofs.Compile.AffixGloss
import TransferRules.Proofs.Compile.LemmaAgreement
import TransferRules.Proofs.Compile.Precedence
import TransferRules.Proofs.Action.Macro
import TransferRules.Proofs.Compile.Lookup
import TransferRules.Proofs.Compile.CoFeature
import TransferRules.Proofs.Compile.Syncretism
import TransferRules.Proofs.Rule.Subsets
import TransferRules.Proofs.Compile.Reordering
import TransferRules.Proofs.Action.Grammar
import TransferRules.Proofs.Workspace.Resolved
import TransferRules.Proofs.Compile.Address
import TransferRules.Proofs.Session.Form
import TransferRules.Proofs.Session.Variables
import TransferRules.Proofs.Lexicon.Hierarchy
import TransferRules.Proofs.Workspace.Coverage
import TransferRules.Proofs.Session.Attributes
import TransferRules.Proofs.Compile.GramCat
import TransferRules.Proofs.Session.GramCat
import TransferRules.Proofs.Lexicon.Subcategories
import TransferRules.Proofs.Transfer.NameHistory
import TransferRules.Proofs.Compile.Messages
import TransferRules.Proofs.Compile.HeadFeatures
import TransferRules.Proofs.Session.Warnings
import TransferRules.Proofs.Session.Rerun
