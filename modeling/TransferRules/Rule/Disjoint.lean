/-!
# Disjoint feature sets

Some features are split in mutually exclusive parts, each a feature of its own, and another
feature of the same word decides which part applies: the noun classes of a language may be
different features in the singular and in the plural.  Rules use one name for all parts.
-/

namespace TransferRules

/-- A value of the deciding feature, and the part that applies under it. -/
structure DisjointPairing where
  coValue : String
  part : String
  deriving Repr, DecidableEq

/-- A feature split in parts, by the value of a co-feature. -/
structure DisjointSet where
  coFeature : String
  name : String
  pairings : List DisjointPairing
  deriving Repr, DecidableEq

/-- The parts in the order of declaration. -/
def DisjointSet.parts (s : DisjointSet) : List String := s.pairings.map DisjointPairing.part

end TransferRules
