/-
# Depths

The depth of a candidate is its distance from the roots along containment.  The
depths that inserts leave behind can be too large; `settleDepths` computes them
anew, breadth first from all roots at once.  Candidates that no root reaches keep
theirs.
-/

import Loadout.Store.Basic

namespace Loadout
namespace Store

/-- What a candidate contains. -/
def childrenOf (s : Store) (id : CandidateId) : List CandidateId :=
  ((s.get? id).map (·.children)).getD []

/-- The numbers reached from a layer at a distance, beside those that are found
already.  A layer that adds anything has a candidate of the store in the layer
before, so there are no more layers than candidates and one. -/
def spread (s : Store) : Nat → Nat → List CandidateId → List (CandidateId × Nat) →
    List (CandidateId × Nat)
  | 0, _, _, found => found
  | fuel + 1, distance, layer, found =>
    let next := ((layer.flatMap s.childrenOf).filter fun c => !found.any (·.1 = c)).eraseDups
    if next.isEmpty then found
    else spread s fuel (distance + 1) next (found ++ next.map fun c => (c, distance + 1))

/-- The distance of every number that the roots reach. -/
def distances (s : Store) : List (CandidateId × Nat) :=
  let roots := (s.records.filter (·.isRoot)).map (·.id)
  s.spread (s.size + 1) 0 roots (roots.map fun r => (r, 0))

/-- Computes all depths anew. -/
def settleDepths (s : Store) : Store :=
  let found := s.distances
  { s with records := s.records.map fun c =>
      match found.find? (·.1 = c.id) with
      | some (_, depth) => { c with depth }
      | none => c }

end Store
end Loadout
