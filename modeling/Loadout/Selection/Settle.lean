/-
# The settled selection

Once a selection is made the other candidates leave the store, with their edges and
their cached bytes, and the depths of the rest are computed anew.  What remains is
then looked over for recommendations that nothing meets and for conflicts.
-/

import Loadout.Selection.Failure
import Loadout.Store.Depth

namespace Loadout
namespace Store

/-- The candidates that a selection leaves out. -/
def unselected (s : Store) (selection : List CandidateId) : List CandidateId :=
  s.ids.filter fun id => !selection.contains id

/-- The store with the selection alone. -/
def settle (s : Store) (selection : List CandidateId) : Store :=
  ((s.unselected selection).foldl detach s).settleDepths

/-- The candidates that provide the target of a dependency, but for its source. -/
def othersProviding (s : Store) (source : CandidateId) (d : Dependency) : List ModRef :=
  (s.getAll ((s.providers d.target).filter (· ≠ source))).map ModRef.ofCandidate

/-- The warnings about one dependency. -/
def dependencyWarnings (s : Store) (source : ModRef) (d : Dependency) : List Warning :=
  let providers := s.othersProviding source.id d
  match d.relation with
  | .recommends =>
    if providers.any fun p => d.admits p.version then []
    else [.missingRecommendation source d providers]
  | .conflicts => (providers.filter fun p => d.admits p.version).map (.conflict source d)
  | _ => []

/-- The warnings about candidates, in their order. -/
def warnings (s : Store) (selection : List CandidateId) : List Warning :=
  (s.getAll selection).flatMap fun c =>
    c.descriptor.dependencies.flatMap (s.dependencyWarnings (.ofCandidate c))

end Store

/-- The cache without the candidates that a selection leaves out. -/
def ByteCache.settle (cache : ByteCache) (s : Store) (selection : List CandidateId) : ByteCache :=
  (s.unselected selection).foldl ByteCache.evict cache

end Loadout
