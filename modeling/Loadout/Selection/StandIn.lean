/-
# Stand-ins

A stand-in is a mod that is not there but would meet dependencies that failed.  For
each identifier the failed predicates are put together: where they have versions in
common one stand-in serves all of them, from the highest common cluster that has a
version to name; only where they have none there is one stand-in for each cluster.
-/

import Loadout.Candidate
import Loadout.Store.Basic

namespace Loadout

/-- A mod that could be added. -/
structure StandIn where
  identifier : String
  version : Version
  deriving DecidableEq, Repr

namespace StandIn

/-- The mod in words. -/
def label (a : StandIn) : String := modLabel a.identifier a.version

/-- Whether two stand-ins are one mod in one version. -/
def sameAs (a b : StandIn) : Bool := a.identifier == b.identifier && a.version.sameAs b.version

/-- The list without entries that equal the one before them. -/
def dropRepeated : List StandIn → List StandIn
  | [] => []
  | [a] => [a]
  | a :: b :: rest => if a.sameAs b then dropRepeated (a :: rest) else a :: dropRepeated (b :: rest)

/-- The clusters that all predicates admit. -/
def commonClusters : List (List Interval) → List Interval
  | [] => []
  | first :: rest => rest.foldl Interval.intersectAll first

/-- Stand-ins for one identifier under a list of predicates. -/
def forTarget (target : String) (predicates : List Predicate) : List StandIn :=
  let clusters := predicates.map fun p => Interval.union p.intervals
  let common := commonClusters clusters
  if common.isEmpty then
    dropRepeated
      (((Interval.union clusters.flatten).filterMap Interval.representative?).map (⟨target, ·⟩))
  else ((common.reverse.findSome? Interval.representative?).map (⟨target, ·⟩)).toList

/-- The identifiers that dependencies are about, ascending, each once. -/
def targets (failed : List Dependency) : List String :=
  failed.foldl (fun l d => Group.insertKey d.target l) []

/-- The predicates on one identifier, each once. -/
def predicatesOn (failed : List Dependency) (target : String) : List Predicate :=
  (failed.filter (·.target = target)).foldl
    (fun l d => if l.any d.predicate.sameAs then l else l ++ [d.predicate]) []

/-- Stand-ins for failed dependencies, by identifier. -/
def synthesize (failed : List Dependency) : List StandIn :=
  (targets failed).flatMap fun t => forTarget t (predicatesOn failed t)

end StandIn
end Loadout
