/-
# Load sets

A *load set* is the final list of mods to load, in order.  `resolve` makes one from
sources: it finds the mods, orders them by preference, solves for the best selection
and drops the rest.  Identifiers that must be part of the set stand for the most
preferred candidate of that name; those of no candidate are passed over.
-/

import Loadout.Discovery.Outcome
import Loadout.Priority.Order
import Loadout.Selection.Settle
import Loadout.Selection.Solve
import Loadout.Store.Content

namespace Loadout

/-- The mods to load. -/
structure LoadSet where
  /-- the selected candidates alone -/
  store : Store
  order : List CandidateId
  warnings : List Warning
  skipped : List Skipped
  unmatched : List Unmatched
  archives : ArchiveStore

/-- Why there is no load set. -/
inductive ResolveError where
  | discovery (error : DiscoveryError)
  | unresolvable (failure : Failure)
  /-- the bound on solving, in seconds, was reached -/
  | timedOut (seconds : Nat)
  deriving DecidableEq, Repr

namespace ResolveError

/-- The wording of each error. -/
def message : ResolveError → String
  | discovery e => e.message
  | unresolvable f => f.description
  | timedOut seconds => TimedOut.message seconds

end ResolveError

namespace LoadSet

/-- The candidates that identifiers stand for, given an order of preference. -/
def preselection (s : Store) (order : List CandidateId) (identifiers : List String) :
    List CandidateId :=
  identifiers.filterMap fun identifier =>
    order.find? fun id => (s.get? id).any fun c => c.identifier == identifier

/-- The deadline for a bound in seconds: it is passed at once when there is no time. -/
def deadline (seconds : Nat) : Search.Deadline := if seconds = 0 then .passed else .never

/-- The load set of a selection. -/
def ofSelection (d : Discovery) (selection : List CandidateId) : LoadSet :=
  let store := d.store.settle selection
  { store, order := selection, warnings := store.warnings selection, skipped := d.skipped,
    unmatched := d.unmatched, archives := d.archives }

/-- The load set of what was discovered. -/
def ofDiscovery (s : Settings) (preselected : List String) (d : Discovery) :
    Except ResolveError LoadSet :=
  let order := d.store.preferenceOrder
  let solver : Solver :=
    { store := d.store, order, preselected := preselection d.store order preselected,
      deadline := deadline s.solverTimeout }
  match solver.solve with
  | .error _ => .error (.timedOut s.solverTimeout)
  | .ok (.failure f) => .error (.unresolvable f)
  | .ok (.success selection) => .ok (ofSelection d selection)

/-- The mods in load order. -/
def mods (l : LoadSet) : List Candidate := l.store.getAll l.order

/-- The number of mods. -/
def size (l : LoadSet) : Nat := l.order.length

/-- The mod that provides an identifier. -/
def get? (l : LoadSet) (identifier : String) : Option Candidate :=
  (l.store.providers identifier).head?.bind l.store.get?

/-- Reads the content of a mod. -/
def readContent (l : LoadSet) (files : FileTree) (reader : ArchiveReader) (id : CandidateId)
    (cache : ByteCache) : Reading :=
  l.store.readContent (.of files reader l.archives) id cache

end LoadSet

/-- The load set of some sources. -/
def resolve (files : FileTree) (reader : ArchiveReader) (s : Settings) (sources : List Source)
    (preselected : List String) : Except ResolveError LoadSet := do
  let d ← (discover files reader s sources).mapError .discovery
  LoadSet.ofDiscovery s preselected d

end Loadout
