import Loadout.Command.Line
import Loadout.Command.Project
import Loadout.Command.Run
import Loadout.LoadSet
import Loadout.Main
import Loadout.Proofs.Search.Watch
import Loadout.Proofs.Search.Propagate
import Loadout.Proofs.Search.Conflict
import Loadout.Proofs.Search.Objective
import Loadout.Proofs.Search.State
import Loadout.Proofs.Search.Optimize
import Loadout.Proofs.Search.Termination
import Loadout.Proofs.Text.Decimal
import Loadout.Proofs.Text.Cut
import Loadout.Proofs.Version.Order
import Loadout.Proofs.Version.Sameness
import Loadout.Proofs.Version.Keyed
import Loadout.Proofs.Version.Grammar
import Loadout.Proofs.Version.Predicate
import Loadout.Proofs.Store.Index
import Loadout.Proofs.Store.Effects
import Loadout.Proofs.Store.Insert
import Loadout.Proofs.Store.Settle
import Loadout.Proofs.Store.Change
import Loadout.Proofs.Store.Containment
import Loadout.Proofs.Store.Mirror
import Loadout.Proofs.Store.Multiplicity
import Loadout.Proofs.Store.Sightings
import Loadout.Proofs.Store.Distance
import Loadout.Proofs.Store.Shallowest
import Loadout.Proofs.Store.AnyOrder
import Loadout.Proofs.Store.Roots
import Loadout.Proofs.Store.Keep
import Loadout.Proofs.Discovery.Task
import Loadout.Proofs.Discovery.Underway
import Loadout.Proofs.Discovery.AnyOrder
import Loadout.Proofs.Discovery.Levels
import Loadout.Proofs.Priority.Order
import Loadout.Proofs.Priority.Kin
import Loadout.Proofs.Priority.Keys
import Loadout.Proofs.Priority.Independent
import Loadout.Proofs.Priority.Rise
import Loadout.Proofs.Selection.Numbering
import Loadout.Proofs.Selection.Meaning
import Loadout.Proofs.Selection.Consistent
import Loadout.Proofs.Selection.Choices
import Loadout.Proofs.Selection.Preference
import Loadout.Proofs.Selection.Best
import Loadout.Proofs.Selection.Solve
import Loadout.Proofs.Selection.Barred
import Loadout.Proofs.Selection.Explain
import Loadout.Proofs.Selection.Unfixable
import Loadout.Proofs.Selection.Amend
import Loadout.Proofs.Selection.Clash
import Loadout.Proofs.Selection.Settled
import Loadout.Proofs.Version.Cuts
import Loadout.Proofs.Version.Union
import Loadout.Proofs.Priority.Correction
import Loadout.Proofs.Priority.Ranks
import Loadout.Proofs.Selection.Present
import Loadout.Proofs.Version.Intersection
import Loadout.Proofs.Version.Lines
import Loadout.Proofs.Version.Representative
import Loadout.Proofs.Version.Coverage
import Loadout.Proofs.Selection.StandIns
import Loadout.Proofs.Version.Precedence
import Loadout.Proofs.Version.Alternatives
import Loadout.Proofs.Store.Depths
import Loadout.Proofs.Store.Reading
import Loadout.Proofs.Content.Archives
import Loadout.Proofs.Store.Aliases
import Loadout.Proofs.Search.Fixpoint
import Loadout.Proofs.Search.Analysis
import Loadout.Proofs.Search.Bound
import Loadout.Proofs.Search.Backtrack
import Loadout.Proofs.Selection.Exceptions
import Loadout.Proofs.Selection.Conservative
