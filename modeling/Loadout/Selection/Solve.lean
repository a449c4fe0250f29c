/-
# Solving

`Solver.solve` looks for the best selection of candidates.  Where there is none it
looks for the cheapest set of dependencies to waive, which explains the failure, and
for the cheapest change to the mods that would help.  All of these searches share
one deadline.
-/

import Loadout.Selection.Encoding
import Loadout.Selection.Failure
import Loadout.Settings

namespace Loadout

/-- What is to be solved. -/
structure Solver where
  store : Store
  /-- all candidates, the preferred ones first -/
  order : List CandidateId
  /-- candidates that have to be selected -/
  preselected : List CandidateId := []
  deadline : Search.Deadline := .never

/-- How solving ends, if it ends in time. -/
inductive Resolution where
  /-- the selected candidates in the order of preference -/
  | success (selection : List CandidateId)
  | failure (failure : Failure)
  deriving DecidableEq, Repr

/-- Time was up. -/
inductive TimedOut where
  | timedOut
  deriving DecidableEq, Repr

namespace TimedOut

/-- The message for a time limit. -/
def message (seconds : Nat) : String :=
  "Mod resolution did not finish within " ++ Settings.limitText seconds

end TimedOut

namespace Solver

/-- The encoding for a purpose. -/
def encode (s : Solver) (purpose : Purpose) : Encoding :=
  (Instance.mk s.store s.order s.preselected purpose).encode

/-- The choices of the best model for a purpose, if there is a model. -/
def best (s : Solver) (purpose : Purpose) : Except TimedOut (Option (List Choice)) :=
  let e := s.encode purpose
  match e.problem.optimize s.deadline with
  | .infeasible => .ok none
  | .best m => .ok (some (e.decode m))
  | .interrupted => .error .timedOut

/-- Some candidates in the order of preference. -/
def byPreference (s : Solver) (ids : List CandidateId) : List CandidateId :=
  ids.mergeSort fun a b => s.order.idxOf a ≤ s.order.idxOf b

/-- Whether a candidate is selected. -/
def isSelected (made : List Choice) (id : CandidateId) : Bool := made.contains (.candidate id)

/-- The candidates that are selected, in the order of preference. -/
def selection (s : Solver) (made : List Choice) : List CandidateId :=
  s.order.filter (isSelected made)

/-- What there is of the target of a waived dependency: what is selected of it, or all
of it where nothing is.  A candidate that rules others out is told only of those. -/
def present (s : Solver) (made : List Choice) (source : CandidateId) (d : Dependency) :
    List ModRef :=
  let providers := s.byPreference ((s.store.providers d.target).filter (· ≠ source))
  let chosen := providers.filter (isSelected made)
  let shown :=
    if d.relation = .breaks then
      chosen.filter fun id => (s.store.get? id).any fun c => d.admits c.version
    else if chosen.isEmpty then providers else chosen
  (s.store.getAll shown).map ModRef.ofCandidate

/-- The waived dependencies, by candidate in the order of preference. -/
def waivers (s : Solver) (made : List Choice) : List (CandidateId × Nat) :=
  (made.filterMap fun
    | .waived source index => some (source, index)
    | _ => none).mergeSort fun a b =>
      let x := s.order.idxOf a.1
      let y := s.order.idxOf b.1
      x < y || (x == y && a.2 ≤ b.2)

/-- The explanation of one waived dependency. -/
def explain (s : Solver) (made : List Choice) (waiver : CandidateId × Nat) : Option Explanation := do
  let c ← s.store.get? waiver.1
  let d ← c.descriptor.dependencies[waiver.2]?
  return ⟨.ofCandidate c, d, s.present made waiver.1 d⟩

/-- The candidate that a stand-in would replace: a root or a selected candidate of the
same identifier, selected ones first. -/
def replacedBy (s : Solver) (explained : List Choice) (a : StandIn) : Option Candidate :=
  let existing := (s.store.getAll (s.byPreference (s.store.providers a.identifier))).filter fun c =>
    c.identifier == a.identifier && (c.isRoot || isSelected explained c.id)
  (existing.filter fun c => isSelected explained c.id).head?.or existing.head?

/-- Adds a stand-in to a fix, in place of a candidate if there is one to replace. -/
def addStandIn (s : Solver) (explained : List Choice) (f : Fix) (a : StandIn) : Fix :=
  match s.replacedBy explained a with
  | some old =>
    if f.replacements.any fun (m, _) => m.id = old.id then { f with additions := f.additions ++ [a] }
    else { f with replacements := f.replacements ++ [(.ofCandidate old, a)] }
  | none => { f with additions := f.additions ++ [a] }

/-- The removed roots, in the order of preference. -/
def removals (s : Solver) (made : List Choice) : List CandidateId :=
  s.byPreference (made.filterMap fun
    | .removed id => some id
    | _ => none)

/-- The fix of a model, told by what was selected when dependencies were waived. -/
def readFix (s : Solver) (explained : List Choice) (standIns : List StandIn) (made : List Choice) :
    Fix :=
  let chosen := (standIns.zipIdx.filter fun (_, n) => made.contains (.added n)).map (·.1)
  let f := chosen.foldl (s.addStandIn explained) {}
  let removed := (s.removals made).filter fun id => !f.replacements.any fun (m, _) => m.id = id
  { f with removals := (s.store.getAll removed).map ModRef.ofCandidate }

/-- The cheapest fix, if there is one. -/
def fix (s : Solver) (explained : List Choice) (standIns : List StandIn) :
    Except TimedOut (Option Fix) := do
  let made? ← s.best (.repair standIns)
  return made?.map (s.readFix explained standIns)

/-- The dependencies that a stand-in could meet. -/
def missing (explanations : List Explanation) : List Dependency :=
  (explanations.map (·.dependency)).filter (·.relation = .depends)

/-- Why there is no selection. -/
def analyze (s : Solver) : Except TimedOut Failure := do
  match ← s.best .explain with
  | none => return ⟨[], none⟩
  | some made =>
    let explanations := (s.waivers made).filterMap (s.explain made)
    let fix? ← s.fix made (StandIn.synthesize (missing explanations))
    return ⟨explanations, fix?⟩

/-- The best selection, or why there is none. -/
def solve (s : Solver) : Except TimedOut Resolution := do
  match ← s.best .select with
  | some made => return .success (s.selection made)
  | none => return .failure (← s.analyze)

end Solver
end Loadout
