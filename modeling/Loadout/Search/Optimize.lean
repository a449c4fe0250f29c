/-
# Search for the best model

The search keeps the best model so far.  Every step propagates; then it either
learns from a conflict and goes back, or decides the next variable in the order of
the objective, or, when all variables have values, has a better model.  A trail
that cannot lead to a better score is a conflict too: one of the literals that the
objective wants and the trail has made false has to be true instead.  The search is
over when a conflict holds at level zero.

Between two equally good models the first one found stays, so the order of all
decisions is part of what `optimize` computes.
-/

import Loadout.Search.Conflict
import Loadout.Search.Objective

namespace Loadout
namespace Search

/-- What is searched for: the best model of rules over the variables `1` to `variables`. -/
structure Problem where
  rules : RuleSet Nat
  variableCount : Nat
  objective : Objective Nat

/-- The values of the variables, each at its own position; position zero is not used. -/
abbrev Model := Array Bool

/-- The value of a variable in a model. -/
def Model.value (m : Model) (v : Nat) : Bool := m.getD v false

/-- A search under way. -/
structure State where
  /-- the rules of the problem, then the learned ones -/
  rules : RuleSet Nat
  graph : WatchGraph
  trail : Trail Trail.unbounded
  /-- how many assignments are propagated -/
  propagated : Nat
  /-- the literals to try, one for every variable -/
  order : List Lit
  /-- the best model so far -/
  best? : Option Model
  /-- the number of steps so far -/
  steps : Nat

/-- How a search ends. -/
inductive Result where
  /-- no valuation meets the rules -/
  | infeasible
  /-- the model meets the rules, and no other one scores more -/
  | best (model : Model)
  /-- time was up before the search was over -/
  | interrupted
  deriving DecidableEq, Repr

/-- When time is up, by the number of steps. -/
abbrev Deadline := Nat → Bool

/-- The deadline that is never reached. -/
def Deadline.never : Deadline := fun _ => false

/-- The deadline that has passed from the start. -/
def Deadline.passed : Deadline := fun _ => true

/-- How many steps apart the deadline is looked at. -/
def deadlineInterval : Nat := 1024

/-- Assigns what rules of one literal ask for; none if they contradict each other or
a rule has no literal. -/
def assignUnits :
    List (Rule Nat × Nat) → Trail Trail.unbounded → Option (Trail Trail.unbounded)
  | [], t => some t
  | (r, id) :: rest, t =>
    match r.literals with
    | [] => none
    | [l] =>
      match t.assign l (some (.rule id)) with
      | (t, true) => assignUnits rest t
      | (_, false) => none
    | _ => assignUnits rest t

namespace Problem

/-- The search before its first step, unless the rules fail at once. -/
def start (p : Problem) : Option State :=
  (assignUnits p.rules.toList.zipIdx .empty).map fun trail =>
    { rules := p.rules, graph := .ofRules p.rules p.variableCount, trail, propagated := 0,
      order := p.objective.decisionOrder p.variableCount, best? := none, steps := 0 }

/-- The score of a model. -/
def score (p : Problem) (m : Model) : List Nat := p.objective.score m.value

/-- The literals of the first `n` tiers that a trail has made false. -/
def lostLiterals (p : Problem) (t : Trail Trail.unbounded) (n : Nat) : Clause :=
  ((p.objective.tiers.take n).flatten.map (·.1)).filter t.isFalse

/-- The number of tiers up to the first one in which two scores differ, all of them
if there is none. -/
def decisiveTiers (bound best : List Nat) : Nat :=
  match (bound.zip best).findIdx? fun (b, s) => b != s with
  | some i => i + 1
  | none => bound.length

/-- A false clause that every better model meets, where the trail cannot lead to one. -/
def boundConflict (p : Problem) (s : State) : Option Clause :=
  s.best?.bind fun best =>
    let bound := p.objective.bound s.trail
    let score := p.score best
    if Objective.compareScores bound score = .gt then none
    else some (p.lostLiterals s.trail (decisiveTiers bound score))

/-- The first variable without a value, with the value to try. -/
def nextDecision (s : State) : Option Lit := s.order.find? fun l => s.trail.isOpen l.atom

/-- Propagates all that is assigned. -/
def propagate (p : Problem) (s : State) : State × Option Clause :=
  let (graph, trail, propagated, conflict?) :=
    propagateFrom s.rules (p.variableCount + 1) s.graph s.trail s.propagated
  ({ s with graph, trail, propagated }, conflict?)

/-- Goes back to a level of the trail. -/
def backTo (s : State) (level : Nat) : State :=
  let trail := s.trail.backTo level
  { s with trail, propagated := trail.size }

/-- Takes a learned clause in, goes back and assigns its first literal. -/
def learn (s : State) (l : Learned) : State :=
  let s := backTo s l.level
  let known := s.rules.size
  let (rules, id) := s.rules.add (.of (l.literal :: l.others) .learned)
  let graph := match l.others with
    | [] => s.graph
    | other :: _ => if known ≤ id then s.graph.watchPair id (l.literal, other) else s.graph
  { s with rules, graph, trail := (s.trail.assign l.literal (some (.rule id))).1 }

/-- Learns from a false clause; none if it is false at level zero already. -/
def resolve (s : State) (conflict : Clause) : Option State :=
  let level := highestLevel s.trail conflict
  if level = 0 then none
  else
    let s := if level < s.trail.level then backTo s level else s
    (analyze s.rules s.trail conflict).map (learn s)

/-- Decides the next variable at a level of its own, or takes the model. -/
def advance (p : Problem) (s : State) : State :=
  match nextDecision s with
  | some l => { s with trail := ((s.trail.atLevel (s.trail.level + 1)).assign l none).1 }
  | none => { s with best? := some (s.trail.model p.variableCount) }

/-- One step: the next state, or the end. -/
def step (p : Problem) (deadline : Deadline) (s : State) : Except Result State :=
  let s := { s with steps := s.steps + 1 }
  if s.steps % deadlineInterval = 1 && deadline s.steps then .error .interrupted
  else
    let (s, conflict?) := p.propagate s
    match conflict?.or (p.boundConflict s) with
    | none => .ok (p.advance s)
    | some conflict =>
      match resolve s conflict with
      | some s => .ok s
      | none => .error (s.best?.elim .infeasible .best)

/-- Steps until the end. -/
def run (p : Problem) (deadline : Deadline) : Nat → State → Result
  | 0, _ => .interrupted
  | fuel + 1, s =>
    match p.step deadline s with
    | .ok s => p.run deadline fuel s
    | .error result => result

/-- More steps than a search can take.  The numbers of assignments at the levels
form a list of at most `variableCount + 1` numbers that grows lexicographically with
every step but those that take a model, and no two of these follow each other. -/
def stepLimit (p : Problem) : Nat := 2 * Nat.pow (p.variableCount + 2) (p.variableCount + 2)

/-- The best model of a problem. -/
def optimize (p : Problem) (deadline : Deadline) : Result :=
  match p.start with
  | none => .infeasible
  | some s => p.run deadline p.stepLimit s

end Problem
end Search
end Loadout
