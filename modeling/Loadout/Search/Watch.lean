/-
# Unit propagation with two watched literals

An ordinary rule of at least two literals watches two of them, and is looked at
only when one of the two becomes false: then it either watches another literal in
its place, or forces the other watched literal.  An at-most-one rule watches all
of its literals, as each of them that becomes false forces the others.

Going back on the trail needs no repair: a watched literal that was false is open
again, or was false at a lower level already.
-/

import Loadout.Search.Trail

namespace Loadout
namespace Search

variable {word : Nat}

/-- Which rules look at which literals. -/
structure WatchGraph where
  /-- the numbers of the watching rules, by `slot` -/
  watchers : Array (List Nat)
  /-- the two literals that an ordinary rule watches, by its number -/
  pairs : Array (Option (Lit × Lit))
  deriving Repr

namespace WatchGraph

/-- The place of a literal in `watchers`. -/
def slot (l : Lit) : Nat := 2 * l.atom + (if l.positive then 0 else 1)

/-- The graph over some variables without rules. -/
def empty (variableCount : Nat) : WatchGraph := ⟨Array.replicate (2 * (variableCount + 1)) [], #[]⟩

/-- The rules that watch a literal. -/
def watching (g : WatchGraph) (l : Lit) : List Nat := (g.watchers[slot l]?).getD []

/-- The watched pair of a rule. -/
def pair? (g : WatchGraph) (id : Nat) : Option (Lit × Lit) := (g.pairs[id]?).join

/-- The graph with one more rule at a literal. -/
def watch (g : WatchGraph) (l : Lit) (id : Nat) : WatchGraph :=
  { g with watchers := g.watchers.modify (slot l) (· ++ [id]) }

/-- The graph with the watched pair of a rule put down. -/
def setPair (g : WatchGraph) (id : Nat) (pair : Lit × Lit) : WatchGraph :=
  let filled := g.pairs ++ Array.replicate (id + 1 - g.pairs.size) none
  { g with pairs := filled.setIfInBounds id (some pair) }

/-- The graph with an ordinary rule that watches two literals. -/
def watchPair (g : WatchGraph) (id : Nat) (pair : Lit × Lit) : WatchGraph :=
  ((g.setPair id pair).watch pair.1 id).watch pair.2 id

/-- The graph with one more rule.  Rules with fewer than two literals are not watched. -/
def addRule (g : WatchGraph) (id : Nat) (r : Rule Nat) : WatchGraph :=
  match r.literals with
  | first :: second :: _ =>
    if r.isAtMostOne then r.literals.foldl (fun g l => g.watch l id) g
    else g.watchPair id (first, second)
  | _ => g

/-- The graph of a rule set. -/
def ofRules (rules : RuleSet Nat) (variableCount : Nat) : WatchGraph :=
  (rules.toList.zipIdx).foldl (fun g (r, id) => g.addRule id r) (empty variableCount)

end WatchGraph

/-- What a look at one rule comes to. -/
inductive Look (word : Nat) where
  /-- the rule keeps its watches -/
  | keep (trail : Trail word)
  /-- the rule watches `replacement` beside `other` from now on -/
  | move (other replacement : Lit)
  /-- the clause, which follows from the rule, is false -/
  | conflict (trail : Trail word) (clause : Clause)

/-- Forces the literals of an at-most-one rule beside one that is false. -/
def excludeOthers (cause : Lit) : List Lit → Trail word → Trail word × Option Clause
  | [], t => (t, none)
  | l :: rest, t =>
    if l = cause then excludeOthers cause rest t
    else
      match t.assign l (some (.excludedBy cause)) with
      | (t, true) => excludeOthers cause rest t
      | (t, false) => (t, some [cause, l])

/-- Looks at an ordinary rule that watches a literal that has become false. -/
def lookAtPair (id : Nat) (r : Rule Nat) (falsified : Lit) (pair : Lit × Lit) (t : Trail word) :
    Look word :=
  let other := if pair.1 = falsified then pair.2 else pair.1
  if t.isTrue other then .keep t
  else
    match r.literals.find? fun l => l ≠ pair.1 && l ≠ pair.2 && !t.isFalse l with
    | some replacement => .move other replacement
    | none =>
      match t.assign other (some (.rule id)) with
      | (t, true) => .keep t
      | (t, false) => .conflict t r.literals

/-- Looks at a rule that watches a literal that has become false. -/
def lookAt (id : Nat) (r : Rule Nat) (falsified : Lit) (pair? : Option (Lit × Lit))
    (t : Trail word) : Look word :=
  if r.isAtMostOne then
    match excludeOthers falsified r.literals t with
    | (t, none) => .keep t
    | (t, some clause) => .conflict t clause
  else
    match pair? with
    | some pair => lookAtPair id r falsified pair t
    | none => .keep t

/-- What a round over watching rules comes to. -/
structure Sweep (word : Nat) where
  graph : WatchGraph
  trail : Trail word
  /-- the rules that go on watching the literal, in their order -/
  kept : List Nat
  conflict? : Option Clause

/-- Looks at rules in turn, up to the first conflict. -/
def sweep (rules : RuleSet Nat) (falsified : Lit) : List Nat → WatchGraph → Trail word → Sweep word
  | [], g, t => ⟨g, t, [], none⟩
  | id :: rest, g, t =>
    match rules.get? id with
    | none => sweep rules falsified rest g t
    | some r =>
      match lookAt id r falsified (g.pair? id) t with
      | .keep t =>
        let s := sweep rules falsified rest g t
        { s with kept := id :: s.kept }
      | .move other replacement =>
        sweep rules falsified rest ((g.setPair id (other, replacement)).watch replacement id) t
      | .conflict t clause => ⟨g, t, id :: rest, some clause⟩

/-- Propagates that a literal has become false. -/
def propagateFalse (rules : RuleSet Nat) (g : WatchGraph) (t : Trail word) (falsified : Lit) :
    WatchGraph × Trail word × Option Clause :=
  let place := WatchGraph.slot falsified
  let bare : WatchGraph := { g with watchers := g.watchers.setIfInBounds place [] }
  let s := sweep rules falsified (g.watching falsified) bare t
  ({ s.graph with watchers := s.graph.watchers.modify place (· ++ s.kept) }, s.trail, s.conflict?)

/-- Propagates the assignments from a position of the trail on, oldest first, up to
the first conflict.  The result has the position up to which this came.  No more
assignments are made than there are variables, which bounds the fuel. -/
def propagateFrom (rules : RuleSet Nat) :
    Nat → WatchGraph → Trail word → Nat → WatchGraph × Trail word × Nat × Option Clause
  | 0, g, t, done => (g, t, done, none)
  | fuel + 1, g, t, done =>
    match t.at? done with
    | none => (g, t, done, none)
    | some e =>
      match propagateFalse rules g t e.literal.flip with
      | (g, t, some clause) => (g, t, done + 1, some clause)
      | (g, t, none) => propagateFrom rules fuel g t (done + 1)

end Search
end Loadout
