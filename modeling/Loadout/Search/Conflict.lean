/-
# Learning from conflicts

A clause that is false under the trail shows that the trail cannot be completed.
Walking back over the assignments of the highest level in it, and replacing each
forced literal by the rest of the clause that forced it, ends in a clause with one
literal of that level alone: the first unique implication point.  This *learned*
clause follows from the rules.  The search goes back to the second highest level in
it and assigns that one literal there.
-/

import Loadout.Search.Watch

namespace Loadout
namespace Search

variable {word : Nat}

/-- What a walk back over the trail has gathered. -/
structure Walk where
  /-- the variables that were met -/
  seen : List Nat
  /-- how many of them belong to the highest level and are still ahead -/
  pending : Nat
  /-- the literals of lower levels, in the order in which they were met -/
  lower : List Lit
  deriving DecidableEq, Repr

namespace Walk

/-- Nothing gathered. -/
def start : Walk := ⟨[], 0, []⟩

/-- Takes in one literal.  Literals of level zero are false for good and are left out. -/
def meet (t : Trail word) (level : Nat) (w : Walk) (l : Lit) : Walk :=
  let own := t.levelOf l.atom
  if w.seen.contains l.atom || own = 0 then w
  else if own = level then { w with seen := l.atom :: w.seen, pending := w.pending + 1 }
  else { w with seen := l.atom :: w.seen, lower := w.lower ++ [l] }

/-- Takes in the literals of a clause. -/
def meetAll (t : Trail word) (level : Nat) (w : Walk) (clause : Clause) : Walk :=
  clause.foldl (meet t level) w

end Walk

/-- The clause behind an assignment: all of its literals but the assigned one are false. -/
def reasonClause (rules : RuleSet Nat) : Option Reason → Clause
  | some (.rule id) => ((rules.get? id).map (·.literals)).getD []
  | some (.excludedBy cause) => [cause]
  | none => []

/-- Walks back over assignments, newest first, to the unique implication point. -/
def walkBack (rules : RuleSet Nat) (t : Trail word) (level : Nat) :
    List Assignment → Walk → Option (Lit × List Lit)
  | [], _ => none
  | e :: older, w =>
    if w.seen.contains e.variableOf then
      if w.pending ≤ 1 then some (e.literal.flip, w.lower)
      else
        walkBack rules t level older
          ({ w with pending := w.pending - 1 }.meetAll t level (reasonClause rules e.reason?))
    else walkBack rules t level older w

/-- The position of the last of the greatest numbers in a list. -/
def lastMaxPosition : List Nat → Nat
  | [] => 0
  | [_] => 0
  | n :: rest =>
    let i := lastMaxPosition rest
    if n ≤ rest.getD i 0 then i + 1 else 0

/-- The list with its first entry and the one at a position exchanged. -/
def swapFirst (l : List Lit) (i : Nat) : List Lit :=
  match l, l[i]? with
  | first :: _, some x => (l.set i first).set 0 x
  | l, _ => l

/-- A learned clause: the literal to assign first, and at the second place one of
the level to go back to. -/
structure Learned where
  literal : Lit
  others : List Lit
  level : Nat
  deriving DecidableEq, Repr

/-- Learns from a false clause in which the level of the trail occurs. -/
def analyze (rules : RuleSet Nat) (t : Trail word) (conflict : Clause) : Option Learned :=
  (walkBack rules t t.level t.entries (Walk.start.meetAll t t.level conflict)).map
    fun (literal, lower) =>
      let others := swapFirst lower (lastMaxPosition (lower.map fun l => t.levelOf l.atom))
      ⟨literal, others, (others.head?.map fun l => t.levelOf l.atom).getD 0⟩

/-- The highest level in a clause. -/
def highestLevel (t : Trail word) (clause : Clause) : Nat :=
  clause.foldl (fun n l => max n (t.levelOf l.atom)) 0

end Search
end Loadout
