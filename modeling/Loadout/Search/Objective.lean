/-
# Objectives

An objective is a list of tiers, each a list of literals with weights.  A model
scores the sum of the weights of its true literals, tier by tier, and scores are
compared lexicographically: what an earlier tier gains outweighs all of the later
ones.
-/

import Loadout.Search.Trail

namespace Loadout

/-- Weighted literals over atoms, the most important tier first. -/
structure Objective (α : Type) where
  tiers : List (List (Literal α × Nat)) := []
  deriving DecidableEq, Repr

namespace Objective

variable {α β : Type}

/-- The objective under which all models are equal. -/
def empty : Objective α := {}

/-- The objective with one more tier at the end; a tier without literals is left out. -/
def push (o : Objective α) (tier : List (Literal α × Nat)) : Objective α :=
  if tier.isEmpty then o else ⟨o.tiers ++ [tier]⟩

/-- The objective of a list of tiers. -/
def ofTiers (tiers : List (List (Literal α × Nat))) : Objective α :=
  ⟨tiers.filter fun t => !t.isEmpty⟩

/-- The same objective over other atoms. -/
def map (f : α → β) (o : Objective α) : Objective β :=
  ⟨o.tiers.map fun t => t.map fun (l, w) => (l.map f, w)⟩

/-- The weight of the literals of a tier that meet a condition.  Weights are words of 64
bits, and their sum wraps around. -/
def weigh (tier : List (Literal α × Nat)) (counts : Literal α → Bool) : Nat :=
  (tier.filter fun (l, _) => counts l).foldr (fun (_, w) n => w + n) 0 % UInt64.size

/-- The score of a valuation, tier by tier. -/
def score (o : Objective α) (valuation : α → Bool) : List Nat :=
  o.tiers.map fun t => weigh t (·.holds valuation)

/-- The best score that the assignments on a trail leave open. -/
def bound (o : Objective Nat) {word : Nat} (t : Search.Trail word) : List Nat :=
  o.tiers.map fun tier => weigh tier fun l => !t.isFalse l

/-- Lexicographic order of scores. -/
def compareScores : List Nat → List Nat → Ordering
  | [], [] => .eq
  | [], _ :: _ => .lt
  | _ :: _, [] => .gt
  | a :: as, b :: bs => (compare a b).then (compareScores as bs)

/-- The literals of all tiers, in order. -/
def literals (o : Objective α) : List (Literal α) := o.tiers.flatten.map (·.1)

/-- The first literal of every variable, then the negation of those without one:
the order in which a search decides `n` variables. -/
def decisionOrder (o : Objective Nat) (n : Nat) : List Search.Lit :=
  let wanted := o.literals.foldl
    (fun l x => if l.any (·.atom = x.atom) then l else l ++ [x]) ([] : List Search.Lit)
  wanted ++ ((List.range' 1 n).filter fun v => !wanted.any (·.atom = v)).map Literal.neg

end Objective
end Loadout
