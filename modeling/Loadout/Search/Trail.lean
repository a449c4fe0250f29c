/-
# The trail

The trail holds the literals that a search has assigned, the newest first, each
with the level at which it was assigned and what forced it.  A literal without a
reason is a free decision.  Going back to a level takes away the assignments above
it and leaves the rest as it is.

Variables are numbers from one on.  What is known of a variable is its *mark*: one more
than its level, negative if it is false, and zero if it has no value.  Marks are numbers
in a word of so many values, half of them negative, and greater levels wrap around.  A
search has words without bounds.
-/

import Loadout.Search.Rule

namespace Loadout
namespace Search

/-- A variable or its negation. -/
abbrev Lit := Literal Nat

/-- A condition on variables that one literal is true. -/
abbrev Clause := List Lit

/-- What forced a literal. -/
inductive Reason where
  /-- the other literals of that rule are false -/
  | rule (id : Nat)
  /-- the literal, which is false, stands in an at-most-one rule with it -/
  | excludedBy (cause : Lit)
  deriving DecidableEq, Repr

/-- One assigned literal. -/
structure Assignment where
  literal : Lit
  /-- the level of the trail when it was assigned -/
  level : Nat
  reason? : Option Reason
  deriving DecidableEq, Repr

namespace Assignment

/-- The variable that was assigned. -/
def variableOf (a : Assignment) : Nat := a.literal.atom

/-- The mark of the variable in a word of so many values; zero stands for no bound. -/
def mark (a : Assignment) (word : Nat) : Int :=
  (if a.literal.positive then (a.level : Int) + 1 else -((a.level : Int) + 1)).bmod word

/-- The value of the variable.  A mark that has wrapped around to zero is none. -/
def value? (a : Assignment) (word : Nat) : Option Bool :=
  if a.mark word = 0 then none else some (0 < a.mark word)

/-- The level that the mark tells, zero if there is no value. -/
def levelIn (a : Assignment) (word : Nat) : Nat := (a.mark word).natAbs - 1

/-- The level to which the assignment is compared when the trail goes back: that of the
mark, and the greatest in the word if there is no value. -/
def depthIn (a : Assignment) (word : Nat) : Nat := ((a.mark word).natAbs + word - 1) % word

/-- Without bounds a mark is one more than the level, with the sign of the literal. -/
theorem mark_unbounded (a : Assignment) :
    a.mark 0 = if a.literal.positive then (a.level : Int) + 1 else -((a.level : Int) + 1) := by
  simp [mark, Int.bmod]

/-- Without bounds every assignment has a value. -/
@[simp] theorem value?_unbounded (a : Assignment) : a.value? 0 = some a.literal.positive := by
  rw [value?, mark_unbounded]
  cases a.literal.positive <;> simp <;> omega

/-- Without bounds a mark tells the level. -/
@[simp] theorem levelIn_unbounded (a : Assignment) : a.levelIn 0 = a.level := by
  rw [levelIn, mark_unbounded]
  split <;> omega

/-- Without bounds going back looks at the level itself. -/
@[simp] theorem depthIn_unbounded (a : Assignment) : a.depthIn 0 = a.level := by
  rw [depthIn, mark_unbounded, Nat.mod_zero]
  split <;> omega

end Assignment

/-- All assigned literals, with marks in a word of so many values. -/
structure Trail (word : Nat) where
  /-- the newest first -/
  entries : List Assignment := []
  /-- the level of the next assignment -/
  level : Nat := 0
  deriving DecidableEq, Repr

namespace Trail

/-- The word without bounds. -/
abbrev unbounded : Nat := 0

/-- The word of 32 bits. -/
abbrev word32 : Nat := 4294967296

variable {word : Nat}

/-- The trail without assignments. -/
def empty : Trail word := {}

/-- The number of assignments. -/
def size (t : Trail word) : Nat := t.entries.length

/-- The newest assignment of a variable. -/
def find? (t : Trail word) (v : Nat) : Option Assignment :=
  t.entries.find? fun e => e.variableOf = v

/-- The assignment at a position, counted from the oldest. -/
def at? (t : Trail word) (i : Nat) : Option Assignment :=
  if i < t.size then t.entries[t.size - 1 - i]? else none

/-- The value of a literal, if it has one. -/
def value? (t : Trail word) (l : Lit) : Option Bool :=
  ((t.find? l.atom).bind (·.value? word)).map (· == l.positive)

/-- Whether a literal is true. -/
def isTrue (t : Trail word) (l : Lit) : Bool := t.value? l == some true

/-- Whether a literal is false. -/
def isFalse (t : Trail word) (l : Lit) : Bool := t.value? l == some false

/-- Whether a variable has no value. -/
def isOpen (t : Trail word) (v : Nat) : Bool := ((t.find? v).bind (·.value? word)).isNone

/-- The level at which a variable was assigned, zero if it was not. -/
def levelOf (t : Trail word) (v : Nat) : Nat := ((t.find? v).map (·.levelIn word)).getD 0

/-- What forced a variable. -/
def reasonOf? (t : Trail word) (v : Nat) : Option Reason := (t.find? v).bind (·.reason?)

/-- The assignments, without reasons at a variable that is about to be assigned once
more.  Only a variable whose mark has wrapped around to zero can be. -/
def forgetReason (t : Trail word) (v : Nat) : List Assignment :=
  if (t.find? v).isNone then t.entries
  else t.entries.map fun e => if e.variableOf = v then { e with reason? := none } else e

/-- Assigns a literal at the present level, and tells whether it is true now.  A
variable that has a value keeps it. -/
def assign (t : Trail word) (l : Lit) (reason? : Option Reason) : Trail word × Bool :=
  match t.value? l with
  | some b => (t, b)
  | none => ({ t with entries := ⟨l, t.level, reason?⟩ :: t.forgetReason l.atom }, true)

/-- The trail at another level, with the same assignments. -/
def atLevel (t : Trail word) (level : Nat) : Trail word := { t with level }

/-- Takes away what was assigned above a level. -/
def backTo (t : Trail word) (level : Nat) : Trail word :=
  { entries := t.entries.dropWhile fun e => level < e.depthIn word, level }

/-- Which of the variables up to `n` are true, each at its own position. -/
def model (t : Trail word) (n : Nat) : Array Bool :=
  Array.ofFn fun v : Fin (n + 1) => t.isTrue (.pos v)

end Trail
end Search
end Loadout
