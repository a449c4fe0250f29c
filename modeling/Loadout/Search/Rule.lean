/-
# Rules

A rule is a list of literals over atoms of some type.  An ordinary rule asks that
one of its literals is true.  A rule of the kind `sameIdentifier` holds negative
literals and asks that all of them are true but one at most: it selects at most
one of its atoms.

A rule set numbers its rules in the order in which they come in and takes no rule
that it has under another order of literals.
-/

namespace Loadout

/-- An atom or its negation. -/
structure Literal (α : Type) where
  atom : α
  positive : Bool
  deriving DecidableEq, Repr

namespace Literal

variable {α β : Type}

/-- The literal that is true when the atom is. -/
def pos (a : α) : Literal α := ⟨a, true⟩

/-- The literal that is true when the atom is not. -/
def neg (a : α) : Literal α := ⟨a, false⟩

/-- The opposite literal. -/
def flip (l : Literal α) : Literal α := ⟨l.atom, !l.positive⟩

/-- The same literal over other atoms. -/
def map (f : α → β) (l : Literal α) : Literal β := ⟨f l.atom, l.positive⟩

/-- Whether a valuation makes a literal true. -/
def holds (valuation : α → Bool) (l : Literal α) : Bool := valuation l.atom == l.positive

/-- The opposite of the opposite is the literal itself. -/
@[simp] theorem flip_flip (l : Literal α) : l.flip.flip = l := by simp [flip]

/-- A literal and its opposite never hold together, and one of them always does. -/
@[simp] theorem holds_flip (valuation : α → Bool) (l : Literal α) :
    l.flip.holds valuation = !l.holds valuation := by
  cases l with
  | mk a p => cases h : valuation a <;> cases p <;> simp [flip, holds, h]

end Literal

/-- Why a rule exists. -/
inductive RuleKind where
  /-- a selected candidate needs one of the candidates that meet its dependency -/
  | depends
  /-- a selected candidate would like one, or gives notice that there is none -/
  | recommends
  /-- a selected candidate rules another one out -/
  | breaks
  /-- an identifier has one provider at most -/
  | sameIdentifier
  /-- a root that must be loaded -/
  | mandatory
  /-- a nested candidate that must be loaded with the one around it -/
  | nestedAlways
  /-- a nested candidate needs one of those around it -/
  | containment
  /-- a candidate that was asked for -/
  | preselected
  /-- a candidate that was removed is not selected -/
  | removal
  /-- follows from other rules and was found during search -/
  | learned
  deriving DecidableEq, Repr

/-- A condition on valuations. -/
structure Rule (α : Type) where
  literals : List (Literal α)
  kind : RuleKind
  deriving DecidableEq, Repr

namespace Rule

variable {α β : Type} [DecidableEq α]

/-- The rule of a list of literals, each of which counts once. -/
def of (literals : List (Literal α)) (kind : RuleKind) : Rule α := ⟨literals.eraseDups, kind⟩

/-- The rule that a literal is true. -/
def assertion (l : Literal α) (kind : RuleKind) : Rule α := of [l] kind

/-- The rule that a literal is true only with one of others. -/
def implication (source : Literal α) (targets : List (Literal α)) (kind : RuleKind) : Rule α :=
  of (source.flip :: targets) kind

/-- The rule that at most one of some literals is true. -/
def atMostOne (literals : List (Literal α)) : Rule α :=
  of (literals.map Literal.flip) .sameIdentifier

/-- Whether a rule asks for at most one atom. -/
def isAtMostOne (r : Rule α) : Bool := r.kind = .sameIdentifier

/-- Whether a rule decides an atom by itself. -/
def isAssertion (r : Rule α) : Bool := r.literals.length == 1

/-- Whether a valuation meets a rule. -/
def holds (valuation : α → Bool) (r : Rule α) : Bool :=
  if r.isAtMostOne then (r.literals.filter fun l => !l.holds valuation).length ≤ 1
  else r.literals.any (·.holds valuation)

/-- Whether two rules are of one sort and have the same literals. -/
def sameAs (a b : Rule α) : Bool :=
  a.isAtMostOne == b.isAtMostOne && a.literals.length == b.literals.length &&
    a.literals.all b.literals.contains

/-- The same rule over other atoms. -/
def map (f : α → β) (r : Rule α) : Rule β := ⟨r.literals.map (Literal.map f), r.kind⟩

end Rule

/-- Rules with numbers from zero on. -/
structure RuleSet (α : Type) where
  rules : Array (Rule α) := #[]
  deriving Repr

namespace RuleSet

variable {α β : Type} [DecidableEq α]

/-- The set without rules. -/
def empty : RuleSet α := {}

/-- The number of rules. -/
def size (s : RuleSet α) : Nat := s.rules.size

/-- The rule of a number. -/
def get? (s : RuleSet α) (id : Nat) : Option (Rule α) := s.rules[id]?

/-- The rules in the order of their numbers. -/
def toList (s : RuleSet α) : List (Rule α) := s.rules.toList

/-- The number of a rule with the same literals. -/
def find? (s : RuleSet α) (r : Rule α) : Option Nat := s.rules.findIdx? r.sameAs

/-- Adds a rule unless it is there, with its number. -/
def add (s : RuleSet α) (r : Rule α) : RuleSet α × Nat :=
  match s.find? r with
  | some id => (s, id)
  | none => (⟨s.rules.push r⟩, s.size)

/-- The set of a list of rules. -/
def ofList (rules : List (Rule α)) : RuleSet α := rules.foldl (fun s r => (s.add r).1) empty

/-- The number of rules of a kind. -/
def count (s : RuleSet α) (kind : RuleKind) : Nat := (s.toList.filter (·.kind = kind)).length

/-- The same rules over other atoms. -/
def map (f : α → β) (s : RuleSet α) : RuleSet β := ⟨s.rules.map (Rule.map f)⟩

/-- Whether a valuation meets all rules. -/
def holds (valuation : α → Bool) (s : RuleSet α) : Bool := s.toList.all (·.holds valuation)

end RuleSet
end Loadout
