/-
# Ranks of identifiers

Identifiers that some candidates provide together are *kin*, and so are the kin of
kin.  Kin stand next to each other in the ranking: a family takes the place of the
least identifier in it, and inside a family the identifier comes first whose
versions win most comparisons with the candidates that could replace them.
-/

import Loadout.Store.Basic

namespace Loadout

/-- Pairs of identifiers that one candidate provides: its own and each alias. -/
def Store.kinPairs (s : Store) : List (String × String) :=
  s.records.flatMap fun c => c.aliases.map fun a => (c.identifier, a)

namespace Priority

/-- Names with the name that each was put under.  Of several entries the latest counts, which
stands first; a name without an entry stands for itself. -/
abbrev Families := List (String × String)

/-- Goes from a name to what it was put under, as long as that is another one.  Every step
leads to a lesser name, so `fuel` need not exceed the number of entries. -/
def climb (families : Families) : Nat → String → String
  | 0, name => name
  | fuel + 1, name =>
    match families.lookup name with
    | none => name
    | some above => if above = name then name else climb families fuel above

/-- The name that stands for a family. -/
def representative (families : Families) (name : String) : String :=
  climb families families.length name

/-- Joins the families of two names under the lesser representative.  A name that was asked
for is put directly under its representative on the way. -/
def joinFamilies (families : Families) (pair : String × String) : Families :=
  let first := representative families pair.1
  let families := (pair.1, first) :: families
  let second := representative families pair.2
  let families := (pair.2, second) :: families
  if first = second then families
  else if first < second then (second, first) :: families
  else (first, second) :: families

/-- The families of a store. -/
def families (s : Store) : Families := s.kinPairs.foldl joinFamilies []

/-- Whether two names belong to one family. -/
def areKin (families : Families) (a b : String) : Bool :=
  representative families a == representative families b

/-- The identifiers of the candidates, ascending, each once. -/
def identifiers (s : Store) : List String :=
  s.records.foldl (fun l c => Group.insertKey c.identifier l) []

/-- The least identifier of the family. -/
def familyHead (families : Families) (identifiers : List String) (id : String) : String :=
  (identifiers.find? (areKin families id)).getD id

/-- One for a later version, minus one for an earlier one. -/
def comparisonScore (a b : Version) : Int :=
  match a.compare b with
  | .gt => 1
  | .lt => -1
  | .eq => 0

/-- The sum of scores. -/
def total (scores : List Int) : Int := scores.foldr (· + ·) 0

/-- What an identifier scores in one group: each of its members is compared with
each member of another identifier. -/
def groupScore (members : List Candidate) (id : String) : Int :=
  let mine := members.filter fun c => c.identifier == id
  let others := members.filter fun c => c.identifier != id
  total (mine.flatMap fun a => others.map fun b => comparisonScore a.version b.version)

/-- What an identifier scores over all groups. -/
def score (s : Store) (id : String) : Int :=
  total (s.groups.map fun g => groupScore (s.getAll g.members) id)

/-- What an identifier is ranked by. -/
structure Standing where
  /-- the least identifier of the family -/
  head : String
  score : Int
  identifier : String
  deriving DecidableEq, Repr

namespace Standing

/-- By family, then by score from the highest, then by identifier. -/
protected def compare (a b : Standing) : Ordering :=
  (compare a.head b.head).then ((compare b.score a.score).then (compare a.identifier b.identifier))

end Standing

/-- The standings of all identifiers of candidates. -/
def standings (s : Store) : List Standing :=
  let ids := identifiers s
  let fs := families s
  ids.map fun id => ⟨familyHead fs ids id, score s id, id⟩

/-- The identifiers of the candidates from the first rank to the last. -/
def ranking (s : Store) : List String :=
  ((standings s).mergeSort fun a b => (a.compare b).isLE).map (·.identifier)

end Priority
end Loadout
