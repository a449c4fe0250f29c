/-
# What a mod says about itself

A *descriptor* names a mod and its version, the further identifiers it provides,
its dependencies on other identifiers and the archives nested inside its own.
`Loadout.Descriptor.Reader` reads descriptors from JSON text; everything else in
this library sees only the type below.
-/

import Loadout.Version.Predicate

namespace Loadout

/-- How a mod relates to an identifier that it names. -/
inductive Relation where
  /-- a matching mod has to be there -/
  | depends
  /-- a matching mod should be there -/
  | recommends
  /-- for information alone -/
  | suggests
  /-- a matching mod should not be there -/
  | conflicts
  /-- a matching mod must not be there -/
  | breaks
  deriving DecidableEq, Repr

namespace Relation

/-- The verb of a relation in messages. -/
def verb : Relation → String
  | depends => "requires"
  | recommends => "recommends"
  | suggests => "suggests"
  | conflicts => "conflicts with"
  | breaks => "is incompatible with"

/-- Whether the relation asks for its target to be there. -/
def isPositive : Relation → Bool
  | depends | recommends | suggests => true
  | conflicts | breaks => false

/-- Whether a set of mods that violates the relation is unusable. -/
def isHard : Relation → Bool
  | depends | breaks => true
  | recommends | suggests | conflicts => false

end Relation

/-- One declared dependency. -/
structure Dependency where
  relation : Relation
  /-- the identifier that it is about -/
  target : String
  predicate : Predicate
  deriving DecidableEq, Repr

namespace Dependency

/-- Whether the predicate admits a version of the target. -/
def admits (d : Dependency) (v : Version) : Bool := d.predicate.admits v

/-- The dependency in one line. -/
protected def toString (d : Dependency) : String :=
  d.relation.verb ++ " " ++ d.target ++ " " ++ d.predicate.toString

instance : ToString Dependency := ⟨Dependency.toString⟩

end Dependency

/-- When a mod is loaded. -/
inductive LoadCondition where
  /-- it has to be -/
  | always
  /-- unless something prevents it -/
  | ifPossible
  /-- when another selected mod asks for it -/
  | ifRecommended
  deriving DecidableEq, Repr

namespace LoadCondition

/-- The name of a load condition in descriptors. -/
def name : LoadCondition → String
  | always => "always"
  | ifPossible => "if_possible"
  | ifRecommended => "if_recommended"

/-- The load condition of a name. -/
def ofName? (s : String) : Option LoadCondition :=
  [always, ifPossible, ifRecommended].find? fun c => c.name == s

/-- Every condition is read from its name. -/
theorem ofName?_name (c : LoadCondition) : ofName? c.name = some c := by cases c <;> decide

end LoadCondition

/-- What a mod says about itself. -/
structure Descriptor where
  id : String
  version : Version
  /-- further identifiers that the mod stands in for -/
  provides : List String := []
  /-- in the order of declaration -/
  dependencies : List Dependency := []
  /-- paths of archives inside the mod's own -/
  nested : List String := []
  /-- none where the condition is left to follow from the nesting -/
  load? : Option LoadCondition := none
  /-- the layout that the descriptor was written in -/
  schema : Nat := 1
  deriving DecidableEq, Repr

namespace Descriptor

/-- The dependencies of one relation. -/
def dependenciesOf (d : Descriptor) (relation : Relation) : List Dependency :=
  d.dependencies.filter fun e => e.relation = relation

end Descriptor
end Loadout
