/-
# Candidates

A candidate is one version of a mod together with where it was found.  Candidates
contain each other, as archives do; the containment is kept as lists of candidate
numbers on both sides.  A candidate that nothing contains is a *root*.
-/

import Loadout.Content.Store
import Loadout.Descriptor.Basic

namespace Loadout

/-- The number of a candidate in its store. -/
abbrev CandidateId := Nat

/-- Where the content of a candidate lies. -/
inductive Location where
  /-- an archive on disk -/
  | file (path : String)
  /-- an unpacked mod on disk -/
  | directory (path : String)
  /-- an archive found inside another one: its name in the archive store, its path
  in the archive around it, and the hash of its bytes -/
  | stored (name entry : String) (hash : ContentHash)
  /-- a mod without content -/
  | builtin (id : String)
  deriving DecidableEq, Repr

namespace Location

/-- One text for one place. -/
def key : Location → String
  | file path => "file:" ++ path
  | directory path => "file:" ++ path
  | stored name _ _ => "mem:" ++ name
  | builtin id => "builtin:" ++ id

/-- The path of a place on disk. -/
def path? : Location → Option String
  | file path => some path
  | directory path => some path
  | stored _ _ _ => none
  | builtin _ => none

/-- The place in messages. -/
protected def toString : Location → String
  | file path => path
  | directory path => path
  | stored _ entry _ => "nested " ++ entry
  | builtin id => "builtin " ++ id

instance : ToString Location := ⟨Location.toString⟩

/-- The hash of a stored archive. -/
def hash? : Location → Option ContentHash
  | stored _ _ hash => some hash
  | _ => none

/-- Whether the mod has no content. -/
def isBuiltin : Location → Bool
  | builtin _ => true
  | _ => false

end Location

/-- A mod in words: its identifier in quotes and its version. -/
def modLabel (identifier : String) (version : Version) : String :=
  "'" ++ identifier ++ "' " ++ version.toString

/-- One version of a mod and where it was found. -/
structure Candidate where
  id : CandidateId
  descriptor : Descriptor
  location : Location
  /-- the candidates around this one -/
  parents : List CandidateId := []
  /-- the candidates inside this one -/
  children : List CandidateId := []
  /-- distance from the roots as it was last settled -/
  depth : Nat
  /-- whether the content needs remapping before use -/
  remap : Bool
  deriving DecidableEq, Repr

namespace Candidate

/-- The identifier of the mod. -/
def identifier (c : Candidate) : String := c.descriptor.id

/-- The version of the mod. -/
def version (c : Candidate) : Version := c.descriptor.version

/-- The further identifiers that it provides. -/
def aliases (c : Candidate) : List String := c.descriptor.provides

/-- All that it provides: its identifier, then its aliases. -/
def keys (c : Candidate) : List String := c.identifier :: c.aliases

/-- Whether it provides an identifier. -/
def provides (c : Candidate) (key : String) : Bool := c.keys.contains key

/-- Whether nothing contains it. -/
def isRoot (c : Candidate) : Bool := c.parents.isEmpty

/-- Whether it has no content. -/
def isBuiltin (c : Candidate) : Bool := c.location.isBuiltin

/-- When it is loaded: as declared, else always for a root and if possible for the rest. -/
def load (c : Candidate) : LoadCondition :=
  c.descriptor.load?.getD (if c.isRoot then .always else .ifPossible)

/-- The mod in words. -/
def label (c : Candidate) : String := modLabel c.identifier c.version

/-- Whether two candidates provide an identifier in common. -/
def overlaps (a b : Candidate) : Bool := a.keys.any b.provides

/-- Whether two candidates are one mod in one version. -/
def isCopyOf (a b : Candidate) : Bool := a.identifier == b.identifier && a.version.sameAs b.version

end Candidate

/-- A candidate by identity, apart from any store. -/
structure ModRef where
  id : CandidateId
  identifier : String
  version : Version
  deriving DecidableEq, Repr

namespace ModRef

/-- The identity of a candidate. -/
def ofCandidate (c : Candidate) : ModRef := ⟨c.id, c.identifier, c.version⟩

/-- The mod in words. -/
def label (m : ModRef) : String := modLabel m.identifier m.version

end ModRef
end Loadout
