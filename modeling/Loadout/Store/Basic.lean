/-
# The store of candidates

The store holds the candidates under ascending numbers, and an index: for every
identifier that some candidate provides, the *group* of the candidates that do.
Groups stand in ascending order of their identifiers and are never empty.

This module has the two tables and the edges between candidates.  How a candidate
comes in is the matter of `Loadout.Store.Insert`.
-/

import Loadout.Candidate

namespace Loadout

/-- The candidates that provide one identifier. -/
structure Group where
  identifier : String
  /-- in the order in which they came in -/
  members : List CandidateId := []
  /-- the other identifiers that members provide, ascending -/
  aliases : List String := []
  deriving DecidableEq, Repr

namespace Group

/-- `key` put into its place in an ascending list, unless it is there. -/
def insertKey (key : String) : List String → List String
  | [] => [key]
  | k :: rest =>
    match compare key k with
    | .lt => key :: k :: rest
    | .eq => k :: rest
    | .gt => k :: insertKey key rest

/-- The group with all keys but its own identifier among its aliases. -/
def addAliases (g : Group) (keys : List String) : Group :=
  { g with aliases := (keys.filter (· ≠ g.identifier)).foldl (fun l k => insertKey k l) g.aliases }

/-- The group with one more member. -/
def addMember (g : Group) (id : CandidateId) : Group := { g with members := g.members ++ [id] }

/-- The group without a member. -/
def removeMember (g : Group) (id : CandidateId) : Group :=
  { g with members := g.members.filter (· ≠ id) }

/-- `f` applied to the group of an identifier, which is made if it is not there. -/
def update (key : String) (f : Group → Group) : List Group → List Group
  | [] => [f { identifier := key }]
  | g :: rest =>
    match compare key g.identifier with
    | .lt => f { identifier := key } :: g :: rest
    | .eq => f g :: rest
    | .gt => g :: update key f rest

end Group

/-- All candidates, with the index over what they provide. -/
structure Store where
  /-- ascending by number -/
  records : List Candidate := []
  /-- ascending by identifier -/
  groups : List Group := []
  /-- the number of the next candidate -/
  nextId : CandidateId := 0
  deriving DecidableEq, Repr

namespace Store

/-- The store without candidates. -/
def empty : Store := {}

/-- The number of candidates. -/
def size (s : Store) : Nat := s.records.length

/-- The numbers of all candidates, ascending. -/
def ids (s : Store) : List CandidateId := s.records.map (·.id)

/-- The candidate of a number. -/
def get? (s : Store) (id : CandidateId) : Option Candidate := s.records.find? (·.id = id)

/-- Whether a number is taken. -/
def contains (s : Store) (id : CandidateId) : Bool := (s.get? id).isSome

/-- The candidates of those numbers that are taken. -/
def getAll (s : Store) (ids : List CandidateId) : List Candidate := ids.filterMap s.get?

/-- The group of an identifier. -/
def group? (s : Store) (key : String) : Option Group := s.groups.find? (·.identifier = key)

/-- The candidates that provide an identifier. -/
def providers (s : Store) (key : String) : List CandidateId :=
  ((s.group? key).map (·.members)).getD []

/-- The candidates that provide the target of a dependency in an admitted version. -/
def matching (s : Store) (d : Dependency) : List CandidateId :=
  (s.providers d.target).filter fun m => (s.get? m).any fun c => d.admits c.version

/-- The store with one candidate changed, its number aside. -/
def modify (s : Store) (id : CandidateId) (f : Candidate → Candidate) : Store :=
  { s with records := s.records.map fun c => if c.id = id then f c else c }

/-- Sets whether the content of a candidate needs remapping. -/
def setRemap (s : Store) (id : CandidateId) (remap : Bool) : Store :=
  s.modify id fun c => { c with remap }

/-- `x` at the end of a list, unless it is there. -/
def addOnce (x : CandidateId) (l : List CandidateId) : List CandidateId :=
  if l.contains x then l else l ++ [x]

/-- Makes one candidate contain another.  Nothing contains itself, and the one
around has to be in the store. -/
def link (s : Store) (parent child : CandidateId) : Store :=
  if parent = child || !s.contains parent then s
  else (s.modify child fun c => { c with parents := addOnce parent c.parents }).modify parent
    fun p => { p with children := addOnce child p.children }

/-- Takes a candidate out, and with it its edges and its places in groups. -/
def detach (s : Store) (id : CandidateId) : Store :=
  match s.get? id with
  | none => s
  | some gone =>
    let without (c : Candidate) : Candidate :=
      let c := if gone.parents.contains c.id
        then { c with children := c.children.filter (· ≠ id) } else c
      if gone.children.contains c.id then { c with parents := c.parents.filter (· ≠ id) } else c
    let leave (g : Group) : Group :=
      if gone.keys.contains g.identifier then g.removeMember id else g
    { s with
      records := (s.records.filter (·.id ≠ id)).map without
      groups := (s.groups.map leave).filter fun g => !g.members.isEmpty }

end Store
end Loadout
