/-
# Taking candidates in

Every mod in one version has one candidate, however many copies of it are found.
The copy at the smallest depth wins; of two copies at depth zero the one with the
smaller location key does.  A copy that loses still adds its aliases, and its
container where the depths are equal.  A copy that wins takes over location,
descriptor and container, and keeps the aliases that were known.

Two roots of one identifier must have one version.
-/

import Loadout.ConfigError
import Loadout.Store.Basic

namespace Loadout

/-- A candidate before it has a number. -/
structure NewCandidate where
  descriptor : Descriptor
  location : Location
  /-- the candidate around it; none for a root -/
  parent? : Option CandidateId
  remap : Bool
  deriving DecidableEq, Repr

/-- What became of a candidate that was taken in. -/
inductive Outcome where
  /-- it got a number of its own -/
  | inserted (id : CandidateId)
  /-- it took the place of a copy -/
  | replaced (id : CandidateId)
  /-- a copy was kept -/
  | duplicate (id : CandidateId)
  deriving DecidableEq, Repr

namespace Outcome

/-- The candidate that stands for it now. -/
def id : Outcome → CandidateId
  | inserted i => i
  | replaced i => i
  | duplicate i => i

/-- Whether it got a number of its own. -/
def isInserted : Outcome → Bool
  | inserted _ => true
  | _ => false

end Outcome

namespace Store

/-- The depth of a new candidate: one more than what is around it, and one where
that is not in the store. -/
def depthFor (s : Store) (new : NewCandidate) : Nat :=
  match new.parent? with
  | none => 0
  | some p => ((s.get? p).map fun c => c.depth + 1).getD 1

/-- A root with the identifier of a descriptor and another version. -/
def clashingRoot? (s : Store) (d : Descriptor) : Option Candidate :=
  (s.getAll (s.providers d.id)).find? fun c =>
    c.isRoot && c.identifier == d.id && !c.version.sameAs d.version

/-- The candidate with the identifier and the version of a descriptor. -/
def copyOf? (s : Store) (d : Descriptor) : Option Candidate :=
  (s.getAll (s.providers d.id)).find? fun c => c.identifier == d.id && c.version.sameAs d.version

/-- The index with a candidate in the group of every key, once for each place of
the key in the list. -/
def indexNew (groups : List Group) (id : CandidateId) (keys : List String) : List Group :=
  keys.foldl (fun gs key => Group.update key (fun g => (g.addMember id).addAliases keys) gs) groups

/-- The index with a candidate in the group of every key, where it may be already. -/
def indexAgain (groups : List Group) (id : CandidateId) (keys : List String) : List Group :=
  keys.foldl (fun gs key => Group.update key
    (fun g => (if g.members.contains id then g else g.addMember id).addAliases keys) gs) groups

/-- Links to the container, if there is one. -/
def linkParent (s : Store) (parent? : Option CandidateId) (child : CandidateId) : Store :=
  match parent? with
  | none => s
  | some p => s.link p child

/-- Gives a candidate the next number. -/
def push (s : Store) (new : NewCandidate) (depth : Nat) : Store :=
  let c : Candidate := { id := s.nextId, descriptor := new.descriptor, location := new.location,
                         depth, remap := new.remap }
  let s' : Store := { records := s.records ++ [c], groups := indexNew s.groups c.id c.keys,
                      nextId := s.nextId + 1 }
  s'.linkParent new.parent? c.id

/-- Adds the aliases that a candidate does not provide yet. -/
def addAliases (s : Store) (c : Candidate) (aliases : List String) : Store :=
  let added := aliases.filter fun a => !c.provides a
  if added.isEmpty then s
  else
    let provides := c.aliases ++ added
    let s := s.modify c.id fun r => { r with descriptor := { r.descriptor with provides } }
    { s with groups := indexAgain s.groups c.id (c.identifier :: provides) }

/-- `extra` without what is in `base` or earlier in itself, after `base`. -/
def joinAliases (base extra : List String) : List String :=
  extra.foldl (fun l a => if l.contains a then l else l ++ [a]) base

/-- Moves a candidate to a new origin, away from what contained it so far. -/
def replaceOrigin (s : Store) (id : CandidateId) (new : NewCandidate) (depth : Nat) : Store :=
  let old := ((s.get? id).map (·.parents)).getD []
  let s := s.modify id fun c =>
    { c with
      descriptor := { new.descriptor with
        provides := joinAliases new.descriptor.provides c.aliases }
      location := new.location
      parents := []
      depth
      remap := new.remap }
  let orphan (c : Candidate) : Candidate :=
    if old.contains c.id then { c with children := c.children.filter (· ≠ id) } else c
  let s : Store := { s with records := s.records.map orphan }
  s.linkParent new.parent? id

/-- Whether a new copy at a depth wins over a candidate. -/
def wins (new : NewCandidate) (depth : Nat) (c : Candidate) : Bool :=
  depth < c.depth || (depth == 0 && c.depth == 0 && compare new.location.key c.location.key == .lt)

/-- Takes a new copy of a candidate in. -/
def mergeCopy (s : Store) (new : NewCandidate) (depth : Nat) (c : Candidate) : Store × Outcome :=
  let s := s.addAliases c new.descriptor.provides
  if wins new depth c then (s.replaceOrigin c.id new depth, .replaced c.id)
  else (if depth = c.depth then s.linkParent new.parent? c.id else s, .duplicate c.id)

/-- The error for a root beside a root of another version. -/
def duplicateRootError (first : Candidate) (new : NewCandidate) : ConfigError :=
  .duplicateRoot new.descriptor.id first.version.toString first.location.toString
    new.descriptor.version.toString new.location.toString

/-- Takes a candidate in. -/
def insert (s : Store) (new : NewCandidate) : Except ConfigError (Store × Outcome) :=
  let depth := s.depthFor new
  match if depth = 0 then s.clashingRoot? new.descriptor else none with
  | some first => .error (duplicateRootError first new)
  | none =>
    match s.copyOf? new.descriptor with
    | none => .ok (s.push new depth, .inserted s.nextId)
    | some c => .ok (s.mergeCopy new depth c)

end Store
end Loadout
