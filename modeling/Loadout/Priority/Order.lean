/-
# The order of preference

`Store.preferenceOrder` lists all candidates from the most to the least preferred
one.  Roots precede the rest; then count the rank of the identifier, the version
from the latest, the depth, the best candidate around and the location.  A second
pass lets a candidate rise past blocks of older ones that could stand in for it.

The order is about preference alone: it never decides what may be selected.
-/

import Loadout.Priority.Rank

namespace Loadout
namespace Priority

/-- What one candidate contributes to a key. -/
structure KeyStep where
  nested : Bool
  rank : Nat
  version : Version
  depth : Nat
  location : String
  deriving DecidableEq, Repr

namespace KeyStep

/-- Order of two candidates without what is around them; later versions come first. -/
def compareOwn (a b : KeyStep) : Ordering :=
  (compare a.nested b.nested).then ((compare a.rank b.rank).then
    ((b.version.compare a.version).then (compare a.depth b.depth)))

end KeyStep

/-- A candidate and the chain of the best candidates around it, outwards. -/
abbrev Key := List KeyStep

/-- Order of keys: the candidates, then what is around them, then the locations. -/
def compareKeys : Key → Key → Ordering
  | [], [] => .eq
  | [], _ :: _ => .lt
  | _ :: _, [] => .gt
  | a :: as, b :: bs =>
    (a.compareOwn b).then ((compareKeys as bs).then (compare a.location b.location))

/-- The step of a candidate. -/
def keyStep (ranks : List String) (c : Candidate) : KeyStep :=
  { nested := !c.isRoot
    rank := ranks.idxOf c.identifier
    version := c.version
    depth := c.depth
    location := c.location.key }

/-- The smaller of two keys, the first one if they are equal. -/
def smaller : Option Key → Option Key → Option Key
  | none, k => k
  | some a, none => some a
  | some a, some b => if compareKeys b a = .lt then some b else some a

/-- Keys that are known already. -/
abbrev KnownKeys := List (CandidateId × Key)

/-- The key of a candidate, and what is known afterwards.  A candidate that is
reached from itself does not count as being around itself.  The fuel bounds the
length of a chain of candidates. -/
def keyOf (s : Store) (ranks : List String) :
    Nat → List CandidateId → CandidateId → KnownKeys → Option Key × KnownKeys
  | 0, _, _, known => (none, known)
  | fuel + 1, inside, id, known =>
    match known.lookup id, s.get? id with
    | some key, _ => (some key, known)
    | none, none => (none, known)
    | none, some c =>
      if inside.contains id then (none, known)
      else
        let (best, known) := c.parents.foldl (fun (best, known) p =>
          let (key, known) := keyOf s ranks fuel (id :: inside) p known
          (smaller best key, known)) (none, known)
        let key := keyStep ranks c :: best.getD []
        (some key, (id, key) :: known)

/-- All candidates with their keys. -/
def keyed (s : Store) : List (CandidateId × Key) :=
  let ranks := ranking s
  (s.ids.foldl (fun (done, known) id =>
    let (key, known) := keyOf s ranks (s.size + 1) [] id known
    (match key with
      | some key => (id, key) :: done
      | none => done, known)) ([], [])).1.reverse

/-- All candidates by key. -/
def keyOrder (s : Store) : List CandidateId :=
  ((keyed s).mergeSort fun a b =>
    ((compareKeys a.2 b.2).then (compare a.1 b.1)).isLE).map (·.1)

/-- How far a candidate may rise. -/
def riseLimit : Nat := 16

/-- Whether a candidate may pass a block: the block could stand in for it, and
everything in the block is older. -/
def mayPass (c : Candidate) (block : List Candidate) : Bool :=
  block.any (·.overlaps c) && !block.any fun b => c.version.atMost b.version

/-- How far a candidate rises, given how far it rose already and what precedes it,
nearest first.  A block is a longest run of one identifier.  The candidate does not
pass its own identifier, nor from nested candidates to roots.  Every block has a
member, so `fuel` need not exceed the number of what precedes. -/
def rise (c : Candidate) : Nat → Nat → List Candidate → Nat
  | 0, risen, _ => risen
  | _ + 1, risen, [] => risen
  | fuel + 1, risen, p :: rest =>
    if p.identifier = c.identifier || p.isRoot != c.isRoot then risen
    else
      let block := p :: rest.takeWhile fun b => b.identifier == p.identifier
      let risen' := risen + block.length
      if riseLimit < risen' || !mayPass c block then risen
      else rise c fuel risen' ((p :: rest).drop block.length)

/-- Puts a candidate into its place after those before it, nearest first. -/
def settle (before : List Candidate) (c : Candidate) : List Candidate :=
  let n := rise c before.length 0 before
  before.take n ++ c :: before.drop n

end Priority

/-- All candidates from the most to the least preferred one. -/
def Store.preferenceOrder (s : Store) : List CandidateId :=
  ((s.getAll (Priority.keyOrder s)).foldl Priority.settle []).reverse.map (·.id)

end Loadout
