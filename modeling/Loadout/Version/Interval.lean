/-
# Intervals of versions

An interval is a contiguous range of versions; each side is unbounded, or bounded
by a version that belongs to the range or does not.  `union` merges intervals into
ascending disjoint clusters, `intersect` meets two of them, and `representative?`
names one version inside, always the same one.

Because versions are only preordered, an endpoint may be written in several ways;
`Interval.contains` is the meaning of an interval, and every operation is to be
read through it.
-/

import Loadout.Version.Grammar

namespace Loadout

/-- One side of an interval. -/
inductive Endpoint where
  /-- the side is open to all versions -/
  | unbounded
  /-- the side ends with this version -/
  | inclusive (version : Version)
  /-- the side ends just before this version -/
  | exclusive (version : Version)
  deriving DecidableEq, Repr

namespace Endpoint

/-- The bounding version. -/
def version? : Endpoint → Option Version
  | unbounded => none
  | inclusive v => some v
  | exclusive v => some v

/-- Whether the bounding version belongs to the interval. -/
def isInclusive : Endpoint → Bool
  | inclusive _ => true
  | _ => false

/-- Whether a lower endpoint admits a version. -/
def admitsAbove : Endpoint → Version → Bool
  | unbounded, _ => true
  | inclusive low, v => low.atMost v
  | exclusive low, v => low.below v

/-- Whether an upper endpoint admits a version. -/
def admitsBelow : Endpoint → Version → Bool
  | unbounded, _ => true
  | inclusive high, v => v.atMost high
  | exclusive high, v => v.below high

/-- Order of lower endpoints, the looser one first. -/
def compareLower (a b : Endpoint) : Ordering :=
  match a.version?, b.version? with
  | none, none => .eq
  | none, some _ => .lt
  | some _, none => .gt
  | some x, some y => (x.compare y).then (compare b.isInclusive a.isInclusive)

/-- Order of upper endpoints, the looser one last. -/
def compareUpper (a b : Endpoint) : Ordering :=
  match a.version?, b.version? with
  | none, none => .eq
  | none, some _ => .gt
  | some _, none => .lt
  | some x, some y => (x.compare y).then (compare a.isInclusive b.isInclusive)

end Endpoint

/-- A contiguous range of versions. -/
structure Interval where
  min : Endpoint
  max : Endpoint
  deriving DecidableEq, Repr

namespace Interval

/-- The interval of all versions. -/
def any : Interval := ⟨.unbounded, .unbounded⟩

/-- The interval of one version alone. -/
def exact (v : Version) : Interval := ⟨.inclusive v, .inclusive v⟩

/-- Whether both sides are open. -/
def isUnbounded (i : Interval) : Bool := i.min.version?.isNone && i.max.version?.isNone

/-- Whether a version lies inside. -/
def contains (i : Interval) (v : Version) : Bool := i.min.admitsAbove v && i.max.admitsBelow v

/-- Whether the bounds exclude each other.  A version may be missing from an
interval that is not empty in this sense, as nothing lies between `1-a` and
`1-a.0`. -/
def isEmpty (i : Interval) : Bool :=
  match i.min.version?, i.max.version? with
  | some low, some high =>
    match low.compare high with
    | .gt => true
    | .eq => !(i.min.isInclusive && i.max.isInclusive)
    | .lt => false
  | _, _ => false

/-- The versions of both intervals, unless the bounds exclude each other. -/
def intersect? (a b : Interval) : Option Interval :=
  let min := if a.min.compareLower b.min = .lt then b.min else a.min
  let max := if a.max.compareUpper b.max = .gt then b.max else a.max
  let meet : Interval := ⟨min, max⟩
  if meet.isEmpty then none else some meet

/-- Whether `b` starts inside `a` or right at its end. -/
def touches (a b : Interval) : Bool :=
  match a.max.version?, b.min.version? with
  | some high, some low =>
    match high.compare low with
    | .gt => true
    | .eq => a.max.isInclusive || b.min.isInclusive
    | .lt => false
  | _, _ => true

/-- Merges a list that ascends by lower endpoint into the cluster `last`. -/
def mergeInto (last : Interval) : List Interval → List Interval
  | [] => [last]
  | i :: rest =>
    if last.touches i then
      mergeInto (if i.max.compareUpper last.max = .gt then ⟨last.min, i.max⟩ else last) rest
    else last :: mergeInto i rest

/-- Ascending, disjoint clusters that hold together the versions of all intervals. -/
def union (intervals : List Interval) : List Interval :=
  let ascending := (intervals.filter fun i => !i.isEmpty).mergeSort
    fun a b => (a.min.compareLower b.min).isLE
  match ascending with
  | [] => []
  | first :: rest => mergeInto first rest

/-- The intersections of the members of two lists of clusters, as clusters. -/
def intersectAll (a b : List Interval) : List Interval :=
  union (a.flatMap fun x => b.filterMap x.intersect?)

/-- The interval in mathematical notation. -/
protected def toString (i : Interval) : String :=
  (match i.min with
    | .unbounded => "(-∞"
    | .inclusive v => "[" ++ v.toString
    | .exclusive v => "(" ++ v.toString)
  ++ "," ++
  match i.max with
    | .unbounded => "∞)"
    | .inclusive v => v.toString ++ "]"
    | .exclusive v => v.toString ++ ")"

instance : ToString Interval := ⟨Interval.toString⟩

/-- `n` with its last component raised by one; the empty list counts as `0`. -/
def bumpLast : List UInt64 → List UInt64
  | [] => [1]
  | [c] => [Text.succSaturating c]
  | c :: rest => c :: bumpLast rest

/-- A version above `v`: its release if `v` precedes one, else `v` with the last
component raised, else, where that leaves the interval, `v` with one more
component. -/
def versionAbove (v : SemanticVersion) (i : Interval) : SemanticVersion :=
  if v.isPreRelease then v.release
  else
    let bumped := SemanticVersion.ofComponents (bumpLast v.components)
    if i.contains (.semantic bumped) then bumped
    else .ofComponents ((if v.components.isEmpty then [0] else v.components) ++ [1])

/-- The list with its last component other than zero lowered by one. -/
def lowerLast? (components : List UInt64) : Option (List UInt64) :=
  match components.reverse.span (· == 0) with
  | (_, []) => none
  | (zeros, c :: rest) => some ((zeros ++ (c - 1) :: rest).reverse)

/-- A release below `v`, if one can be made by lowering a component. -/
def versionBelow? (v : SemanticVersion) : Option SemanticVersion :=
  (lowerLast? v.components).map .ofComponents

/-- The version proposed as a member: an inclusive bound as it is, the lower one
first; else one next to an exclusive bound; `0.0.0` where there are no bounds. -/
def proposal? (i : Interval) : Option Version :=
  match i.min, i.max with
  | .inclusive v, _ => some v
  | .exclusive v, _ => v.semantic?.map fun s => .semantic (versionAbove s i)
  | .unbounded, .inclusive v => some v
  | .unbounded, .exclusive v => (v.semantic?.bind versionBelow?).map .semantic
  | .unbounded, .unbounded => some (.ofComponents [0, 0, 0])

/-- One version inside the interval, always the same one. -/
def representative? (i : Interval) : Option Version :=
  if i.isEmpty then none else i.proposal?.filter i.contains

/-- A representative lies inside. -/
theorem contains_of_representative? {i : Interval} {v : Version} (h : i.representative? = some v) :
    i.contains v = true := by
  unfold representative? at h
  split at h
  · simp at h
  · exact (Option.filter_eq_some_iff.mp h).2

end Interval
end Loadout
