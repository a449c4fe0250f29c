/-
# The walk over containers

Discovery visits what the sources yield and then whatever is nested in it.  To
*visit* is to load a mod, to check its identifiers and to take it into the store.
Only what got a number of its own is *unpacked*: each archive that its descriptor
names is put into the archive store and visited in turn, with that number as its
container.  An archive that is nested in itself is not visited again, and neither is
a place that two sources yield.

The walk goes by levels.  Mods without content come first; then a level is visited
as a whole, unpacked as a whole, and its nested archives are the next level.  What is
packed may be larger than the archive that it is packed in, so nothing says that there
is a last level, and a walk ends when its time is up.

What cannot be read is skipped.  What is wrong in itself is an error, and makes the
walk useless in the end.
-/

import Loadout.Discovery.Load
import Loadout.Discovery.Source
import Loadout.Identifier
import Loadout.Store.Insert

namespace Loadout

/-- Something that was passed over. -/
structure Skipped where
  location : String
  reason : String
  deriving DecidableEq, Repr

namespace Skipped

/-- What was passed over and why, in one line. -/
protected def toString (s : Skipped) : String := s.location ++ ": " ++ s.reason

instance : ToString Skipped := ⟨Skipped.toString⟩

end Skipped

/-- Something that is no mod. -/
structure Unmatched where
  location : String
  /-- whether it is a directory, which may still hold classes -/
  classpathOnly : Bool
  deriving DecidableEq, Repr

/-- What is known at some point of a walk. -/
structure Findings where
  store : Store := .empty
  archives : ArchiveStore := .empty
  /-- in the order in which they came up -/
  skipped : List Skipped := []
  errors : List ConfigError := []
  unmatched : List Unmatched := []
  /-- keys of the places that sources yielded and that were visited -/
  seen : List String := []

/-- What is to be visited. -/
inductive Target where
  | path (path : String)
  | nested (name entry : String) (hash : ContentHash) (bytes : ByteArray)
  | builtin (descriptor : Descriptor)

namespace Target

/-- One text for one target. -/
def key : Target → String
  | path p => (Location.file p).key
  | nested name entry hash _ => (Location.stored name entry hash).key
  | builtin d => (Location.builtin d.id).key

/-- The target at an origin; a path stands for where it leads, if it leads anywhere. -/
def ofOrigin (canonical? : String → Option String) : Origin → Target
  | .path p => path ((canonical? p).getD p)
  | .builtin d => builtin d

/-- Whether there is nothing to read. -/
def isBuiltin : Target → Bool
  | builtin _ => true
  | _ => false

end Target

/-- A visit to be made. -/
structure Visit where
  target : Target
  /-- the candidate around it; none for what a source yields -/
  parent? : Option CandidateId
  /-- the keys of all containers around it -/
  ancestors : List String
  remap : Bool

/-- A mod that is to be unpacked. -/
structure Opened where
  id : CandidateId
  container : Container
  location : String
  nested : List String
  /-- its own key and those of all containers around it -/
  chain : List String
  remap : Bool

/-- A mod as it was read. -/
structure FoundMod where
  descriptor : Descriptor
  location : Location
  /-- none where there is nothing to unpack -/
  container? : Option Container

namespace Findings

/-- One more thing that was passed over. -/
def skip (f : Findings) (location reason : String) : Findings :=
  { f with skipped := f.skipped ++ [⟨location, reason⟩] }

/-- One more error. -/
def fail (f : Findings) (error : ConfigError) : Findings := { f with errors := f.errors ++ [error] }

/-- One more thing that is no mod. -/
def noMod (f : Findings) (location : String) (classpathOnly : Bool) : Findings :=
  { f with unmatched := f.unmatched ++ [⟨location, classpathOnly⟩] }

end Findings

/-- The errors about the identifiers of a descriptor. -/
def Descriptor.identifierErrors (d : Descriptor) (location : String) : List ConfigError :=
  (if Identifier.isValid d.id then [] else [.invalidIdentifier d.id location]) ++
    (d.provides.filter fun a => !Identifier.isValid a).map fun a => .invalidAlias d.id a location

namespace Discovery

/-- What a walk reads from.  Each answer depends on what is asked for alone. -/
structure Setting where
  /-- the path without links that leads to the same place, if there is one -/
  canonical? (path : String) : Option String
  /-- what is at a path -/
  loadPath (path : String) : Except LoadError Loaded
  /-- what is in the bytes of an archive -/
  loadArchive (bytes : ByteArray) : Except LoadError Loaded
  /-- the bytes of a nested archive, or the reason why they cannot be read -/
  nestedBytes (c : Container) (entry : String) : Except String ByteArray

/-- The setting of some files, with a reader of archives. -/
def Setting.of (files : FileTree) (reader : ArchiveReader) (descriptorName : String) : Setting where
  canonical? path := (files.canonical path).toOption
  loadPath := Container.loadPath files reader descriptorName
  loadArchive := Container.loadArchive reader descriptorName
  nestedBytes := Container.nestedBytes files reader

/-- The place of a path, by what is there. -/
def locationOf (path : String) : Container → Location
  | .directory _ => .directory path
  | .archive _ => .file path

/-- Takes note of what loading a place yielded. -/
def record (f : Findings) (place : String) (locate : Container → Location) :
    Except LoadError Loaded → Findings × Option FoundMod
  | .ok (.found descriptor c) => (f, some ⟨descriptor, locate c, some c⟩)
  | .ok .noDescriptor => (f.noMod place false, none)
  | .ok .directoryOnly => (f.noMod place true, none)
  | .error (.unreadable reason) => (f.skip place reason, none)
  | .error (.malformed e) => (f.fail (.malformedDescriptor place e.message e.unread), none)

/-- Reads a target; the findings change where it is no mod. -/
def read (w : Setting) (f : Findings) : Target → Findings × Option FoundMod
  | .builtin d => (f, some ⟨d, .builtin d.id, none⟩)
  | .path path => record f path (locationOf path) (w.loadPath path)
  | .nested name entry hash bytes =>
    let location := Location.stored name entry hash
    record f location.toString (fun _ => location) (w.loadArchive bytes)

/-- Takes a mod into the store; it is to be unpacked if it got a number of its own and
has archives in it. -/
def take (f : Findings) (v : Visit) (m : FoundMod) : Findings × Option Opened :=
  match m.descriptor.identifierErrors m.location.toString with
  | [] =>
    match f.store.insert ⟨m.descriptor, m.location, v.parent?, v.remap⟩ with
    | .error e => (f.fail e, none)
    | .ok (store, outcome) =>
      let f := { f with store }
      match outcome, m.container? with
      | .inserted id, some container =>
        if m.descriptor.nested.isEmpty then (f, none)
        else (f, some { id, container, location := m.location.toString,
                        nested := m.descriptor.nested,
                        chain := v.ancestors ++ [v.target.key], remap := v.remap })
      | _, _ => (f, none)
  | errors => (errors.foldl Findings.fail f, none)

/-- Makes one visit. -/
def visit (w : Setting) (f : Findings) (v : Visit) : Findings × Option Opened :=
  let key := v.target.key
  if v.ancestors.contains key then (f.skip key "archive contains itself", none)
  else if v.parent?.isNone && f.seen.contains key then (f, none)
  else
    let f := if v.parent?.isNone then { f with seen := key :: f.seen } else f
    match read w f v.target with
    | (f, none) => (f, none)
    | (f, some m) => take f v m

/-- Takes one archive out of what contains it. -/
def unpackEntry (w : Setting) (o : Opened) (f : Findings) (entry : String) :
    Findings × Option Visit :=
  match w.nestedBytes o.container entry with
  | .error reason => (f.skip (o.location ++ "!/" ++ entry) reason, none)
  | .ok bytes =>
    let (archives, name, hash) := f.archives.insert (Path.fileName entry) bytes
    ({ f with archives }, some { target := .nested name entry hash bytes, parent? := some o.id,
                                 ancestors := o.chain, remap := o.remap })

/-- One step after the other over a list, with what each of them leads to. -/
def through {σ α β : Type} (step : σ → α → σ × List β) (s : σ) : List α → σ × List β
  | [] => (s, [])
  | a :: rest =>
    let (s, found) := step s a
    let (s, more) := through step s rest
    (s, found ++ more)

/-- Unpacks one mod. -/
def unpack (w : Setting) (f : Findings) (o : Opened) : Findings × List Visit :=
  through (fun f entry => (unpackEntry w o f entry).map id Option.toList) f o.nested

/-- Visits a level, and yields the next one. -/
def level (w : Setting) (f : Findings) (visits : List Visit) : Findings × List Visit :=
  let (f, opened) := through (fun f v => (visit w f v).map id Option.toList) f visits
  through (unpack w) f opened

/-- Visits level after level until there is none left, if that takes no more than `levels`
of them. -/
def walk (w : Setting) (levels : Nat) (f : Findings) (visits : List Visit) : Option Findings :=
  if visits.isEmpty then some f
  else
    match levels with
    | 0 => none
    | levels + 1 =>
      let (f, next) := level w f visits
      walk w levels f next

/-- The first level: mods without content, then the rest. -/
def firstLevel (w : Setting) (items : List SourceItem) : List Visit :=
  let visits := items.map fun i => Visit.mk (.ofOrigin w.canonical? i.origin) none [] i.remap
  visits.filter (·.target.isBuiltin) ++ visits.filter fun v => !v.target.isBuiltin

/-- The number of levels that there is time for: a level takes a nanosecond at least. -/
def levelsWithin (seconds : Nat) : Nat := 1000000000 * seconds

/-- All that a walk from some items finds, if it ends in time. -/
def findAll (w : Setting) (seconds : Nat) (items : List SourceItem) : Option Findings :=
  walk w (levelsWithin seconds) {} (firstLevel w items)

end Discovery
end Loadout
