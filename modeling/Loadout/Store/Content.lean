/-
# Content of candidates

The content of a candidate is an archive.  It is on disk, or in the archive store,
or it is read once more from what contains the candidate: from the container at the
smallest depth that leads to anything.  Unpacked mods and mods without content have
none.

What was read is kept in the byte cache, also what was read on the way to a fault.
-/

import Loadout.Archive.Reader
import Loadout.Files.Tree
import Loadout.Store.Basic

namespace Loadout

/-- Where content is read from.  Each answer depends on what is asked for alone. -/
structure Shelves where
  /-- whether there is a file at a path -/
  isFile (path : String) : Bool
  /-- the bytes of the file at a path -/
  readFile (path : String) : Except ReadFault ByteArray
  /-- an entry of the archive in some bytes; none if there is no such entry -/
  readEntry (archive : ByteArray) (entry : String) : Except ReadFault (Option ByteArray)
  archives : ArchiveStore

/-- Reads an entry of an archive; none if there is no such entry. -/
def ArchiveReader.readEntry (reader : ArchiveReader) (archive : ByteArray) (entry : String) :
    Except ReadFault (Option ByteArray) :=
  match reader.read archive entry with
  | .ok bytes => .ok (some bytes)
  | .error .missing => .ok none
  | .error (.broken fault) => .error fault
  | .error fault => .error ⟨ReadFault.invalidData, fault.message⟩

/-- The shelves of some files and an archive store, with a reader of archives. -/
def Shelves.of (files : FileTree) (reader : ArchiveReader) (archives : ArchiveStore) : Shelves where
  isFile := files.isFile
  readFile path := (files.read path).mapError fun fault => ⟨fault.kind, fault.message⟩
  readEntry := reader.readEntry
  archives

/-- What reading yields, with the cache that it leaves behind. -/
abbrev Reading := Except ReadFault (Option ByteArray) × ByteCache

/-- Keeps what was read of a candidate. -/
def Reading.keep (id : CandidateId) : Reading → Reading
  | (.ok (some bytes), cache) => (.ok (some bytes), cache.insert id bytes)
  | r => r

namespace Store

/-- What contains a candidate, the smallest depths first. -/
def containers (s : Store) (c : Candidate) : List Candidate :=
  (s.getAll c.parents).mergeSort fun a b => a.depth ≤ b.depth

/-- An entry of the first container that leads to anything.  An unpacked one does
if it has the file, any other one if its own content can be read. -/
def readFrom (sh : Shelves) (entry : String) (read : CandidateId → ByteCache → Reading) :
    List Candidate → ByteCache → Reading
  | [], cache => (.ok none, cache)
  | c :: rest, cache =>
    match c.location with
    | .directory path =>
      if sh.isFile (Path.join path entry) then
        ((sh.readFile (Path.join path entry)).map some, cache)
      else readFrom sh entry read rest cache
    | _ =>
      match read c.id cache with
      | (.ok none, cache) => readFrom sh entry read rest cache
      | (.ok (some archive), cache) => (sh.readEntry archive entry, cache)
      | r => r

/-- Reads the content of a candidate by way of at most `fuel` containers inside each
other. -/
def readWithin (s : Store) (sh : Shelves) : Nat → CandidateId → ByteCache → Reading
  | 0, _, cache => (.ok none, cache)
  | fuel + 1, id, cache =>
    match cache.get? id, s.get? id with
    | some bytes, _ => (.ok (some bytes), cache)
    | none, none => (.ok none, cache)
    | none, some c =>
      match c.location with
      | .file path => Reading.keep id ((sh.readFile path).map some, cache)
      | .directory _ | .builtin _ => (.ok none, cache)
      | .stored name entry _ =>
        match sh.archives.get? name with
        | some bytes => Reading.keep id (.ok (some bytes), cache)
        | none => Reading.keep id (readFrom sh entry (s.readWithin sh fuel) (s.containers c) cache)

/-- Reads the content of a candidate.  Containment has no cycles, so no chain of
containers is longer than the store. -/
def readContent (s : Store) (sh : Shelves) (id : CandidateId) (cache : ByteCache) : Reading :=
  s.readWithin sh (s.size + 1) id cache

end Store
end Loadout
