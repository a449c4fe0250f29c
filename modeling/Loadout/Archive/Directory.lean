/-
# The directory of an archive

An archive ends with a record that tells where its *directory* is; the directory has
one record for every entry, in turn.

    end       signature  disk(2) disk(2) count(2) count(2)  size(4) offset(4)
              length(2) comment
    entry     signature  version(2) version(2) flags(2) method(2) time(4) checksum(4)
              sizes(4,4) lengths(2,2,2) 8 bytes offset(4)  name extra comment

Bytes before the archive move all offsets.  They are counted by the *shift*: the
directory starts at the first entry record at or after the place where it should be.
Places are numbers of 64 bits, and one that is greater makes the directory bad.

Where a count or an offset does not fit, a *locator* before the end record leads to an
end record with wide numbers.

    locator   signature  disk(4) offset(8) disks(4)
    wide end  signature  size(8) version(2) version(2) disk(4) disk(4) count(8)
              count(8) size(8) offset(8)
-/

import Loadout.Archive.ExtraField

namespace Loadout

/-- Where a directory is. -/
structure DirectoryPlace where
  /-- how far offsets are from places -/
  shift : Nat
  /-- the place of its first record -/
  start : Nat
  count : Nat
  deriving DecidableEq, Repr

namespace DirectoryPlace

/-- The length of an entry record without its texts. -/
def entryLength : Nat := 46

/-- The length of a locator. -/
def locatorLength : Nat := 20

/-- The place that an end record leads to.  An archive without entries need not have a
directory, so it need not be found. -/
def ofEnd? (b : ByteArray) (place : Nat) : Option DirectoryPlace := do
  let disk ← numberAt? b (place + 4) 2
  let directoryDisk ← numberAt? b (place + 6) 2
  let count ← numberAt? b (place + 8) 2
  let total ← numberAt? b (place + 10) 2
  let offset ← numberAt? b (place + 16) 4
  guard (disk = directoryDisk)
  if total = 0 then
    return ⟨place - offset, offset + (place - offset), count⟩
  else
    guard (offset < place)
    let start ← RecordKind.entry.first? b (fun _ => true) offset (place - offset - 3)
    return ⟨start - offset, start, count⟩

/-- Whether a wide end record fits in front of the locator at a place, and leaves room
for the directory that it tells of. -/
def fitsLocator (b : ByteArray) (locator directoryDisk place : Nat) : Bool :=
  (do
    let size ← numberAt? b (place + 4) 8
    let ownDirectoryDisk ← numberAt? b (place + 20) 4
    let count ← numberAt? b (place + 32) 8
    let offset ← numberAt? b (place + 48) 8
    return 44 ≤ size && size + 12 = locator - place && ownDirectoryDisk = directoryDisk &&
      count * entryLength + offset ≤ place).getD false

/-- The place that a locator leads to. -/
def ofLocator? (b : ByteArray) (locator : Nat) : Option DirectoryPlace := do
  let directoryDisk ← numberAt? b (locator + 4) 4
  let target ← numberAt? b (locator + 8) 8
  let disks ← numberAt? b (locator + 16) 4
  guard (target < locator && disks ≤ 1)
  let place ← RecordKind.wideEnd.first? b (fitsLocator b locator directoryDisk) target
    (locator - target - 3)
  let madeBy ← numberAt? b (place + 12) 2
  let needed ← numberAt? b (place + 14) 2
  let disk ← numberAt? b (place + 16) 4
  let countHere ← numberAt? b (place + 24) 8
  let count ← numberAt? b (place + 32) 8
  let offset ← numberAt? b (place + 48) 8
  guard (countHere ≤ count && needed ≤ madeBy && disk = directoryDisk)
  return ⟨place - target, offset + (place - target), count⟩

/-- Whether a number of an end record does not fit into it. -/
def overflows (b : ByteArray) (place : Nat) : Bool :=
  numberAt? b (place + 10) 2 == some 0xFFFF || numberAt? b (place + 16) 4 == some 0xFFFFFFFF

/-- The place of the directory of the archive whose end record starts at a place. -/
def find? (b : ByteArray) (place : Nat) : Option DirectoryPlace := do
  let commentLength ← numberAt? b (place + 20) 2
  guard (place + 22 + commentLength ≤ b.size)
  let locator := place - locatorLength
  if overflows b place && locatorLength ≤ place && RecordKind.wideLocator.startsAt b locator then
    ofLocator? b locator
  else ofEnd? b place

end DirectoryPlace

namespace ZipEntry

/-- The entry of the record at a place of the directory, and the place after it. -/
def read? (b : ByteArray) (shift place : Nat) : Option (ZipEntry × Nat) := do
  guard (RecordKind.entry.startsAt b place)
  let flags ← numberAt? b (place + 8) 2
  let method ← numberAt? b (place + 10) 2
  let checksum ← numberAt? b (place + 16) 4
  let size ← numberAt? b (place + 20) 4
  let fullSize ← numberAt? b (place + 24) 4
  let nameLength ← numberAt? b (place + 28) 2
  let extraLength ← numberAt? b (place + 30) 2
  let commentLength ← numberAt? b (place + 32) 2
  let header ← numberAt? b (place + 42) 4
  let extraStart := place + DirectoryPlace.entryLength + nameLength
  let commentStart := extraStart + extraLength
  let next := commentStart + commentLength
  guard (next ≤ b.size)
  let bytes (start stop : Nat) := (slice b start stop).data.toList
  let rawName := bytes (place + DirectoryPlace.entryLength) extraStart
  let written : ZipEntry :=
    { name := decodeText flags rawName, rawName
      comment := decodeText flags (bytes commentStart next)
      flags, method, isSealed := false, checksum, size, fullSize, header }
  let e ← written.withFields? (bytes extraStart commentStart)
  guard (e.method ≠ sealedMethod || e.isSealed)
  guard (e.header + shift < UInt64.size)
  return ({ e with header := e.header + shift }, next)

/-- The entries of as many records from a place of the directory on. -/
def readAll? (b : ByteArray) (shift : Nat) : Nat → Nat → Option (List ZipEntry)
  | 0, _ => some []
  | n + 1, place => do
    let (e, next) ← read? b shift place
    let rest ← readAll? b shift n next
    return e :: rest

end ZipEntry
end Loadout
