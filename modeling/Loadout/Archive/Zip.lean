/-
# Zip archives

An archive is opened by reading its directory.  When the last end record does not lead
to a directory the one before it is tried.

The bytes of an entry stand behind its local record, which is looked at only when the
entry is wanted.

    local     signature  22 bytes  lengths(2,2)  name extra  bytes

`Zip.reader` reads entries that are stored as they are, and refuses those that are packed
or encrypted.
-/

import Loadout.Archive.Directory
import Loadout.Archive.Reader

namespace Loadout

/-- An opened archive. -/
structure Zip where
  bytes : ByteArray
  /-- in the order of the directory -/
  entries : List ZipEntry

/-- What an archive holds for an entry. -/
structure ZipContent where
  bytes : ByteArray
  /-- the checksum that the directory states -/
  checksum : Nat

namespace ZipContent

/-- Whether the bytes have the checksum that the directory states. -/
def isIntact (c : ZipContent) : Bool := (Crc32.checksum c.bytes).toNat == c.checksum

end ZipContent

namespace Zip

/-- The entries of the archive whose end record starts at a place. -/
def entriesAt? (b : ByteArray) (place : Nat) : Option (List ZipEntry) := do
  let d ← DirectoryPlace.find? b place
  guard (d.start < UInt64.size)
  ZipEntry.readAll? b d.shift d.count d.start

/-- The entries of the last archive whose end record starts before a place. -/
def entriesBefore? (b : ByteArray) : Nat → Option (List ZipEntry)
  | 0 => none
  | n + 1 =>
    if RecordKind.directoryEnd.startsAt b n then
      match entriesAt? b n with
      | some l => some l
      | none => entriesBefore? b n
    else entriesBefore? b n

/-- Opens an archive. -/
def open? (b : ByteArray) : Option Zip := (entriesBefore? b b.size).map (Zip.mk b)

/-- The entry of a name, the last one if there are several. -/
def entry? (z : Zip) (name : String) : Option ZipEntry := z.entries.reverse.find? (·.name == name)

/-- The place behind the local record of an entry. -/
def contentStart? (z : Zip) (e : ZipEntry) : Option Nat := do
  guard (RecordKind.localHeader.startsAt z.bytes e.header)
  let nameLength ← numberAt? z.bytes (e.header + 26) 2
  let extraLength ← numberAt? z.bytes (e.header + 28) 2
  return e.header + 30 + nameLength + extraLength

/-- What the archive holds for an entry that is stored as it is.  Bytes behind the end
of the archive are missing from it. -/
def content? (z : Zip) (e : ZipEntry) : Option ZipContent := do
  guard e.isPlain
  let start ← z.contentStart? e
  return ⟨slice z.bytes start (start + e.size), e.checksum⟩

/-- Finds what the archive holds under a name. -/
def find (z : Zip) (name : String) : Except ArchiveFault ZipContent :=
  match z.entry? name with
  | none => .error .missing
  | some e =>
    match z.content? e with
    | none => .error (.closed "unsupported Zip archive")
    | some c => .ok c

/-- Finds what the archive in some bytes holds under a name. -/
def findIn (b : ByteArray) (name : String) : Except ArchiveFault ZipContent :=
  match open? b with
  | none => .error (.notArchive "invalid Zip archive")
  | some z => z.find name

/-- The bytes do not have the checksum that the directory states. -/
def badChecksum : ArchiveFault := .broken ⟨ReadFault.invalidData, "Invalid checksum"⟩

/-- Reads the entry of a name. -/
def read (b : ByteArray) (name : String) : Except ArchiveFault ByteArray := do
  let c ← findIn b name
  if c.isIntact then return c.bytes else throw badChecksum

/-- Reads the entry of a name as a text.  Bytes that are no text are a graver fault than a
wrong checksum. -/
def readText (b : ByteArray) (name : String) : Except ArchiveFault String := do
  let c ← findIn b name
  match String.fromUTF8? c.bytes with
  | none => throw (.broken .notText)
  | some text => if c.isIntact then return text else throw badChecksum

/-- The reader of archives whose entries are stored as they are. -/
def reader : ArchiveReader := ⟨read, readText⟩

end Zip
end Loadout
