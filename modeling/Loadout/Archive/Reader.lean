/-
# Reading archives

An archive is opened from its bytes, an entry of it is looked up by its name, and then the content
of the entry is read, as bytes or as a text.  Each of these steps can fail.

How entries are packed is not the business of the program: it asks an `ArchiveReader`, and works
with whatever that answers.
-/

namespace Loadout

/-- Why something cannot be read: the kind of fault, and its wording. -/
structure ReadFault where
  kind : String
  message : String
  deriving DecidableEq, Repr

namespace ReadFault

/-- The kind of a fault in what was read. -/
def invalidData : String := "InvalidData"

/-- Bytes that are read as a text are none. -/
def notText : ReadFault := ⟨invalidData, "stream did not contain valid UTF-8"⟩

end ReadFault

/-- Why an entry of an archive cannot be read. -/
inductive ArchiveFault where
  /-- the bytes are no archive -/
  | notArchive (reason : String)
  /-- there is no such entry -/
  | missing
  /-- the entry is there and cannot be opened -/
  | closed (reason : String)
  /-- its content cannot be read -/
  | broken (fault : ReadFault)
  deriving DecidableEq, Repr

namespace ArchiveFault

/-- The wording of each fault. -/
def message : ArchiveFault → String
  | notArchive reason => reason
  | missing => "specified file not found in archive"
  | closed reason => reason
  | broken fault => fault.message

end ArchiveFault

/-- Reads entries of archives, by the bytes of an archive and the name of an entry. -/
structure ArchiveReader where
  /-- the bytes of an entry -/
  read (archive : ByteArray) (entry : String) : Except ArchiveFault ByteArray
  /-- the bytes of an entry as a text -/
  readText (archive : ByteArray) (entry : String) : Except ArchiveFault String

end Loadout
