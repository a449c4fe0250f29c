/-
# Stored bytes

Archives that were found inside other archives are kept in an *archive store*.
An entry is named after the file and the hash of its bytes,
`{stem}-{first 16 hex digits}.{extension}`, and never changes once it is there: an
insert under a name that is taken keeps the old bytes.

The *byte cache* holds bytes of candidates that can be read again at any time, so
entries may be dropped freely.
-/

import Loadout.Content.Sha256

namespace Loadout

/-- The size of a byte array and its SHA-256. -/
structure ContentHash where
  size : Nat
  sha256 : List UInt8
  deriving DecidableEq, Repr

namespace ContentHash

/-- The hash of a byte array. -/
def ofBytes (bytes : ByteArray) : ContentHash := ⟨bytes.size, Sha256.hash bytes⟩

/-- The hexadecimal digit of a value below sixteen. -/
def hexDigit (n : Nat) : Char := "0123456789abcdef".toList.getD n '0'

/-- All bytes in small hexadecimal digits. -/
def hexDigits (h : ContentHash) : List Char :=
  h.sha256.flatMap fun b => [hexDigit (b.toNat / 16), hexDigit (b.toNat % 16)]

/-- The whole hash in hexadecimal. -/
def hex (h : ContentHash) : String := String.ofList h.hexDigits

/-- The first 16 hexadecimal digits. -/
def shortHex (h : ContentHash) : String := String.ofList (h.hexDigits.take 16)

end ContentHash

/-- Nested archives by name; an entry never changes. -/
structure ArchiveStore where
  entries : List (String × ByteArray) := []

namespace ArchiveStore

/-- The store without entries. -/
def empty : ArchiveStore := {}

/-- A file name cut at its last dot, unless nothing stands before it. -/
def splitExtension? (name : List Char) : Option (List Char × List Char) :=
  match name.reverse.span (· != '.') with
  | (_, []) => none
  | (extension, _ :: stem) => if stem.isEmpty then none else some (stem.reverse, extension.reverse)

/-- The name of an entry; a file without an extension counts as a `jar`. -/
def nameFor (fileName : String) (hash : ContentHash) : String :=
  let (stem, extension) := (splitExtension? fileName.toList).getD (fileName.toList, "jar".toList)
  String.ofList stem ++ "-" ++ hash.shortHex ++ "." ++ String.ofList extension

/-- The bytes of an entry. -/
def get? (s : ArchiveStore) (name : String) : Option ByteArray :=
  (s.entries.find? (·.1 = name)).map (·.2)

/-- Whether there is an entry of a name. -/
def contains (s : ArchiveStore) (name : String) : Bool := (s.get? name).isSome

/-- The number of entries. -/
def size (s : ArchiveStore) : Nat := s.entries.length

/-- Adds an entry, with the name and the hash that it got. -/
def insert (s : ArchiveStore) (fileName : String) (bytes : ByteArray) :
    ArchiveStore × String × ContentHash :=
  let hash := ContentHash.ofBytes bytes
  let name := nameFor fileName hash
  (if s.contains name then s else ⟨s.entries ++ [(name, bytes)]⟩, name, hash)

end ArchiveStore

/-- Bytes of candidates by their number. -/
structure ByteCache where
  entries : List (Nat × ByteArray) := []

namespace ByteCache

/-- The cache without entries. -/
def empty : ByteCache := {}

/-- The cached bytes of a candidate. -/
def get? (c : ByteCache) (id : Nat) : Option ByteArray := (c.entries.find? (·.1 = id)).map (·.2)

/-- Drops the bytes of one candidate. -/
def evict (c : ByteCache) (id : Nat) : ByteCache := ⟨c.entries.filter (·.1 ≠ id)⟩

/-- Holds the bytes of a candidate, in place of older ones. -/
def insert (c : ByteCache) (id : Nat) (bytes : ByteArray) : ByteCache :=
  ⟨(id, bytes) :: (c.evict id).entries⟩

/-- The number of candidates with cached bytes. -/
def size (c : ByteCache) : Nat := c.entries.length

/-- What was inserted last is what is cached. -/
@[simp] theorem get?_insert (c : ByteCache) (id : Nat) (bytes : ByteArray) :
    (c.insert id bytes).get? id = some bytes := by simp [get?, insert]

/-- What was evicted is not cached any more. -/
@[simp] theorem get?_evict (c : ByteCache) (id : Nat) : (c.evict id).get? id = none := by
  simp [get?, evict]

end ByteCache
end Loadout
