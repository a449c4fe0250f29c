/-
# Extra fields of an entry

The record of an entry ends with *extra fields*, each a kind, the length of its
content, and the content.  Some of them replace what the record says before them:

    0001   wide sizes and place, for numbers that do not fit into four bytes
    000a   times, in one block of numbers
    5455   times, with flags that tell which ones
    6375   the comment, in UTF-8
    7075   the name, in UTF-8
    9901   how the bytes are encrypted

Fields of other kinds are passed over.  Where the bytes run out the reading stops, and
what was replaced up to there stays.  A field that contradicts itself makes the whole
record bad.
-/

import Loadout.Archive.Crc32
import Loadout.Archive.Entry
import Loadout.Archive.Record

namespace Loadout

/-- Why the reading of extra fields stops. -/
inductive FieldFault where
  /-- the bytes have run out -/
  | short
  /-- a field contradicts itself -/
  | bad
  deriving DecidableEq, Repr

/-- Reading extra fields: the entry as it is known so far, and the bytes ahead. -/
abbrev FieldReader := ExceptT FieldFault (StateM (ZipEntry × List UInt8))

namespace FieldReader

/-- The next bytes, so many of them. -/
def take (n : Nat) : FieldReader (List UInt8) := do
  let (e, ahead) ← get
  let taken := ahead.take n
  if taken.length < n then throw .short
  else
    set (e, ahead.drop n)
    return taken

/-- The number in the next bytes. -/
def number (n : Nat) : FieldReader Nat := return littleEndian (← take n)

/-- Passes bytes over. -/
def skip (n : Nat) : FieldReader Unit := discard (take n)

/-- Makes the field bad unless a condition holds. -/
def require (condition : Bool) : FieldReader Unit := if condition then return else throw .bad

/-- The entry as it is known so far. -/
def entry : FieldReader ZipEntry := return (← get).1

/-- Changes the entry. -/
def change (f : ZipEntry → ZipEntry) : FieldReader Unit := modify fun (e, ahead) => (f e, ahead)

/-- The number that stands for one that does not fit into four bytes. -/
def tooWide : Nat := 0xFFFFFFFF

/-- Reads one wide number, if all are given or the one in the record did not fit, and
tells how many bytes it took. -/
def wideNumber (all : Bool) (narrow : ZipEntry → Nat) (put : Nat → ZipEntry → ZipEntry) :
    FieldReader Nat := do
  if all || narrow (← entry) == tooWide then
    let n ← number 8
    change (put n)
    return 8
  else return 0

/-- The wide sizes and the wide place. -/
def wideNumbers (length : Nat) : FieldReader Unit := do
  let all : Bool := 24 ≤ length
  let a ← wideNumber all (·.fullSize) fun n e => { e with fullSize := n }
  let b ← wideNumber all (·.size) fun n e => { e with size := n }
  let c ← wideNumber all (·.header) fun n e => { e with header := n }
  require (a + b + c ≤ length)
  skip (length - (a + b + c))

/-- The times in one block: an attribute of kind 1 with three wide numbers. -/
def timeBlock (length : Nat) : FieldReader Unit := do
  require (length = 32)
  skip 4
  require ((← number 2) = 1)
  require ((← number 2) = 24)
  skip 24

/-- The times that flags tell of: of change, access and creation.  A length of five is
the time of change alone, whatever the flags. -/
def flaggedTimes (length : Nat) : FieldReader Unit := do
  let flags ← number 1
  let told := ((List.range 8).filter flags.testBit).length
  require (length = 5 || length = 1 + 4 * told)
  if flags.testBit 0 || length = 5 then skip 4
  if flags.testBit 1 && 5 < length then skip 4
  if flags.testBit 2 && 5 < length then skip 4

/-- A text in UTF-8 with the checksum of the bytes that it stands for, and its bytes. -/
def checkedText (length : Nat) (replaced : ZipEntry → List UInt8) :
    FieldReader (String × List UInt8) := do
  skip 1
  let checksum ← number 4
  require (5 ≤ length)
  let raw ← take (length - 5)
  require ((Crc32.checksum ⟨(replaced (← entry)).toArray⟩).toNat = checksum)
  match String.fromUTF8? ⟨raw.toArray⟩ with
  | some text => return (text, raw)
  | none => throw .bad

/-- The comment in UTF-8. -/
def comment (length : Nat) : FieldReader Unit := do
  let (text, _) ← checkedText length fun e => e.comment.toUTF8.data.toList
  change fun e => { e with comment := text }

/-- The name in UTF-8. -/
def name (length : Nat) : FieldReader Unit := do
  let (text, raw) ← checkedText length (·.rawName)
  change fun e => { e with name := text, rawName := raw }

/-- How the bytes are encrypted: the version, the maker (`AE`), the strength, and the
method by which they are packed. -/
def encryption (length : Nat) : FieldReader Unit := do
  require (length = 7)
  let version ← number 2
  let maker ← number 2
  let strength ← number 1
  let method ← number 2
  require (maker = 0x4541 && (version = 1 || version = 2) && 1 ≤ strength && strength ≤ 3)
  change fun e => { e with isSealed := true, method }

/-- The content of a field of a kind. -/
def content (kind length : Nat) : FieldReader Unit :=
  match kind with
  | 0x0001 => wideNumbers length
  | 0x000a => timeBlock length
  | 0x5455 => flaggedTimes length
  | 0x6375 => comment length
  | 0x7075 => name length
  | 0x9901 => encryption length
  | _ => skip length

/-- At most `fuel` fields. -/
def fields : Nat → FieldReader Unit
  | 0 => return
  | fuel + 1 => do
    let kind ← number 2
    let length ← number 2
    content kind length
    fields fuel

end FieldReader

/-- The entry after its extra fields; none if one of them is bad.  A field takes four
bytes at least, so there are no more fields than bytes. -/
def ZipEntry.withFields? (e : ZipEntry) (extra : List UInt8) : Option ZipEntry :=
  match (FieldReader.fields (extra.length + 1)).run (e, extra) with
  | (.error .bad, _) => none
  | (_, (e, _)) => some e

end Loadout
