/-
# Records of an archive

An archive is a sequence of bytes in which *records* stand at some places.  A record
starts with a signature of four bytes, the first two of which are `PK`.  Its numbers
have a fixed width and the lowest byte first.
-/

namespace Loadout

/-- The kinds of records. -/
inductive RecordKind where
  /-- what stands before the bytes of an entry -/
  | localHeader
  /-- one entry of the directory -/
  | entry
  /-- where the directory is -/
  | directoryEnd
  /-- where the directory is, in numbers of eight bytes -/
  | wideEnd
  /-- where the end record with wide numbers is -/
  | wideLocator
  deriving DecidableEq, Repr

namespace RecordKind

/-- The two last bytes of a signature. -/
def mark : RecordKind → UInt8 × UInt8
  | localHeader => (3, 4)
  | entry => (1, 2)
  | directoryEnd => (5, 6)
  | wideEnd => (6, 6)
  | wideLocator => (6, 7)

/-- Whether a record of a kind starts at a place. -/
def startsAt (k : RecordKind) (b : ByteArray) (place : Nat) : Bool :=
  b[place]? == some 0x50 && b[place + 1]? == some 0x4b && b[place + 2]? == some k.mark.1 &&
    b[place + 3]? == some k.mark.2

/-- The first of `n` places from a place on at which a record of a kind starts that
meets a condition. -/
def first? (k : RecordKind) (b : ByteArray) (meets : Nat → Bool) (place : Nat) : Nat → Option Nat
  | 0 => none
  | n + 1 =>
    if k.startsAt b place && meets place then some place else k.first? b meets (place + 1) n

end RecordKind

/-- The number in some bytes. -/
def littleEndian (bytes : List UInt8) : Nat := bytes.foldr (fun b n => b.toNat + 256 * n) 0

/-- The number in `n` bytes from a place on. -/
def numberAt? (b : ByteArray) (place : Nat) : Nat → Option Nat
  | 0 => some 0
  | n + 1 => do
    let low ← b[place]?
    let high ← numberAt? b (place + 1) n
    return low.toNat + 256 * high

/-- The bytes from one place up to another, so far as there are any. -/
def slice (b : ByteArray) (start stop : Nat) : ByteArray :=
  b.extract (min start b.size) (min stop b.size)

end Loadout
