/-
# Settings

How long discovery and solving may take, how many workers discovery uses, and what
a mod looks like on disk.  Settings are read from a JSON record, in which every
field may be missing.
-/

import Loadout.Json.Reader

namespace Loadout

/-- The settings of one resolution. -/
structure Settings where
  /-- bound on the whole of discovery, in seconds -/
  discoveryTimeout : Nat := 30
  /-- bound on solving and on the analysis of a failure, in seconds -/
  solverTimeout : Nat := 30
  /-- none leaves the number of workers to the machine -/
  workers? : Option Nat := none
  /-- the file that holds a descriptor -/
  descriptorName : String := "kiln.mod.json"
  /-- extensions of files that are taken for archives of mods -/
  archiveExtensions : List String := ["jar", "zip"]
  deriving DecidableEq, Repr

namespace Settings

/-- A time limit in words. -/
def limitText (seconds : Nat) : String := if seconds = 0 then "0ns" else Nat.repr seconds ++ "s"

/-- A requested number of workers, at least one. -/
def workerCount? (s : Settings) : Option Nat := s.workers?.map (max 1)

/-- Whether two texts differ in the case of ASCII letters alone. -/
def sameLetters (a b : String) : Bool := a.toLower == b.toLower

/-- Whether files with an extension are archives of mods. -/
def isArchiveExtension (s : Settings) (extension : String) : Bool :=
  s.archiveExtensions.any (sameLetters · extension)

/-- The settings of a record. -/
def ofJson? (j : Json) : Option Settings := do
  match ← j.record? ["discovery_timeout_secs", "solver_timeout_secs", "worker_threads",
      "descriptor_name", "archive_extensions"] with
  | [discovery, solver, workers, name, extensions] =>
    let usual : Settings := {}
    return {
      discoveryTimeout := ← Json.optional usual.discoveryTimeout Json.natural? discovery
      solverTimeout := ← Json.optional usual.solverTimeout Json.natural? solver
      workers? := ← Json.optional usual.workers? (Json.nullable? Json.natural?) workers
      descriptorName := ← Json.optional usual.descriptorName Json.text? name
      archiveExtensions := ← Json.optional usual.archiveExtensions Json.texts? extensions }
  | _ => none

/-- Reads settings from JSON text. -/
def parse? (text : String) : Option Settings := Json.parse? text >>= ofJson?

end Settings
end Loadout
