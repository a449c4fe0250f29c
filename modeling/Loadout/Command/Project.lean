/-
# Projects

A project is a directory with a file `kiln.toml`.  The file names directories of mods
and further paths, both relative to it, has the settings in a table of their own, and
may name the host and the runtime that mods are loaded into.  All of it may be
missing.  Commands use the nearest such file, from the working directory upwards.
-/

import Loadout.Discovery.Source
import Loadout.Toml.Reader

namespace Loadout

/-- The host and its runtime as a project names them. -/
structure Host where
  id : String
  version : String
  runtimeId : String
  runtimeVersion : String
  /-- the oldest runtime that the host supports -/
  minRuntime? : Option String
  deriving DecidableEq, Repr

/-- What a project file says. -/
structure Project where
  /-- the directory of the file -/
  directory : String
  mods : List String := []
  classpath : List String := []
  settings : Settings := {}
  host? : Option Host := none
  deriving DecidableEq, Repr

/-- Why a project file cannot be used. -/
inductive ProjectError where
  | unreadable (path reason : String)
  /-- it is no TOML, or not of the shape of a project file -/
  | malformed (path : String)
  deriving DecidableEq, Repr

/-- A version in a project file that is none. -/
structure HostError where
  /-- where it stands in the file -/
  field : String
  text : String
  reason : VersionError
  deriving DecidableEq, Repr

namespace Host

/-- A version in a field. -/
def readVersion (field text : String) : Except HostError Version :=
  (Version.parse text).mapError (HostError.mk field text)

/-- The source with the host and its runtime. -/
def source (h : Host) : Except HostError Source := do
  let least ← h.minRuntime?.mapM (readVersion "host.min_runtime")
  let version ← readVersion "host.version" h.version
  let runtime ← readVersion "host.runtime_version" h.runtimeVersion
  return .host h.id version h.runtimeId runtime least

/-- The host in a record. -/
def ofJson? (j : Json) : Option Host := do
  match ← j.record? ["id", "version", "runtime_id", "runtime_version", "min_runtime"] with
  | [id, version, runtimeId, runtimeVersion, least] =>
    return {
      id := ← Json.required Json.text? id
      version := ← Json.required Json.text? version
      runtimeId := ← Json.required Json.text? runtimeId
      runtimeVersion := ← Json.required Json.text? runtimeVersion
      minRuntime? := ← Json.optional none (fun j => j.text?.map some) least }
  | _ => none

end Host

namespace Project

/-- The name of project files. -/
def fileName : String := "kiln.toml"

/-- A value in which an array has no more than `n` items.  In a project file an array
may stand for a record, and what it has too much does not count. -/
def firstItems (n : Nat) : Json → Json
  | .array l => .array (l.take n)
  | j => j

/-- The project in the value of its file. -/
def ofJson? (directory : String) (j : Json) : Option Project := do
  match ← j.record? ["mods", "classpath", "resolver", "host"] with
  | [mods, classpath, settings, host] =>
    return {
      directory
      mods := ← Json.optional [] Json.texts? mods
      classpath := ← Json.optional [] Json.texts? classpath
      settings := ← Json.optional {} (fun j => Settings.ofJson? (firstItems 5 j)) settings
      host? := ← Json.optional none (fun j => (Host.ofJson? (firstItems 5 j)).map some) host }
  | _ => none

/-- Reads a project file. -/
def read (files : FileTree) (directory path : String) : Except ProjectError Project := do
  let bytes ← (files.read path).mapError fun f => .unreadable path f.message
  match String.fromUTF8? bytes with
  | none => .error (.unreadable path "stream did not contain valid UTF-8")
  | some text => ((Toml.parse? text).bind (ofJson? directory)).elim (.error (.malformed path)) .ok

/-- The project of the innermost of some directories that has one, given by the parts
of their paths in reverse. -/
def findAbove (files : FileTree) : List String → Except ProjectError (Option Project)
  | [] => find []
  | part :: above => do
    match ← find (part :: above) with
    | some p => return some p
    | none => findAbove files above
where
  /-- The project of one directory. -/
  find (reversed : List String) : Except ProjectError (Option Project) :=
    let directory := Path.ofParts reversed.reverse
    let path := Path.join directory fileName
    if files.leads path then (read files directory path).map some else .ok none

/-- The project that a directory belongs to. -/
def find (files : FileTree) (directory : String) : Except ProjectError (Option Project) :=
  findAbove files ((Path.parts directory).filter (· ≠ "")).reverse

/-- The directories of mods. -/
def modDirectories (p : Project) : List String := p.mods.map (Path.join p.directory)

/-- The further paths. -/
def classpathEntries (p : Project) : List String := p.classpath.map (Path.join p.directory)

end Project
end Loadout
