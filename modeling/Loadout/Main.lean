/-
# The program

Commands see files as a tree that does not change.  Before a command runs, the part of
the disk that it can ask for is read into such a tree: what leads to the working
directory, the project files above it, and all that lies in the directories of mods and
in the further paths.
-/

import Loadout.Archive.Zip
import Loadout.Command.Run

namespace Loadout
namespace Snapshot

/-- The target given to a link that leads nowhere: no file has this name. -/
def nowhere : String := "\x00"

/-- The path without links that leads to the same place, if there is one. -/
def real? (path : String) : IO (Option String) := do
  try return some (← IO.FS.realPath path).toString
  catch _ => return none

/-- What is at a path without links. -/
def node? (path : String) : IO (Option Node) := do
  try
    match (← (← IO.FS.realPath path).metadata).type with
    | .dir => return some .directory
    | .file => return some (.file (← IO.FS.readBinFile path))
    | _ => return none
  catch _ => return none

/-- The parts of a path that name something. -/
def namedParts (path : String) : List String := (Path.parts path).filter (· ≠ "")

/-- Takes what leads along a path into a tree, with the place where it leads. -/
partial def follow (t : FileTree) (place : List String) :
    List String → IO (FileTree × Option (List String))
  | [] => return (t, some place)
  | part :: rest => do
    if part = "" || part = "." then follow t place rest
    else if part = ".." then follow t place.dropLast rest
    else
      let next := place ++ [part]
      let path := Path.ofParts next
      match ← real? path with
      | none => return (t, none)
      | some real =>
        if real != path then
          follow (t.add next (.link real)) [] (namedParts real ++ rest)
        else
          match ← node? path with
          | some .directory => follow (t.addParents (next ++ [""])) next rest
          | some node => follow (t.add next node) next rest
          | none => return (t, none)

/-- The names in a directory. -/
def names (place : List String) : IO (List String) := do
  try
    let entries ← (← IO.FS.realPath (Path.ofParts place)).readDir
    return entries.toList.map (·.fileName)
  catch _ => return []

/-- Takes all that lies below places into a tree, but for what is `done`. -/
partial def below (t : FileTree) (done : List (List String)) : List (List String) → IO FileTree
  | [] => return t
  | place :: others => do
    if done.contains place then below t done others
    else
      let mut t := t
      let mut found := []
      for name in ← names place do
        match ← follow t place [name] with
        | (t', some inner) =>
          t := t'
          found := inner :: found
        | (t', none) => t := t'.add (place ++ [name]) (.link nowhere)
      below t (place :: done) (found ++ others)

/-- Takes a path and all that lies below it into a tree. -/
def take (t : FileTree) (path : String) : IO FileTree := do
  match ← follow t [] (Path.parts path) with
  | (t, some place) => below t [] [place]
  | (t, none) => return t

/-- All directories from a path up to the root. -/
def upwards (parts : List String) : List String :=
  (List.range (parts.length + 1)).map fun n => Path.ofParts (parts.take n)

/-- What a command can ask for. -/
def ofOptions (current : String) (o : Command.Options) : IO FileTree := do
  let path := Path.join current (o.workingDirectory?.getD ".")
  let (t, _) ← follow .empty [] (Path.parts path)
  match t.canonical path with
  | .error _ => return t
  | .ok directory =>
    let t ← (upwards (namedParts directory)).foldlM (fun t d => do
      return (← follow t [] (Path.parts (Path.join d Project.fileName))).1) t
    match Project.find t directory with
    | .error _ => return t
    | .ok project? =>
      let classpath := ((project?.map Project.classpathEntries).getD []) ++
        o.classpath.map (Path.join directory)
      (Command.modDirectories o directory project? ++ classpath).foldlM take t

/-- What a command line can ask for. -/
def ofWords (current : String) (words : List String) : IO FileTree :=
  match Command.readWords words with
  | .ok (.resolve o) => ofOptions current o
  | _ => return .empty

end Snapshot
end Loadout

/-- Runs the command that the arguments ask for. -/
def main (arguments : List String) : IO UInt32 := do
  let current := (← IO.FS.realPath ".").toString
  let files ← Loadout.Snapshot.ofWords current arguments
  let report := Loadout.Command.run files Loadout.Zip.reader current arguments
  (← IO.getStdout).putStr report.output
  (← IO.getStderr).putStr report.errors
  return UInt32.ofNat report.code
