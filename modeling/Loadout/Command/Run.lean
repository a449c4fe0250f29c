/-
# The command

`run` does what a command line asks for: it resolves the mods of a project and lists
them, each indented by its depth.  What is worth a warning and what was skipped goes
to the error output, and so does the one error that ends a run.

The exit code is 0 for a list of mods, for help and for the version, 1 for an error,
and 2 for a wrong command line.
-/

import Loadout.Command.Line
import Loadout.Command.Project
import Loadout.LoadSet

namespace Loadout
namespace Command

/-- What a run leaves behind. -/
structure Report where
  code : Nat
  output : String := ""
  errors : String := ""
  deriving DecidableEq, Repr

/-- Why a run ends. -/
inductive RunError where
  | directory (fault : FileFault)
  | project (error : ProjectError)
  | host (error : HostError)
  | resolve (error : ResolveError)
  deriving DecidableEq, Repr

/-- Lines as they are printed. -/
def printed (lines : List String) : String := String.join (lines.map (· ++ "\n"))

namespace RunError

/-- The wording of each error, with its cause where there is one. -/
def lines : RunError → List String
  | directory fault => ["Failed to resolve working directory", cause fault.message]
  | project (.unreadable path reason) => ["Failed to read " ++ path, cause reason]
  | project (.malformed path) => ["Failed to parse " ++ path]
  | host e =>
    ["Invalid " ++ e.field ++ " \"" ++ e.text ++ "\" in " ++ Project.fileName,
      cause e.reason.message]
  | resolve e => [e.message]
where
  /-- The line about a cause. -/
  cause (text : String) : String := "  Caused by: " ++ text

/-- The report of an error. -/
def report (e : RunError) : Report := { code := 1, errors := "Error: " ++ printed e.lines }

end RunError

/-- The settings of a project with what a command line says instead. -/
def settingsFor (o : Options) (project? : Option Project) : Settings :=
  let s := (project?.map (·.settings)).getD {}
  { s with
    discoveryTimeout := o.discoveryTimeout?.getD s.discoveryTimeout
    solverTimeout := o.solverTimeout?.getD s.solverTimeout
    workers? := o.workers?.or s.workers? }

/-- The directories of mods: those of the command line, else those of the project, else
the usual one. -/
def modDirectories (o : Options) (directory : String) (project? : Option Project) : List String :=
  if !o.mods.isEmpty then o.mods.map (Path.join directory)
  else
    match (project?.map Project.modDirectories).getD [] with
    | [] => [Path.join directory "mods"]
    | directories => directories

/-- The sources of a command line: the host, the directories of mods, and all further
paths as one. -/
def sourcesFor (o : Options) (directory : String) (project? : Option Project) :
    Except HostError (List Source) := do
  let host ← ((project?.bind (·.host?)).toList).mapM Host.source
  let mods := (modDirectories o directory project?).map fun d => Source.directory d o.remap
  let classpath := ((project?.map Project.classpathEntries).getD []) ++
    o.classpath.map (Path.join directory)
  return host ++ mods ++ [.explicit (classpath.map (·, false))]

/-- A mod in the list. -/
def modLine (c : Candidate) : String :=
  let place := if c.isBuiltin then "builtin" else c.location.toString
  "  " ++ String.join (List.replicate c.depth "  ") ++ c.identifier ++ " " ++ c.version.toString ++
    " (" ++ place ++ ")"

/-- The report of a load set. -/
def loadSetReport (l : LoadSet) : Report :=
  let warnings := if l.warnings.isEmpty then [] else ["Warnings:", Warning.listing l.warnings]
  let skipped := if l.skipped.isEmpty then [] else
    "Skipped:" :: l.skipped.map fun s => "  - " ++ s.toString
  { code := 0
    output := printed (("Success: Resolved " ++ Nat.repr l.size ++ " mods") :: l.mods.map modLine)
    errors := printed (warnings ++ skipped) }

/-- Resolves the mods that options ask for. -/
def resolveMods (files : FileTree) (reader : ArchiveReader) (current : String) (o : Options) :
    Except RunError LoadSet := do
  let directory ← (files.canonical (Path.join current (o.workingDirectory?.getD "."))).mapError
    .directory
  let project? ← (Project.find files directory).mapError .project
  let sources ← (sourcesFor o directory project?).mapError .host
  (resolve files reader (settingsFor o project?) sources o.preselect).mapError .resolve

/-- What help says. -/
def helpLines : List String :=
  ["Resolve the set of mods to load", "",
    "Usage: kiln [OPTIONS] <COMMAND>", "",
    "Commands:",
    "  resolve  Discover, solve and print the mods to load",
    "  help     Print this message", "",
    "Options:",
    "  -v, --verbose                    More log output, any number of times",
    "  -h, --help                       Print this message",
    "  -V, --version                    Print the version", "",
    "Options of resolve:",
    "  -m, --mods <DIR>                 Mods directory, any number of times",
    "      --classpath <PATH>           Archive or directory to load as well",
    "      --remap                      The mods of the mods directories need remapping",
    "  -p, --preselect <ID>             Mod that must be part of the result",
    "      --discovery-timeout <SECS>   Bound on discovery in seconds",
    "      --solver-timeout <SECS>      Bound on solving in seconds",
    "      --workers <N>                Number of discovery workers",
    "  -d, --working-dir <DIR>          Working directory"]

/-- Does what the words of a command line ask for. -/
def run (files : FileTree) (reader : ArchiveReader) (current : String) (words : List String) :
    Report :=
  match readWords words with
  | .error e => { code := 2, errors := printed ["error: " ++ e.message] }
  | .ok .help => { code := 0, output := printed helpLines }
  | .ok .version => { code := 0, output := printed ["kiln 0.0.1"] }
  | .ok (.resolve o) =>
    match resolveMods files reader current o with
    | .error e => e.report
    | .ok l => loadSetReport l

end Command
end Loadout
