/-
# Sources

Mods come from *sources*: a directory of mods, paths that are given one by one, and
mods that stand for the host and need no content.  A source yields *items* in a
fixed order.  A directory yields the unpacked mods and the archives right in it, by
name; it yields nothing if it is not there, and fails as a whole if a link in it
leads nowhere or back to it.
-/

import Loadout.Descriptor.Basic
import Loadout.Content.Store
import Loadout.Files.Tree
import Loadout.Settings

namespace Loadout

/-- Where a mod may be. -/
inductive Origin where
  | path (path : String)
  | builtin (descriptor : Descriptor)
  deriving DecidableEq, Repr

/-- What a source yields. -/
structure SourceItem where
  origin : Origin
  /-- whether the content, and that of all mods in it, needs remapping before use -/
  remap : Bool
  deriving DecidableEq, Repr

/-- Where mods come from. -/
inductive Source where
  | directory (path : String) (remap : Bool)
  /-- paths, each with whether it needs remapping -/
  | explicit (paths : List (String × Bool))
  | builtin (mods : List Descriptor)
  deriving DecidableEq, Repr

/-- Why a directory cannot be listed. -/
inductive ListingFault where
  | file (path : String) (fault : FileFault)
  /-- a link in a directory leads to that directory -/
  | loop (child ancestor : String)
  deriving DecidableEq, Repr

namespace ListingFault

/-- The wording of each fault. -/
def message : ListingFault → String
  | file path fault => "IO error for operation on " ++ path ++ ": " ++ fault.message
  | loop child ancestor =>
    "File system loop found: " ++ child ++ " points to an ancestor " ++ ancestor

end ListingFault

namespace Source

/-- The mods of a host and the runtime that it runs on, of which it may need some
version at least. -/
def host (id : String) (version : Version) (runtimeId : String) (runtimeVersion : Version)
    (minRuntime? : Option Version) : Source :=
  let needs (v : Version) : Dependency := ⟨.depends, runtimeId, ⟨[.greaterOrEqual v]⟩⟩
  builtin [{ id, version, dependencies := minRuntime?.toList.map needs },
    { id := runtimeId, version := runtimeVersion }]

/-- The name of a source in messages. -/
def name : Source → String
  | directory path _ => "directory (" ++ path ++ ")"
  | explicit _ => "explicit"
  | builtin _ => "builtin"

/-- Whether a file is an archive of mods, by its extension. -/
def isArchiveName (s : Settings) (name : String) : Bool :=
  (ArchiveStore.splitExtension? name.toList).any fun (_, extension) =>
    s.isArchiveExtension (String.ofList extension)

/-- Whether an entry of a directory of mods counts. -/
def isListed (s : Settings) (name : String) (node : Node) : Bool :=
  name.toList.head? != some '.' &&
    match node with
    | .directory => true
    | .file _ => isArchiveName s name
    | .link _ => false

/-- What an entry of the directory at a place leads to. -/
def entryNode (files : FileTree) (path : String) (place : List String) (name : String) :
    Except ListingFault Node := do
  let child := Path.join path name
  let node ← (files.find child).mapError (.file child)
  if (files.resolve child).toOption = some place then .error (.loop child path) else return node

/-- The paths in a directory of mods that count. -/
def listDirectory (files : FileTree) (s : Settings) (path : String) :
    Except ListingFault (List String) :=
  match files.resolve path with
  | .error _ => .ok []
  | .ok place => do
    let nodes ← (files.names place).mapM fun name => do
      return (name, ← entryNode files path place name)
    return (nodes.filter fun (name, node) => isListed s name node).map fun (name, _) =>
      Path.join path name

/-- The items of a source. -/
def items (files : FileTree) (s : Settings) : Source → Except ListingFault (List SourceItem)
  | directory path remap => do
    return (← listDirectory files s path).map fun p => ⟨.path p, remap⟩
  | explicit paths => .ok (paths.map fun (p, remap) => ⟨.path p, remap⟩)
  | builtin mods => .ok (mods.map fun d => ⟨.builtin d, false⟩)

end Source
end Loadout
