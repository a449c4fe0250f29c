/-
# Trees of files

A tree of files holds files, directories and symbolic links under absolute paths.
Paths in texts are resolved as usual: `.` and empty parts stay, `..` goes up, and a
link is replaced by its target, from the root if that is absolute and else from the
directory of the link.  No more than `linkLimit` links are followed.
-/

namespace Loadout

/-- Why a path cannot be used. -/
inductive FileFault where
  | notFound
  | notDirectory
  | isDirectory
  | tooManyLinks
  deriving DecidableEq, Repr

namespace FileFault

/-- The name of each kind of fault. -/
def kind : FileFault → String
  | notFound => "NotFound"
  | notDirectory => "NotADirectory"
  | isDirectory => "IsADirectory"
  | tooManyLinks => "FilesystemLoop"

/-- The wording of each fault. -/
def message : FileFault → String
  | notFound => "No such file or directory (os error 2)"
  | notDirectory => "Not a directory (os error 20)"
  | isDirectory => "Is a directory (os error 21)"
  | tooManyLinks => "Too many levels of symbolic links (os error 40)"

end FileFault

namespace Path

/-- The parts between the slashes. -/
def parts (path : String) : List String := (path.toList.splitOn '/').map String.ofList

/-- Whether a path starts at the root. -/
def isAbsolute (path : String) : Bool := path.toList.head? == some '/'

/-- A path below another one; an absolute path stands for itself. -/
def join (base path : String) : String :=
  if isAbsolute path then path
  else if base.toList.getLast?.all (· == '/') then base ++ path
  else base ++ "/" ++ path

/-- The absolute path with these parts. -/
def ofParts (parts : List String) : String := "/" ++ String.intercalate "/" parts

/-- The last part of an entry name. -/
def fileName (path : String) : String := (parts path).getLast?.getD path

end Path

/-- What is at a path. -/
inductive Node where
  | file (bytes : ByteArray)
  | directory
  | link (target : String)

/-- Files by the parts of their absolute paths. -/
structure FileTree where
  nodes : List (List String × Node) := []

namespace FileTree

/-- The tree of the root alone. -/
def empty : FileTree := {}

/-- What is at a path without links in it; the root is a directory. -/
def node? (t : FileTree) (place : List String) : Option Node :=
  if place.isEmpty then some .directory else t.nodes.lookup place

/-- The tree with a directory at a place, unless something is there. -/
def addDirectory (t : FileTree) (place : List String) : FileTree :=
  if (t.node? place).isSome then t else ⟨t.nodes ++ [(place, .directory)]⟩

/-- The tree with directories above a place. -/
def addParents (t : FileTree) (place : List String) : FileTree :=
  (List.range place.length).foldl (fun t n => t.addDirectory (place.take n)) t

/-- The tree with a node at a place in place of what was there. -/
def add (t : FileTree) (place : List String) (node : Node) : FileTree :=
  let t := t.addParents place
  ⟨t.nodes.filter (·.1 ≠ place) ++ [(place, node)]⟩

/-- Where a walk along the parts of a path ends. -/
inductive Stop where
  /-- at the end of the path -/
  | here (place : List String)
  /-- at a link, with the directory to go on from and the parts left -/
  | link (place : List String) (rest : List String)
  | fault (fault : FileFault)

/-- Walks along parts of a path up to the first link. -/
def walk (t : FileTree) (place : List String) : List String → Stop
  | [] => .here place
  | part :: rest =>
    match t.node? place with
    | some .directory =>
      if part = "" || part = "." then walk t place rest
      else if part = ".." then walk t place.dropLast rest
      else
        let next := place ++ [part]
        match t.node? next with
        | none => .fault .notFound
        | some (.link target) =>
          .link (if Path.isAbsolute target then [] else place) (Path.parts target ++ rest)
        | some _ => walk t next rest
    | _ => .fault .notDirectory

/-- The number of links that are followed on one path. -/
def linkLimit : Nat := 40

/-- Walks along parts of a path and through links. -/
def follow (t : FileTree) : Nat → List String → List String → Except FileFault (List String)
  | links, place, rest =>
    match t.walk place rest with
    | .here place => .ok place
    | .fault f => .error f
    | .link place rest =>
      match links with
      | 0 => .error .tooManyLinks
      | links + 1 => follow t links place rest

/-- The place that a path leads to. -/
def resolve (t : FileTree) (path : String) : Except FileFault (List String) :=
  if path = "" then .error .notFound else t.follow linkLimit [] (Path.parts path)

/-- What a path leads to. -/
def find (t : FileTree) (path : String) : Except FileFault Node := do
  let place ← t.resolve path
  (t.node? place).elim (.error .notFound) .ok

/-- Whether a path leads to a directory. -/
def isDirectory (t : FileTree) (path : String) : Bool :=
  match t.find path with
  | .ok .directory => true
  | _ => false

/-- Whether a path leads to a file. -/
def isFile (t : FileTree) (path : String) : Bool :=
  match t.find path with
  | .ok (.file _) => true
  | _ => false

/-- Whether a path leads to anything. -/
def leads (t : FileTree) (path : String) : Bool := (t.find path).toBool

/-- The bytes of the file that a path leads to. -/
def read (t : FileTree) (path : String) : Except FileFault ByteArray := do
  match ← t.find path with
  | .file bytes => return bytes
  | _ => .error .isDirectory

/-- The path without links that leads to the same place. -/
def canonical (t : FileTree) (path : String) : Except FileFault String :=
  (t.resolve path).map Path.ofParts

/-- The names in the directory at a place, ascending. -/
def names (t : FileTree) (place : List String) : List String :=
  (t.nodes.filterMap fun (p, _) =>
    if p.dropLast = place then p.getLast? else none).mergeSort fun a b => (compare a b).isLE

end FileTree
end Loadout
