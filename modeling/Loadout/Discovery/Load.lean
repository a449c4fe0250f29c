/-
# Loading mods

A mod is an archive or a directory that has a descriptor under the usual name.  To
*load* one is to read that descriptor.  What has none is no mod, which is no fault;
a directory without one may still serve as a path to look for classes in.
-/

import Loadout.Archive.Reader
import Loadout.Descriptor.Reader
import Loadout.Files.Tree

namespace Loadout

/-- What a mod is read from. -/
inductive Container where
  | archive (bytes : ByteArray)
  | directory (path : String)

/-- What loading yields. -/
inductive Loaded where
  | found (descriptor : Descriptor) (container : Container)
  /-- an archive without a descriptor -/
  | noDescriptor
  /-- a directory without one -/
  | directoryOnly

/-- Why a mod cannot be loaded.  A descriptor that is there but wrong is graver than a
container that cannot be read. -/
inductive LoadError where
  | unreadable (reason : String)
  | malformed (error : DescriptorError)
  deriving DecidableEq, Repr

namespace Container

/-- The wording of what is wrong with an archive as a whole. -/
def invalidArchive (reason : String) : String := "invalid archive: " ++ reason

/-- The descriptor in a text. -/
def readDescriptor (text : String) : Except LoadError Descriptor :=
  (Descriptor.parse text).mapError .malformed

/-- Loads the archive in some bytes. -/
def loadArchive (reader : ArchiveReader) (descriptorName : String) (bytes : ByteArray) :
    Except LoadError Loaded :=
  match reader.readText bytes descriptorName with
  | .error .missing => .ok .noDescriptor
  | .error (.broken fault) => .error (.unreadable fault.message)
  | .error fault => .error (.unreadable (invalidArchive fault.message))
  | .ok text => do return .found (← readDescriptor text) (.archive bytes)

/-- Loads a directory. -/
def loadDirectory (files : FileTree) (descriptorName path : String) : Except LoadError Loaded :=
  let file := Path.join path descriptorName
  if !files.isFile file then .ok .directoryOnly
  else
    match files.read file with
    | .error fault => .error (.unreadable fault.message)
    | .ok bytes =>
      match String.fromUTF8? bytes with
      | none => .error (.unreadable ReadFault.notText.message)
      | some text => do return .found (← readDescriptor text) (.directory path)

/-- Loads what is at a path. -/
def loadPath (files : FileTree) (reader : ArchiveReader) (descriptorName path : String) :
    Except LoadError Loaded :=
  if files.isDirectory path then loadDirectory files descriptorName path
  else
    match files.read path with
    | .error fault => .error (.unreadable fault.message)
    | .ok bytes => loadArchive reader descriptorName bytes

/-- The bytes of a nested archive, or the reason why they cannot be read. -/
def nestedBytes (files : FileTree) (reader : ArchiveReader) (c : Container) (entry : String) :
    Except String ByteArray :=
  match c with
  | directory path => (files.read (Path.join path entry)).mapError (·.message)
  | archive bytes =>
    match reader.read bytes entry with
    | .ok bytes => .ok bytes
    | .error (.notArchive reason) => .error (invalidArchive reason)
    | .error (.broken fault) => .error fault.message
    | .error fault => .error ("cannot open nested entry: " ++ fault.message)

end Container
end Loadout
