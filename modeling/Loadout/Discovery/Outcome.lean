/-
# Discovery

`discover` lists the sources, walks over their items and settles the depths.  A
source that cannot be listed is skipped as a whole.  Errors about mods come out
together, in the order of their wording and each once.
-/

import Loadout.Discovery.Walk
import Loadout.Store.Depth

namespace Loadout

/-- What discovery finds. -/
structure Discovery where
  store : Store
  archives : ArchiveStore
  /-- by location -/
  skipped : List Skipped
  /-- by location -/
  unmatched : List Unmatched

/-- Why discovery fails. -/
inductive DiscoveryError where
  /-- mods that must not be there -/
  | configuration (errors : List ConfigError)
  | timedOut (seconds : Nat)
  deriving DecidableEq, Repr

namespace DiscoveryError

/-- The wording of each error. -/
def message : DiscoveryError → String
  | configuration errors =>
    "Invalid mod configuration:\n" ++
      String.intercalate "\n" (errors.map fun e => "  - " ++ e.message)
  | timedOut seconds => "Mod discovery did not finish within " ++ Settings.limitText seconds

end DiscoveryError

namespace Discovery

/-- The items of all sources, with the sources that cannot be listed. -/
def listSources (files : FileTree) (s : Settings) :
    List Source → List SourceItem × List Skipped
  | [] => ([], [])
  | source :: rest =>
    let (items, skipped) := listSources files s rest
    match source.items files s with
    | .ok found => (found ++ items, skipped)
    | .error fault => (items, ⟨source.name, fault.message⟩ :: skipped)

/-- A list without the elements that equal the one before. -/
def dropRepeated {α : Type} [DecidableEq α] : List α → List α
  | a :: b :: rest => if a = b then dropRepeated (b :: rest) else a :: dropRepeated (b :: rest)
  | l => l

/-- Errors by wording, each once. -/
def sortErrors (errors : List ConfigError) : List ConfigError :=
  dropRepeated (errors.mergeSort fun a b => (a.compareWording b).isLE)

/-- What becomes of the findings of a walk. -/
def ofFindings (skipped : List Skipped) (f : Findings) : Except DiscoveryError Discovery :=
  if !f.errors.isEmpty then .error (.configuration (sortErrors f.errors))
  else .ok {
    store := f.store.settleDepths
    archives := f.archives
    skipped := (skipped ++ f.skipped).mergeSort fun a b => (compare a.location b.location).isLE
    unmatched := f.unmatched.mergeSort fun a b => (compare a.location b.location).isLE }

end Discovery

/-- Finds all mods of some sources, if there is time for that. -/
def discover (files : FileTree) (reader : ArchiveReader) (s : Settings) (sources : List Source) :
    Except DiscoveryError Discovery :=
  let (items, skipped) := Discovery.listSources files s sources
  match Discovery.findAll (.of files reader s.descriptorName) s.discoveryTimeout items with
  | none => .error (.timedOut s.discoveryTimeout)
  | some f => Discovery.ofFindings skipped f

end Loadout
