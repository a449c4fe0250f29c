/-
# Failures and warnings

When no selection meets the hard conditions, a *failure* names dependencies that are
to blame and, where one exists, a fix.  When one does, soft conditions that it does
not honour are *warnings*.  Both are put into words here.
-/

import Loadout.Selection.StandIn

namespace Loadout

/-- A dependency that had to be waived. -/
structure Explanation where
  source : ModRef
  dependency : Dependency
  /-- what there is of its target -/
  present : List ModRef
  deriving DecidableEq, Repr

/-- Changes to the mods. -/
structure Fix where
  additions : List StandIn := []
  removals : List ModRef := []
  /-- mods with what takes their place -/
  replacements : List (ModRef × StandIn) := []
  deriving DecidableEq, Repr

namespace Fix

/-- Whether there is no change. -/
def isEmpty (f : Fix) : Bool :=
  f.additions.isEmpty && f.removals.isEmpty && f.replacements.isEmpty

end Fix

/-- Why there is no selection. -/
structure Failure where
  explanations : List Explanation
  fix? : Option Fix
  deriving DecidableEq, Repr

/-- A soft condition that a selection does not honour. -/
inductive Warning where
  /-- nothing meets a recommendation -/
  | missingRecommendation (source : ModRef) (dependency : Dependency) (present : List ModRef)
  /-- a mod is there that another one conflicts with -/
  | conflict (source : ModRef) (dependency : Dependency) (conflicting : ModRef)
  deriving DecidableEq, Repr

namespace Report

/-- The versions of mods that provide a target, with the mod where it is another one. -/
def presentText (target : String) (present : List ModRef) : String :=
  String.intercalate ", " (present.map fun m =>
    if m.identifier = target then m.version.toString
    else m.version.toString ++ " (provided by '" ++ m.identifier ++ "')")

/-- A dependency of a mod, and what there is of its target. -/
def dependencyText (source : ModRef) (d : Dependency) (present : List ModRef) : String :=
  let head := "Mod " ++ source.label ++ " " ++ d.relation.verb ++ " " ++ d.predicate.describe ++
    " of '" ++ d.target ++ "'"
  let found := presentText d.target present
  if !d.relation.isPositive then head ++ ", but " ++ found ++ " is present!"
  else if present.isEmpty then head ++ ", which is missing!"
  else head ++ ", but only the wrong version is present: " ++ found ++ "!"

/-- The lines about a fix. -/
def fixLines (f : Fix) : List String :=
  "A potential solution has been determined:" ::
  f.additions.map (fun a =>
    "  - Install '" ++ a.identifier ++ "', version " ++ a.version.toString ++ ".") ++
  f.replacements.map (fun (old, new) =>
    "  - Replace " ++ old.label ++ " with version " ++ new.version.toString ++ ".") ++
  f.removals.map fun m => "  - Remove mod " ++ m.label ++ "."

/-- The lines about what is to blame. -/
def explanationLines (explanations : List Explanation) : List String :=
  if explanations.isEmpty then
    ["  - The mods contradict each other, but no single dependency is to blame."]
  else explanations.map fun e => "  - " ++ dependencyText e.source e.dependency e.present

/-- The last lines of a report. -/
def adviceLines (fix? : Option Fix) : List String :=
  match fix?.filter fun f => !f.isEmpty with
  | some f => fixLines f
  | none => ["No potential solution could be determined."]

end Report

namespace Failure

/-- The failure in words, over several lines. -/
def description (f : Failure) : String :=
  String.intercalate "\n" ("Unable to resolve the mod set:" ::
    Report.explanationLines f.explanations ++ Report.adviceLines f.fix?)

end Failure

namespace Warning

/-- The warning in words. -/
protected def toString : Warning → String
  | missingRecommendation source d present => Report.dependencyText source d present
  | conflict source d conflicting => Report.dependencyText source d [conflicting]

instance : ToString Warning := ⟨Warning.toString⟩

/-- A line for every warning. -/
def listing (warnings : List Warning) : String :=
  String.intercalate "\n" (warnings.map fun w => "  - " ++ w.toString)

end Warning
end Loadout
