/-
# Reading descriptors

A descriptor is a JSON record in one of two layouts, told apart by the field
`schemaVersion`; a record without it has the older one.

- Layout 1 has the fields `id`, `version`, `provides`, one map from identifiers to
  predicates for each relation, `nested` with records of one field `file`, and
  `loadCondition`.
- Layout 0 has `id`, `version`, `requires` (hard dependencies), `conflicts` (hard
  incompatibilities) and `nested` with plain paths.

A predicate is one text or a list of alternatives.  All fields but `id` and
`version` may be missing.  When several things are wrong, the shape of the record
is looked at first, then the predicates in the order of the relations, then the
version.
-/

import Loadout.Descriptor.Basic
import Loadout.Json.Reader

namespace Loadout

/-- Why a text is no descriptor. -/
inductive DescriptorError where
  /-- the text is no JSON text, or not of the shape of a descriptor -/
  | json (text : String)
  | unsupportedSchema (schema : Nat)
  | version (error : VersionError)
  | predicate (target : String) (error : VersionError)
  deriving DecidableEq, Repr

namespace DescriptorError

/-- The wording of each error. -/
def message : DescriptorError → String
  | json _ => "Failed to parse JSON"
  | unsupportedSchema n => "Unsupported schema version " ++ Nat.repr n
  | version e => "Invalid version: " ++ e.message
  | predicate target e => "Invalid version predicate for \"" ++ target ++ "\": " ++ e.message

/-- The text that cannot be read, where the wording leaves open what is wrong with it. -/
def unread : DescriptorError → String
  | json text => text
  | _ => ""

end DescriptorError

namespace Descriptor

/-- A predicate as it is written: one text, or alternatives. -/
inductive PredicateText where
  | one (text : String)
  | alternatives (texts : List String)
  deriving DecidableEq, Repr

namespace PredicateText

/-- The written predicate of a JSON value. -/
def ofJson? (j : Json) : Option PredicateText :=
  match j with
  | .string t => t.map one
  | j => j.texts?.map alternatives

/-- The predicate. -/
def parse : PredicateText → Except VersionError Predicate
  | one t => Predicate.parse t
  | alternatives l => Predicate.parseAll l

end PredicateText

/-- The written predicates of one relation, by target. -/
abbrev Edges := List (String × PredicateText)

/-- The dependencies of one relation. -/
def readEdges (relation : Relation) (edges : Edges) : Except DescriptorError (List Dependency) :=
  edges.mapM fun (target, text) =>
    match text.parse with
    | .ok predicate => .ok ⟨relation, target, predicate⟩
    | .error e => .error (.predicate target e)

/-- A record of either layout, with all texts as they are written. -/
structure Written where
  id : String
  version : String
  provides : List String
  edges : List (Relation × Edges)
  nested : List String
  load? : Option LoadCondition
  schema : Nat
  deriving Repr

/-- The descriptor of a record. -/
def Written.read (w : Written) : Except DescriptorError Descriptor := do
  let dependencies ← w.edges.mapM fun (relation, edges) => readEdges relation edges
  let version ← (Version.parse w.version).mapError .version
  return { id := w.id, version, provides := w.provides, dependencies := dependencies.flatten,
           nested := w.nested, load? := w.load?, schema := w.schema }

/-- An optional map from identifiers to predicates. -/
def edges? : Option Json → Option Edges := Json.optional [] (Json.map? PredicateText.ofJson?)

/-- A record of layout 1. -/
def current? (j : Json) : Option Written := do
  match ← j.record? ["id", "version", "provides", "depends", "recommends", "suggests", "conflicts",
      "breaks", "nested", "loadCondition"] with
  | [id, version, provides, depends, recommends, suggests, conflicts, breaks, nested, load] =>
    let entry (j : Json) : Option String := do
      match ← j.record? ["file"] with
      | [file] => Json.required Json.text? file
      | _ => none
    return {
      id := ← Json.required Json.text? id
      version := ← Json.required Json.text? version
      provides := ← Json.optional [] Json.texts? provides
      edges := [(.depends, ← edges? depends), (.recommends, ← edges? recommends),
        (.suggests, ← edges? suggests), (.conflicts, ← edges? conflicts), (.breaks, ← edges? breaks)]
      nested := ← Json.optional [] (fun j => j.items?.bind (·.mapM entry)) nested
      load? := ← Json.optional none (Json.nullable? fun j => j.name?.bind LoadCondition.ofName?) load
      schema := 1 }
  | _ => none

/-- A record of layout 0. -/
def legacy? (j : Json) : Option Written := do
  match ← j.record? ["id", "version", "requires", "conflicts", "nested"] with
  | [id, version, requires, conflicts, nested] =>
    return {
      id := ← Json.required Json.text? id
      version := ← Json.required Json.text? version
      provides := []
      edges := [(.depends, ← edges? requires), (.breaks, ← edges? conflicts)]
      nested := ← Json.optional [] Json.texts? nested
      load? := none
      schema := 0 }
  | _ => none

/-- The layout that a record claims to have. -/
def schema? (j : Json) : Option Nat := do
  match ← j.record? ["schemaVersion"] with
  | [field] => Json.optional 0 Json.natural? field
  | _ => none

/-- The record in the JSON value of a text. -/
def written (text : String) (j : Json) : Except DescriptorError Written :=
  match schema? j with
  | none => .error (.json text)
  | some 0 => (legacy? j).elim (.error (.json text)) .ok
  | some 1 => (current? j).elim (.error (.json text)) .ok
  | some n => .error (.unsupportedSchema n)

/-- Reads a descriptor from JSON text. -/
def parse (text : String) : Except DescriptorError Descriptor :=
  match Json.parse? text with
  | none => .error (.json text)
  | some j => written text j >>= Written.read

end Descriptor
end Loadout
