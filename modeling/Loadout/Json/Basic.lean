/-
# JSON values

The values of JSON, with the distinctions that reading typed data from them
needs:

- a string literal may hold half of a surrogate pair, and is then no text; this is
  a fault only where the string is used, so such a literal is a value without text;
- a number matters only as a natural number of 64 bits written in plain digits,
  and any other number is a value without one;
- members of an object stand in the order of the text, with repetitions.
-/

namespace Loadout

/-- A JSON value. -/
inductive Json where
  | null
  | bool (value : Bool)
  /-- the value, where it is written in digits alone and fits 64 bits -/
  | number (natural? : Option Nat)
  /-- the text, unless the literal holds half of a surrogate pair -/
  | string (text? : Option String)
  | array (items : List Json)
  | object (members : List (Option String × Json))
  deriving Repr

namespace Json

/-- The text of a string. -/
def text? : Json → Option String
  | string t => t
  | _ => none

/-- The value of a natural number of 64 bits. -/
def natural? : Json → Option Nat
  | number n => n
  | _ => none

/-- The items of an array. -/
def items? : Json → Option (List Json)
  | array l => some l
  | _ => none

/-- A list of texts. -/
def texts? (j : Json) : Option (List String) := j.items?.bind fun l => l.mapM text?

/-- A value that may be `null`. -/
def nullable? {α : Type} (read : Json → Option α) : Json → Option (Option α)
  | null => some none
  | j => (read j).map some

/-- The constructor without fields that a string names; `{"name": null}` names it too. -/
def name? : Json → Option String
  | string t => t
  | object [(some t, null)] => some t
  | _ => none

/-- The values of the named fields of a record, none for a missing field.  A record
is an object in which no field occurs twice, members with other names being
passed over, or an array of the values of its first fields in order. -/
def record? (fields : List String) : Json → Option (List (Option Json))
  | object members =>
    if members.all (·.1.isSome) &&
        fields.all (fun f => (members.filter (·.1 = some f)).length ≤ 1)
    then some (fields.map fun f => (members.find? (·.1 = some f)).map (·.2))
    else none
  | array items =>
    if items.length ≤ fields.length
    then some (items.map some ++ List.replicate (fields.length - items.length) none)
    else none
  | _ => none

/-- `entries` with the value of `key` replaced, or with `key` added at the end. -/
def putEntry {α : Type} (entries : List (String × α)) (key : String) (value : α) :
    List (String × α) :=
  if entries.any (·.1 = key) then entries.map fun e => if e.1 = key then (key, value) else e
  else entries ++ [(key, value)]

/-- The entries of an object; a repeated key keeps its first place and its last value. -/
def map? {α : Type} (read : Json → Option α) : Json → Option (List (String × α))
  | object members =>
    members.foldlM (fun entries (key?, j) => do return putEntry entries (← key?) (← read j)) []
  | _ => none

/-- A field that has to be there. -/
def required {α : Type} (read : Json → Option α) (field? : Option Json) : Option α :=
  field?.bind read

/-- A field that may be missing, and then has the default value. -/
def optional {α : Type} (default : α) (read : Json → Option α) : Option Json → Option α
  | none => some default
  | some j => read j

end Json
end Loadout
