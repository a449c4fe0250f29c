/-
# Tables in TOML

A document fills a tree of tables, each of which comes about in one of three ways: by
a header of its own, on the way to another header, or by a key with dots.  Arrays of
tables grow by headers in double brackets.

What was written once stays as it is.  A header may give a body to a table that so far
was only passed through.  A key with dots may pass through tables that have no header,
and ends in one that was made by such keys.  Values are closed to both.
-/

import Loadout.Json.Basic

namespace Loadout
namespace Toml

/-- How a table came about. -/
inductive Making where
  | header
  /-- on the way to another header -/
  | passage
  /-- by a key with dots -/
  | dotted
  deriving DecidableEq, Repr

/-- What stands under a key. -/
inductive Item where
  | value (value : Json)
  | table (making : Making) (members : List (String × Item))
  /-- an array of tables, the last one first -/
  | tables (reversed : List (List (String × Item)))

/-- The keys of a table and what stands under them. -/
abbrev Members := List (String × Item)

mutual

/-- The value of an item. -/
def Item.toJson : Item → Json
  | .value j => j
  | .table _ members => .object (membersToJson members)
  | .tables reversed => .array (tablesToJson reversed).reverse

/-- The members of an object. -/
def membersToJson : List (String × Item) → List (Option String × Json)
  | [] => []
  | (key, item) :: rest => (some key, item.toJson) :: membersToJson rest

/-- The items of an array. -/
def tablesToJson : List (List (String × Item)) → List Json
  | [] => []
  | members :: rest => .object (membersToJson members) :: tablesToJson rest

end

namespace Members

/-- `change` applied to what stands under a key. -/
def alter (key : String) (change : Option Item → Option Item) : Members → Option Members
  | [] => (change none).map fun i => [(key, i)]
  | (k, i) :: rest =>
    if k = key then (change (some i)).map fun i => (k, i) :: rest
    else (alter key change rest).map ((k, i) :: ·)

/-- `change` applied to the table at the end of a path of headers; what is missing on
the path is made, and of an array of tables the path leads through the last. -/
def along (change : Members → Option Members) : List String → Members → Option Members
  | [], m => change m
  | key :: path, m =>
    m.alter key fun
      | none => (along change path []).map (.table .passage)
      | some (.table making inner) => (along change path inner).map (.table making)
      | some (.tables (last :: before)) =>
        (along change path last).map fun last => .tables (last :: before)
      | _ => none

/-- Puts a value under a key with dots. -/
def put (value : Json) : List String → Members → Option Members
  | [], _ => none
  | [key], m => m.alter key fun
    | none => some (.value value)
    | some _ => none
  | key :: path, m =>
    m.alter key fun
      | none => (put value path []).map (.table .dotted)
      | some (.table .dotted inner) => (put value path inner).map (.table .dotted)
      | some (.table .passage inner) =>
        if path.length = 1 then none else (put value path inner).map (.table .passage)
      | some (.tables (last :: before)) =>
        if path.length = 1 then none
        else (put value path last).map fun last => .tables (last :: before)
      | _ => none

/-- Opens the table of a header. -/
def openTable (key : String) (m : Members) : Option Members :=
  m.alter key fun
    | none => some (.table .header [])
    | some (.table .passage inner) => some (.table .header inner)
    | _ => none

/-- Opens one more table of an array. -/
def openElement (key : String) (m : Members) : Option Members :=
  m.alter key fun
    | none => some (.tables [[]])
    | some (.tables reversed) => some (.tables ([] :: reversed))
    | _ => none

/-- Opens what a header names: a table, or one more table of an array. -/
def openHeader (isArray : Bool) (path : List String) (m : Members) : Option Members :=
  match path.getLast? with
  | none => none
  | some key => m.along (if isArray then openElement key else openTable key) path.dropLast

end Members
end Toml
end Loadout
