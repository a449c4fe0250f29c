/-
# Unusable mods

What makes a set of mods unusable as a whole, as opposed to a file that cannot be
read and is passed over.  A bad identifier that were passed over in silence would
come back as a dependency that nothing meets.
-/

namespace Loadout

/-- A mod that must not be there. -/
inductive ConfigError where
  | invalidIdentifier (id location : String)
  | invalidAlias (id provided location : String)
  /-- `unread` is the text of a descriptor that is no record at all: two of them are two
  faults, though they are worded alike -/
  | malformedDescriptor (location reason unread : String)
  /-- two roots of one identifier with different versions -/
  | duplicateRoot (id first firstLocation second secondLocation : String)
  deriving DecidableEq, Repr

namespace ConfigError

/-- The wording of each error. -/
def message : ConfigError → String
  | invalidIdentifier id location =>
    "Mod at " ++ location ++ " has invalid identifier \"" ++ id ++ "\""
  | invalidAlias id provided location =>
    "Mod \"" ++ id ++ "\" at " ++ location ++ " provides invalid identifier \"" ++ provided ++ "\""
  | malformedDescriptor location reason _ =>
    "Malformed mod descriptor at " ++ location ++ ": " ++ reason
  | duplicateRoot id first firstLocation second secondLocation =>
    "Mod \"" ++ id ++ "\" is present more than once: version " ++ first ++ " at " ++
      firstLocation ++ " and version " ++ second ++ " at " ++ secondLocation

/-- The text of a descriptor that is no record. -/
def unread : ConfigError → String
  | malformedDescriptor _ _ text => text
  | _ => ""

/-- The order of errors: by wording. -/
def compareWording (a b : ConfigError) : Ordering :=
  (compare a.message b.message).then (compare a.unread b.unread)

end ConfigError
end Loadout
