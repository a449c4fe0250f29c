/-
# What may be selected, as rules

The candidates of a store, in an order of preference, become rules and an objective
over *choices*: which candidates are selected, and which exceptions are made.  There
are three ways to do this.

* `select` knows hard conditions and recommendations alone.
* `explain` lets every hard dependency be waived, at a cost that comes before all
  else, so that a best model names the dependencies that are to blame.
* `repair` lets roots be removed and stand-ins be added, at a cost.

Choices are numbered in the order in which they come up; candidates come first, in
the order of preference.
-/

import Loadout.Search.Optimize
import Loadout.Selection.StandIn

namespace Loadout

/-- What a model decides. -/
inductive Choice where
  /-- the candidate is selected -/
  | candidate (id : CandidateId)
  /-- recommendations of this identifier go unmet -/
  | unmet (target : String)
  /-- the dependency at this place of a candidate does not count -/
  | waived (source : CandidateId) (index : Nat)
  /-- the stand-in at this place is added -/
  | added (index : Nat)
  /-- the root is removed -/
  | removed (id : CandidateId)
  deriving DecidableEq, Repr

/-- What an encoding is for. -/
inductive Purpose where
  | select
  | explain
  | repair (standIns : List StandIn)
  deriving DecidableEq, Repr

/-- What is to be encoded. -/
structure Instance where
  store : Store
  /-- all candidates, the preferred ones first -/
  order : List CandidateId
  /-- candidates that have to be selected -/
  preselected : List CandidateId
  purpose : Purpose

namespace Instance

/-- The stand-ins that may be added. -/
def standIns (i : Instance) : List StandIn :=
  match i.purpose with
  | .repair l => l
  | _ => []

/-- The candidates in the order of preference. -/
def candidates (i : Instance) : List Candidate := i.store.getAll i.order

/-- Some candidates in the order of preference, as often as they are listed. -/
def arrange (i : Instance) (members : List CandidateId) : List CandidateId :=
  i.order.flatMap fun id => members.filter (· = id)

/-- That a candidate is selected. -/
def selected (id : CandidateId) : Literal Choice := .pos (.candidate id)

/-- The stand-ins of an identifier that meet a condition. -/
def addedLiterals (i : Instance) (identifier : String) (admits : Version → Bool) :
    List (Literal Choice) :=
  (i.standIns.zipIdx.filter fun (a, _) => a.identifier == identifier && admits a.version).map
    fun (_, n) => .pos (.added n)

/-- Everything that provides an identifier. -/
def providerLiterals (i : Instance) (identifier : String) : List (Literal Choice) :=
  (i.arrange (i.store.providers identifier)).map selected ++ i.addedLiterals identifier fun _ => true

/-- Everything that provides the target of a dependency in an admitted version. -/
def matchLiterals (i : Instance) (d : Dependency) (members : List CandidateId) :
    List (Literal Choice) :=
  (i.arrange members).map selected ++ i.addedLiterals d.target d.admits

/-- That a dependency is waived, where that is possible. -/
def waiver (i : Instance) (source : CandidateId) (index : Nat) : List (Literal Choice) :=
  match i.purpose with
  | .explain => [.pos (.waived source index)]
  | _ => []

/-- A selected candidate needs one that meets the dependency. -/
def dependsRule (i : Instance) (source : CandidateId) (d : Dependency) (index : Nat) : Rule Choice :=
  .implication (selected source)
    (i.matchLiterals d (i.store.matching d) ++ i.waiver source index) .depends

/-- A selected candidate would like one that meets the dependency, if there is any. -/
def recommendsRules (i : Instance) (source : CandidateId) (d : Dependency) : List (Rule Choice) :=
  let targets := i.matchLiterals d (i.store.matching d)
  if targets.isEmpty then []
  else [.implication (selected source) (targets ++ [.pos (.unmet d.target)]) .recommends]

/-- A selected candidate rules the others out that match. -/
def breaksRules (i : Instance) (source : CandidateId) (d : Dependency) (index : Nat) :
    List (Rule Choice) :=
  (i.matchLiterals d ((i.store.matching d).filter (· ≠ source))).map fun m =>
    .of ((selected source).flip :: m.flip :: i.waiver source index) .breaks

/-- The rules of one dependency; suggestions and conflicts have none. -/
def dependencyRules (i : Instance) (source : CandidateId) (d : Dependency) (index : Nat) :
    List (Rule Choice) :=
  match d.relation with
  | .depends => [i.dependsRule source d index]
  | .recommends => i.recommendsRules source d
  | .breaks => i.breaksRules source d index
  | .suggests => []
  | .conflicts => []

/-- The rules of all dependencies of a candidate. -/
def dependencyRulesOf (i : Instance) (c : Candidate) : List (Rule Choice) :=
  c.descriptor.dependencies.zipIdx.flatMap fun (d, index) => i.dependencyRules c.id d index

/-- The identifiers that something provides, ascending. -/
def providedKeys (i : Instance) : List String :=
  i.standIns.foldl (fun l a => Group.insertKey a.identifier l) (i.store.groups.map (·.identifier))

/-- One provider at most for an identifier that has several. -/
def exclusionRules (i : Instance) (key : String) : List (Rule Choice) :=
  let members := i.providerLiterals key
  if 1 < members.length then [.atMostOne members] else []

/-- A root that must be loaded: one of the providers of its identifier is, unless
the root is removed. -/
def rootRules (i : Instance) (c : Candidate) : List (Rule Choice) :=
  let providers := i.providerLiterals c.identifier
  match i.purpose, c.isBuiltin with
  | .repair _, false =>
    let removed : Literal Choice := .pos (.removed c.id)
    [.of [removed.flip, (selected c.id).flip] .removal, .of (providers ++ [removed]) .mandatory]
  | _, _ => [.of providers .mandatory]

/-- A nested candidate needs one around it; if it must be loaded, each one around it
needs a provider of its identifier. -/
def nestedRules (i : Instance) (c : Candidate) : List (Rule Choice) :=
  let demands := if c.load = .always
    then c.parents.map fun p => Rule.implication (selected p) (i.providerLiterals c.identifier)
      .nestedAlways
    else []
  demands ++ [.implication (selected c.id) (c.parents.map selected) .containment]

/-- The rules about loading a candidate. -/
def loadRules (i : Instance) (c : Candidate) : List (Rule Choice) :=
  if c.isRoot then (if c.load = .always then i.rootRules c else []) else i.nestedRules c

/-- The rules about dependencies. -/
def allDependencyRules (i : Instance) : List (Rule Choice) :=
  i.candidates.flatMap i.dependencyRulesOf

/-- The rules about loading. -/
def allLoadRules (i : Instance) : List (Rule Choice) := i.candidates.flatMap i.loadRules

/-- The rules about candidates that were asked for. -/
def preselectionRules (i : Instance) : List (Rule Choice) :=
  i.preselected.map fun id => .assertion (selected id) .preselected

/-- All rules in order. -/
def ruleList (i : Instance) : List (Rule Choice) :=
  i.allDependencyRules ++ i.providedKeys.flatMap i.exclusionRules ++ i.allLoadRules ++
    i.preselectionRules

/-- The choices in rules, in order. -/
def atomsOf (rules : List (Rule Choice)) : List Choice :=
  rules.flatMap fun r => r.literals.map (·.atom)

/-- All choices, each at the place where it comes up first.  An identifier brings up
its providers even where there is only one. -/
def choices (i : Instance) : List Choice :=
  (i.order.map Choice.candidate ++ atomsOf i.allDependencyRules ++
    (i.providedKeys.flatMap i.providerLiterals).map (·.atom) ++ atomsOf i.allLoadRules ++
    atomsOf i.preselectionRules).eraseDups

/-- A tier that wants some choices not to be made, each at a cost. -/
def avoid (i : Instance) (cost? : Choice → Option Nat) : List (Literal Choice × Nat) :=
  i.choices.filterMap fun c => (cost? c).map fun n => (.neg c, n)

/-- The tiers that come before the candidates. -/
def purposeTiers (i : Instance) : List (List (Literal Choice × Nat)) :=
  match i.purpose with
  | .select => []
  | .explain =>
    [i.avoid fun
      | .waived _ _ => some 1
      | _ => none]
  | .repair standIns =>
    [i.avoid fun
      | .added _ => some 1
      | .removed _ => some 2
      | _ => none,
     i.choices.filterMap fun
      | .added n => (standIns[n]?).map fun a => (.pos (.added n), rank standIns a + 1)
      | _ => none]
where
  /-- The number of stand-ins of the same identifier with lower versions. -/
  rank (standIns : List StandIn) (a : StandIn) : Nat :=
    (standIns.filter fun b => b.identifier == a.identifier && b.version.below a.version).length

/-- Whether a candidate is loaded only where another one asks for it. -/
def isDeferred (c : Candidate) : Bool := c.load = .ifRecommended

/-- The tiers of what is preferred: first what hard conditions cost, then every
candidate by itself in order, then recommendations, and last that candidates are
left out which nothing asks for. -/
def tiers (i : Instance) : List (List (Literal Choice × Nat)) :=
  i.purposeTiers ++
  (i.candidates.filter fun c => !isDeferred c).map (fun c => [(selected c.id, 1)]) ++
  [i.avoid fun
    | .unmet _ => some 1
    | _ => none] ++
  (i.candidates.filter isDeferred).map fun c => [((selected c.id).flip, 1)]

end Instance

/-- Rules and an objective over numbered choices. -/
structure Encoding where
  /-- the choice with number `n + 1` is at position `n` -/
  choices : List Choice
  rules : RuleSet Choice
  objective : Objective Choice

/-- The encoding of an instance. -/
def Instance.encode (i : Instance) : Encoding :=
  { choices := i.choices, rules := .ofList i.ruleList, objective := .ofTiers i.tiers }

namespace Encoding

/-- The number of a choice. -/
def number (e : Encoding) (c : Choice) : Nat := e.choices.idxOf c + 1

/-- The search for the best model. -/
def problem (e : Encoding) : Search.Problem :=
  { rules := e.rules.map e.number
    variableCount := e.choices.length
    objective := e.objective.map e.number }

/-- The choices that are true in a model. -/
def decode (e : Encoding) (m : Search.Model) : List Choice :=
  (e.choices.zipIdx.filter fun (_, n) => m.value (n + 1)).map (·.1)

end Encoding
end Loadout
