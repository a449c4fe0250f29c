/-
# Choices and what they cost

A choice that comes up in an instance is about something (`Instance.Occurs`): a waiver is
about a dependency that is hard, an addition about one of the stand-ins, a removal about a
root that must be loaded and has content (`Instance.Grounded.occurs`).  So there are no more
choices of a sort than there are dependencies, stand-ins and candidates.

A tier that wants choices not to be made is worth what they cost together but for what is
spent on those that are made (`Instance.weigh_avoid`).  Costs fit a word where dependencies
can be counted in one, and stand-ins and candidates in half of one
(`Instance.Grounded.fits`).  An at-most-one rule has one literal only where a group lists a
candidate twice that nothing else stands beside (`Instance.exists_repeated_of_short`); where no
group lists a member twice it is about two offers at least (`Instance.wide`).  This is what the
search asks of an instance.
-/

import Loadout.Proofs.Selection.Consistent
import Mathlib.Data.List.Sigma

namespace Loadout

/-! ### Choices by their sort -/

namespace Choice

/-- The place of the dependency that it waives. -/
def waived? : Choice → Option Edge
  | .waived source index => some (source, index)
  | _ => none

/-- The place of the stand-in that it adds. -/
def added? : Choice → Option Nat
  | .added n => some n
  | _ => none

/-- The root that it removes. -/
def removed? : Choice → Option CandidateId
  | .removed id => some id
  | _ => none

variable {a c : Choice}

/-- Only a waiver waives. -/
theorem waived?_eq_some {source : CandidateId} {index : Nat} :
    c.waived? = some (source, index) ↔ c = .waived source index := by
  cases c <;> simp [waived?]

/-- Only an addition adds. -/
theorem added?_eq_some {n : Nat} : c.added? = some n ↔ c = .added n := by
  cases c <;> simp [added?]

/-- Only a removal removes. -/
theorem removed?_eq_some {id : CandidateId} : c.removed? = some id ↔ c = .removed id := by
  cases c <;> simp [removed?]

/-- Choices of a sort are made for what they are about. -/
theorem mem_sort {β : Type} {view? : Choice → Option β} {x : β}
    (hview : ∀ c, view? c = some x ↔ c = a) {made : List Choice} :
    x ∈ made.filterMap view? ↔ a ∈ made := by
  simp only [List.mem_filterMap, hview, exists_eq_right]

/-- The waived places are those of the waivers. -/
theorem mem_waived {source : CandidateId} {index : Nat} {made : List Choice} :
    (source, index) ∈ made.filterMap waived? ↔ .waived source index ∈ made :=
  mem_sort fun _ => waived?_eq_some

/-- The added numbers are those of the additions. -/
theorem mem_added {n : Nat} {made : List Choice} :
    n ∈ made.filterMap added? ↔ .added n ∈ made := mem_sort fun _ => added?_eq_some

/-- The removed roots are those of the removals. -/
theorem mem_removed {id : CandidateId} {made : List Choice} :
    id ∈ made.filterMap removed? ↔ .removed id ∈ made := mem_sort fun _ => removed?_eq_some

/-- Waivers of the same place are the same choice. -/
theorem waived?_inj {a b : Choice} {e : Edge} (ha : a.waived? = some e) (hb : b.waived? = some e) :
    a = b := by
  rw [waived?_eq_some.1 ha, waived?_eq_some.1 hb]

/-- Additions of the same stand-in are the same choice. -/
theorem added?_inj {a b : Choice} {n : Nat} (ha : a.added? = some n) (hb : b.added? = some n) :
    a = b := by
  rw [added?_eq_some.1 ha, added?_eq_some.1 hb]

/-- Removals of the same root are the same choice. -/
theorem removed?_inj {a b : Choice} {id : CandidateId} (ha : a.removed? = some id)
    (hb : b.removed? = some id) : a = b := by
  rw [removed?_eq_some.1 ha, removed?_eq_some.1 hb]

end Choice

namespace Instance

variable {i : Instance} {w : Choice → Bool}

/-- The target that a choice gives up. -/
def unmetTarget? : Choice → Option String
  | .unmet target => some target
  | _ => none

/-- The targets that can be given up. -/
def targets (i : Instance) : List String := i.choices.filterMap unmetTarget?

/-- Only an unmet target is given up. -/
theorem unmetTarget?_eq_some {c : Choice} {target : String} :
    unmetTarget? c = some target ↔ c = .unmet target := by
  cases c <;> simp [unmetTarget?]

/-- Choices that give up the same target are the same. -/
theorem unmetTarget?_inj {a b : Choice} {target : String} (ha : unmetTarget? a = some target)
    (hb : unmetTarget? b = some target) : a = b := by
  rw [unmetTarget?_eq_some.1 ha, unmetTarget?_eq_some.1 hb]

/-- No target can be given up twice. -/
theorem nodup_targets : i.targets.Nodup :=
  List.Nodup.filterMap (fun _ _ _ ha hb => unmetTarget?_inj ha hb) i.closed_encode.nodup

/-- The targets that can be given up are those that come up. -/
theorem mem_targets {target : String} : target ∈ i.targets ↔ Choice.unmet target ∈ i.choices :=
  Choice.mem_sort fun _ => unmetTarget?_eq_some

/-! ### Which choices come up -/

/-- What a choice that comes up is about. -/
def Occurs (i : Instance) : Choice → Prop
  | .candidate _ => True
  | .unmet target => ∃ c ∈ i.store.records, ∃ d ∈ c.descriptor.dependencies,
      d.relation = .recommends ∧ (∃ o ∈ i.offers, o.meets d = true) ∧ d.target = target
  | .waived source index => i.purpose = .explain ∧ ∃ c ∈ i.store.records, c.id = source ∧
      ∃ d, c.descriptor.dependencies[index]? = some d ∧ d.relation.isHard = true
  | .added n => n < i.standIns.length
  | .removed id => i.purpose.isRepair = true ∧ ∃ c ∈ i.store.records, c.id = id ∧
      c.isRoot = true ∧ c.load = .always ∧ c.isBuiltin = false

/-- All that is offered comes up. -/
theorem occurs_of_mem_offers {o : Offer} (ho : o ∈ i.offers) : i.Occurs o.choice := by
  rcases mem_offers.1 ho with ⟨c, -, rfl⟩ | ⟨a, n, ha, rfl⟩
  · trivial
  · exact (List.getElem?_eq_some_iff.1 ha).1

namespace Grounded

/-- What the literals of providers are about comes up. -/
theorem occurs_of_mem_providerLiterals (h : i.Grounded) {key : String} {l : Literal Choice}
    (hl : l ∈ i.providerLiterals key) : i.Occurs l.atom := by
  obtain ⟨o, ho, -, rfl⟩ := h.mem_providerLiterals.1 hl
  exact occurs_of_mem_offers ho

/-- What the literals of matches are about comes up. -/
theorem occurs_of_mem_matchLiterals (h : i.Grounded) {d : Dependency} {admitted : CandidateId → Bool}
    {l : Literal Choice} (hl : l ∈ i.matchLiterals d ((i.store.matching d).filter admitted)) :
    i.Occurs l.atom := by
  obtain ⟨o, ho, -, rfl, -⟩ := h.mem_matchLiterals.1 hl
  exact occurs_of_mem_offers ho

/-- **What the rules of a dependency are about comes up.** -/
theorem occurs_of_mem_dependencyRules (h : i.Grounded) {c : Candidate} (hc : c ∈ i.store.records)
    {d : Dependency} {index : Nat} (hd : c.descriptor.dependencies[index]? = some d)
    {r : Rule Choice} (hr : r ∈ i.dependencyRules c.id d index) {l : Literal Choice}
    (hl : l ∈ r.literals) : i.Occurs l.atom := by
  have hmatch : ∀ x ∈ i.matchLiterals d (i.store.matching d), i.Occurs x.atom := fun x hx => by
    rw [← List.filter_true (i.store.matching d)] at hx
    exact h.occurs_of_mem_matchLiterals hx
  have hwaiver : ∀ x ∈ i.waiver c.id index, d.relation.isHard = true → i.Occurs x.atom := by
    intro x hx hhard
    rw [waiver] at hx
    split at hx
    · rename_i hpurpose
      rw [List.mem_singleton.1 hx]
      exact ⟨hpurpose, c, hc, rfl, d, hd, hhard⟩
    · exact absurd hx List.not_mem_nil
  rw [dependencyRules] at hr
  split at hr
  · rename_i hrel
    rw [List.mem_singleton.1 hr, dependsRule] at hl
    rcases List.mem_cons.1 (Rule.mem_of.1 hl) with rfl | hl
    · trivial
    · rcases List.mem_append.1 hl with hl | hl
      · exact hmatch l hl
      · exact hwaiver l hl (by rw [hrel]; rfl)
  · rename_i hrel
    rw [recommendsRules] at hr
    split at hr
    · exact absurd hr List.not_mem_nil
    · rename_i hsome
      rw [List.mem_singleton.1 hr] at hl
      rcases List.mem_cons.1 (Rule.mem_of.1 hl) with rfl | hl
      · trivial
      · rcases List.mem_append.1 hl with hl | hl
        · exact hmatch l hl
        · obtain ⟨x, hx⟩ := List.exists_mem_of_ne_nil _ (mt List.isEmpty_iff.2 hsome)
          obtain ⟨o, ho, hmeets, -⟩ := h.mem_matchLiterals_all.1 hx
          rw [List.mem_singleton.1 hl]
          exact ⟨c, hc, d, List.mem_of_getElem? hd, hrel, ⟨o, ho, hmeets⟩, rfl⟩
  · rename_i hrel
    obtain ⟨x, hx, rfl⟩ := List.mem_map.1 hr
    rcases List.mem_cons.1 (Rule.mem_of.1 hl) with rfl | hl
    · trivial
    · rcases List.mem_cons.1 hl with rfl | hl
      · exact h.occurs_of_mem_matchLiterals (l := x) hx
      · exact hwaiver l hl (by rw [hrel]; rfl)
  · exact absurd hr List.not_mem_nil
  · exact absurd hr List.not_mem_nil

/-- What the rules of loading are about comes up. -/
theorem occurs_of_mem_loadRules (h : i.Grounded) {c : Candidate} (hc : c ∈ i.store.records)
    {r : Rule Choice} (hr : r ∈ i.loadRules c) {l : Literal Choice} (hl : l ∈ r.literals) :
    i.Occurs l.atom := by
  have hproviders : ∀ {kind}, l ∈ (Rule.of (i.providerLiterals c.identifier) kind).literals →
      i.Occurs l.atom := fun hl => h.occurs_of_mem_providerLiterals (Rule.mem_of.1 hl)
  rw [loadRules] at hr
  split at hr
  · rename_i hroot
    split at hr
    · rename_i hload
      rw [rootRules] at hr
      split at hr
      · rename_i hpurpose hbuiltin
        have hremoved : i.Occurs (.removed c.id) :=
          ⟨by rw [hpurpose]; rfl, c, hc, rfl, hroot, hload, hbuiltin⟩
        rcases List.mem_cons.1 hr with rfl | hr
        · rcases List.mem_cons.1 (Rule.mem_of.1 hl) with rfl | hl
          · exact hremoved
          · rw [List.mem_singleton.1 hl]
            trivial
        · rw [List.mem_singleton.1 hr] at hl
          rcases List.mem_append.1 (Rule.mem_of.1 hl) with hl | hl
          · exact h.occurs_of_mem_providerLiterals hl
          · rw [List.mem_singleton.1 hl]
            exact hremoved
      · rw [List.mem_singleton.1 hr] at hl
        exact hproviders hl
    · exact absurd hr List.not_mem_nil
  · rw [nestedRules] at hr
    rcases List.mem_append.1 hr with hr | hr
    · split at hr
      · obtain ⟨p, -, rfl⟩ := List.mem_map.1 hr
        rcases List.mem_cons.1 (Rule.mem_of.1 hl) with rfl | hl
        · trivial
        · exact h.occurs_of_mem_providerLiterals hl
      · exact absurd hr List.not_mem_nil
    · rw [List.mem_singleton.1 hr] at hl
      rcases List.mem_cons.1 (Rule.mem_of.1 hl) with rfl | hl
      · trivial
      · obtain ⟨p, -, rfl⟩ := List.mem_map.1 hl
        trivial

/-- **A choice that comes up is about something**, whatever rule brings it up. -/
theorem occurs (h : i.Grounded) {c : Choice} (hc : c ∈ i.choices) : i.Occurs c := by
  rcases mem_choices.1 hc with hc | hc | hc | hc | hc
  · obtain ⟨id, -, rfl⟩ := List.mem_map.1 hc
    trivial
  · obtain ⟨r, hr, hatom⟩ := List.mem_flatMap.1 hc
    obtain ⟨l, hl, rfl⟩ := List.mem_map.1 hatom
    obtain ⟨c, hc, hr⟩ := List.mem_flatMap.1 hr
    obtain ⟨⟨d, index⟩, hd, hr⟩ := List.mem_flatMap.1 hr
    exact h.occurs_of_mem_dependencyRules (h.mem_candidates.1 hc)
      (List.mem_zipIdx_iff_getElem?.1 hd) hr hl
  · obtain ⟨l, hl, rfl⟩ := List.mem_map.1 hc
    obtain ⟨key, -, hl⟩ := List.mem_flatMap.1 hl
    exact h.occurs_of_mem_providerLiterals hl
  · obtain ⟨r, hr, hatom⟩ := List.mem_flatMap.1 hc
    obtain ⟨l, hl, rfl⟩ := List.mem_map.1 hatom
    obtain ⟨c, hc, hr⟩ := List.mem_flatMap.1 hr
    exact h.occurs_of_mem_loadRules (h.mem_candidates.1 hc) hr hl
  · obtain ⟨r, hr, hatom⟩ := List.mem_flatMap.1 hc
    obtain ⟨l, hl, rfl⟩ := List.mem_map.1 hatom
    obtain ⟨id, -, rfl⟩ := List.mem_map.1 hr
    rw [List.mem_singleton.1 (Rule.mem_of.1 hl)]
    trivial

end Grounded

/-! ### Literals of at-most-one rules -/

/-- What is arranged in order is listed as often as it was. -/
theorem count_arrange (ho : i.order.Nodup) {id : CandidateId} (hid : id ∈ i.order)
    (members : List CandidateId) : (i.arrange members).count id = members.count id := by
  obtain ⟨before, after, horder⟩ := List.append_of_mem hid
  rw [horder, List.nodup_middle, List.nodup_cons] at ho
  have hnone : ∀ l : List CandidateId, id ∉ l →
      (l.flatMap fun x => members.filter (· = x)).count id = 0 := by
    intro l hl
    rw [List.count_eq_zero, List.mem_flatMap]
    rintro ⟨x, hx, hmem⟩
    obtain rfl : id = x := by simpa using (List.mem_filter.1 hmem).2
    exact hl hx
  rw [arrange, horder, List.flatMap_append, List.flatMap_cons, List.count_append, List.count_append,
    hnone before fun h => ho.1 (List.mem_append_left _ h),
    hnone after fun h => ho.1 (List.mem_append_right _ h),
    List.count_filter (p := (· = id)) (decide_eq_true rfl), Nat.zero_add, Nat.add_zero]

/-- Members are listed once where groups have them once. -/
theorem nodup_providers {s : Store} (hg : ∀ g ∈ s.groups, g.members.Nodup) (key : String) :
    (s.providers key).Nodup := by
  rw [Store.providers]
  cases h : s.group? key with
  | none => exact List.nodup_nil
  | some g => exact hg g (List.mem_of_find?_eq_some h)

/-- No stand-in is listed twice. -/
theorem nodup_addedLiterals (key : String) (admits : Version → Bool) :
    (i.addedLiterals key admits).Nodup := by
  have hplaces : (i.standIns.zipIdx.map Prod.snd).Nodup := List.nodup_zipIdx_map_snd _
  rw [addedLiterals]
  refine ((hplaces.of_map _).filter _).map_on fun x hx y hy hxy => ?_
  have hsnd : x.2 = y.2 := by simpa [Literal.pos] using hxy
  exact List.inj_on_of_nodup_map hplaces (List.mem_filter.1 hx).1 (List.mem_filter.1 hy).1 hsnd

/-- A candidate is among the providers of a key as often as the group lists it. -/
theorem count_selected (ho : i.order.Nodup) {id : CandidateId} (hid : id ∈ i.order) (key : String) :
    (i.providerLiterals key).count (selected id) = (i.store.providers key).count id := by
  have hnone : (i.addedLiterals key fun _ => true).count (selected id) = 0 := by
    rw [List.count_eq_zero, mem_addedLiterals]
    rintro ⟨a, n, -, -, heq⟩
    exact absurd (pos_inj heq) (by simp)
  rw [providerLiterals, List.count_append, hnone, Nat.add_zero,
    List.count_map_of_injective _ selected fun _ _ => selected_inj, count_arrange ho hid]

/-- A stand-in is among them once at most. -/
theorem count_added_le_one (key : String) (n : Nat) :
    (i.providerLiterals key).count (.pos (.added n)) ≤ 1 := by
  have hnone : ((i.arrange (i.store.providers key)).map selected).count (.pos (.added n)) = 0 := by
    rw [List.count_eq_zero, List.mem_map]
    rintro ⟨id, -, heq⟩
    exact absurd (pos_inj heq) (by simp)
  rw [providerLiterals, List.count_append, hnone, Nat.zero_add]
  exact List.nodup_iff_count_le_one.1 (nodup_addedLiterals _ _) _

/-- **An at-most-one rule of one literal is about a candidate that is listed twice**, and about
no other offer. -/
theorem exists_repeated_of_short (ho : i.order.Nodup) {key : String}
    (hseveral : 1 < (i.providerLiterals key).length)
    (hshort : (Rule.atMostOne (i.providerLiterals key)).literals.length < 2) :
    ∃ id, 1 < (i.store.providers key).count id ∧
      (Rule.atMostOne (i.providerLiterals key)).literals = [(selected id).flip] ∧
      ∀ l ∈ i.providerLiterals key, l = selected id := by
  obtain ⟨l, hl⟩ := List.exists_mem_of_length_pos (Nat.lt_of_succ_lt hseveral)
  have hone : (Rule.atMostOne (i.providerLiterals key)).literals = [l.flip] := by
    have hmem : l.flip ∈ (Rule.atMostOne (i.providerLiterals key)).literals :=
      Rule.mem_of.2 (List.mem_map_of_mem hl)
    obtain ⟨x, hx⟩ := List.length_eq_one_iff.1
      (Nat.le_antisymm (Nat.le_of_lt_succ hshort) (List.length_pos_of_mem hmem))
    rw [hx, List.mem_singleton] at hmem
    rw [hx, hmem]
  have hall : ∀ x ∈ i.providerLiterals key, x = l := fun x hx =>
    Literal.flip_inj ((Rule.literals_of_eq_singleton_iff.1 hone).2 _ (List.mem_map_of_mem hx))
  have hcount : 1 < (i.providerLiterals key).count l := by
    rwa [List.count_eq_length.2 fun x hx => (hall x hx).symm]
  -- stand-ins are listed once
  rw [providerLiterals, List.mem_append] at hl
  rcases hl with hl | hl
  · obtain ⟨id, hid, rfl⟩ := List.mem_map.1 hl
    rw [count_selected ho (mem_arrange.1 hid).1] at hcount
    exact ⟨id, hcount, hone, hall⟩
  · obtain ⟨a, n, -, -, rfl⟩ := mem_addedLiterals.1 hl
    exact absurd hcount (Nat.not_lt.2 (count_added_le_one key n))

/-- **An at-most-one rule is about two offers at least** when no group lists a member twice. -/
theorem wide (ho : i.order.Nodup) (hg : ∀ g ∈ i.store.groups, g.members.Nodup) :
    i.encode.problem.rules.Wide := by
  intro r' hr' hk
  obtain ⟨r, hr, rfl⟩ := List.mem_map.1
    (RuleSet.toList_map i.encode.number i.encode.rules ▸ hr')
  have hk : r.isAtMostOne = true := hk
  show 2 ≤ (r.literals.map _).length
  rw [List.length_map]
  rcases ruleList_cases (RuleSet.mem_of_mem_ofList hr) with ⟨literals, kind, rfl, hkind⟩ |
    ⟨key, -, hseveral, rfl⟩
  · rw [Rule.isAtMostOne_of, decide_eq_true_eq] at hk
    exact absurd hk hkind
  · by_contra hshort
    obtain ⟨id, hcount, -⟩ := exists_repeated_of_short ho hseveral (Nat.lt_of_not_le hshort)
    exact Nat.not_lt.2 (List.nodup_iff_count_le_one.1 (nodup_providers hg key) id) hcount

/-! ### How many choices there are of a sort -/

/-- A sort of choices that are about members of a list has no more of them than the list. -/
theorem length_sort_le {β : Type} {view? : Choice → Option β} {members : List β}
    (hview : ∀ a b x, view? a = some x → view? b = some x → a = b)
    (hmem : ∀ c ∈ i.choices, ∀ x, view? c = some x → x ∈ members) :
    (i.choices.filterMap view?).length ≤ members.length := by
  have hnodup : (i.choices.filterMap view?).Nodup :=
    List.Nodup.filterMap (fun a b x ha hb => hview a b x ha hb) i.closed_encode.nodup
  refine (hnodup.subperm fun x hx => ?_).length_le
  obtain ⟨c, hc, hcx⟩ := List.mem_filterMap.1 hx
  exact hmem c hc x hcx

namespace Grounded

/-- There are no more targets than dependencies. -/
theorem length_targets_le (h : i.Grounded) : i.targets.length ≤ i.store.edges.length := by
  have hlength : (i.store.records.flatMap fun c => c.descriptor.dependencies.map (·.target)).length =
      i.store.edges.length := by
    simp [Store.edges, List.length_flatMap]
  rw [← hlength]
  refine length_sort_le (fun a b x => unmetTarget?_inj) fun c hc target ht => ?_
  rw [unmetTarget?_eq_some.1 ht] at hc
  obtain ⟨a, ha, d, hd, -, -, rfl⟩ := h.occurs hc
  exact List.mem_flatMap.2 ⟨a, ha, List.mem_map_of_mem hd⟩

/-- There are no more waivers than dependencies. -/
theorem length_waived_le (h : i.Grounded) :
    (i.choices.filterMap Choice.waived?).length ≤ i.store.edges.length := by
  refine length_sort_le (fun a b x => Choice.waived?_inj) fun c hc e he => ?_
  rw [Choice.waived?_eq_some.1 he] at hc
  obtain ⟨-, a, ha, hid, d, hd, -⟩ := h.occurs hc
  exact Store.mem_edges.2 ⟨a, ha, hid, d, hd⟩

/-- There are no more additions than stand-ins. -/
theorem length_added_le (h : i.Grounded) :
    (i.choices.filterMap Choice.added?).length ≤ i.standIns.length := by
  rw [← List.length_range (n := i.standIns.length)]
  refine length_sort_le (fun a b x => Choice.added?_inj) fun c hc n hn => ?_
  rw [Choice.added?_eq_some.1 hn] at hc
  exact List.mem_range.2 (h.occurs hc)

/-- There are no more removals than candidates. -/
theorem length_removed_le (h : i.Grounded) :
    (i.choices.filterMap Choice.removed?).length ≤ i.store.size := by
  have hlength : i.store.ids.length = i.store.size := List.length_map _
  rw [← hlength]
  refine length_sort_le (fun a b x => Choice.removed?_inj) fun c hc id hid => ?_
  rw [Choice.removed?_eq_some.1 hid] at hc
  obtain ⟨-, a, ha, hid, -⟩ := h.occurs hc
  exact Store.mem_ids.2 ⟨a, ha, hid⟩

end Grounded

/-! ### Costs -/

/-- What some choices cost together. -/
def spent (cost? : Choice → Option Nat) (made : List Choice) : Nat := (made.filterMap cost?).sum

/-- A target that is given up costs one. -/
def unmetCost? : Choice → Option Nat
  | .unmet _ => some 1
  | _ => none

/-- A dependency that is waived costs one. -/
def waiverCost? : Choice → Option Nat
  | .waived _ _ => some 1
  | _ => none

/-- An addition costs one, a removal two. -/
def changeCost? : Choice → Option Nat
  | .added _ => some 1
  | .removed _ => some 2
  | _ => none

/-- Costs do not depend on the order of the choices. -/
theorem spent_perm {cost? : Choice → Option Nat} {a b : List Choice} (h : a.Perm b) :
    spent cost? a = spent cost? b := (h.filterMap cost?).sum_nat

/-- Giving up costs one for each target. -/
theorem spent_unmet (made : List Choice) :
    spent unmetCost? made = (made.filterMap unmetTarget?).length := by
  induction made with
  | nil => rfl
  | cons c made ih =>
      rw [spent] at ih ⊢
      cases c <;> simp [List.filterMap_cons, unmetCost?, unmetTarget?, ih, Nat.add_comm]

/-- Waiving costs one for each place. -/
theorem spent_waiver (made : List Choice) :
    spent waiverCost? made = (made.filterMap Choice.waived?).length := by
  induction made with
  | nil => rfl
  | cons c made ih =>
      rw [spent] at ih ⊢
      cases c <;> simp [List.filterMap_cons, waiverCost?, Choice.waived?, ih, Nat.add_comm]

/-- A repair costs one for each addition, and two for each removal. -/
theorem spent_change (made : List Choice) : spent changeCost? made =
    (made.filterMap Choice.added?).length + 2 * (made.filterMap Choice.removed?).length := by
  induction made with
  | nil => rfl
  | cons c made ih =>
      rw [spent] at ih ⊢
      cases c <;> simp [List.filterMap_cons, changeCost?, Choice.added?, Choice.removed?, ih] <;> omega

/-- One choice more adds its cost. -/
@[simp] theorem spent_cons (cost? : Choice → Option Nat) (c : Choice) (made : List Choice) :
    spent cost? (c :: made) = (cost? c).getD 0 + spent cost? made := by
  rw [spent, List.filterMap_cons]
  cases cost? c <;> simp [spent]

/-- More choices cost no less. -/
theorem spent_mono (cost? : Choice → Option Nat) {v : Choice → Bool} :
    ∀ {cs : List Choice}, (∀ x ∈ cs, v x = true → w x = true) →
      spent cost? (cs.filter v) ≤ spent cost? (cs.filter w)
  | [], _ => Nat.le_refl _
  | x :: cs, hle => by
      have ih := spent_mono cost? fun y hy => hle y (List.mem_cons_of_mem _ hy)
      have hx := hle x (List.mem_cons_self ..)
      rw [List.filter_cons, List.filter_cons]
      cases hv : v x with
      | true =>
          rw [hx hv]
          simpa using ih
      | false =>
          cases w x
          · simpa using ih
          · simp only [Bool.false_eq_true, if_false, if_true, spent_cons]
            omega

/-- **Not to make a choice saves what it costs.** -/
theorem spent_add_le {cost? : Choice → Option Nat} {v : Choice → Bool} {c : Choice} {n : Nat}
    (hcost : cost? c = some n) (hc : w c = true) (hv : v c = false) :
    ∀ {cs : List Choice}, c ∈ cs → (∀ x ∈ cs, v x = true → w x = true) →
      spent cost? (cs.filter v) + n ≤ spent cost? (cs.filter w)
  | x :: cs, hmem, hle => by
      have hrest : ∀ y ∈ cs, v y = true → w y = true := fun y hy => hle y (List.mem_cons_of_mem _ hy)
      by_cases hxc : x = c
      · subst hxc
        have hmono := spent_mono cost? hrest
        rw [List.filter_cons, List.filter_cons, hc, hv]
        simp only [Bool.false_eq_true, if_false, if_true, spent_cons, hcost, Option.getD_some]
        omega
      · have ih := spent_add_le hcost hc hv ((List.mem_cons.1 hmem).resolve_left (Ne.symm hxc)) hrest
        have hx := hle x (List.mem_cons_self ..)
        rw [List.filter_cons, List.filter_cons]
        cases hvx : v x with
        | true =>
            rw [hx hvx]
            simp only [if_true, spent_cons]
            omega
        | false =>
            cases w x
            · simpa using ih
            · simp only [Bool.false_eq_true, if_false, if_true, spent_cons]
              omega

/-- The weights of a tier are the costs of all choices that come up. -/
theorem sum_avoid (cost? : Choice → Option Nat) :
    ((i.avoid cost?).map (·.2)).sum = spent cost? i.choices := by
  rw [avoid, spent, List.map_filterMap]
  congr 1
  refine List.filterMap_congr fun c _ => ?_
  cases cost? c <;> rfl

/-- **A tier that avoids choices is worth what is not spent.** -/
theorem weigh_avoid {cost? : Choice → Option Nat} (hfits : spent cost? i.choices < UInt64.size)
    (w : Choice → Bool) : Objective.weigh (i.avoid cost?) (·.holds w) +
      spent cost? (i.choices.filter w) = spent cost? i.choices := by
  rw [Objective.weigh_of_fits (by rwa [sum_avoid]), avoid]
  induction i.choices with
  | nil => rfl
  | cons c cs ih =>
      have hholds : (Literal.neg c).holds w = !w c := by
        cases h : w c <;> simp [Literal.holds, Literal.neg, h]
      rw [Objective.total] at ih ⊢
      rw [List.filterMap_cons, List.filter_cons, spent_cons]
      cases hcost : cost? c with
      | none =>
          cases hw : w c
          · simpa using ih
          · simp only [Option.map_none, if_true, spent_cons, hcost, Option.getD_none]
            omega
      | some n =>
          cases hw : w c
          · simp only [Option.map_some, List.filter_cons, hholds, hw, Bool.not_false, if_true,
              List.map_cons, List.sum_cons, Bool.false_eq_true, if_false, Option.getD_some]
            omega
          · simp only [Option.map_some, List.filter_cons, hholds, hw, Bool.not_true,
              Bool.false_eq_true, if_false, if_true, spent_cons, hcost, Option.getD_some]
            omega

/-! ### Weights that fit a word -/

/-- To explain, the first tier is that of waivers. -/
theorem purposeTiers_explain (hpurpose : i.purpose = .explain) :
    i.purposeTiers = [i.avoid waiverCost?] := by
  rw [purposeTiers, hpurpose]
  rfl

/-- The first tier of a repair is about what changes cost. -/
theorem purposeTiers_repair {standIns : List StandIn} (hpurpose : i.purpose = .repair standIns) :
    ∃ ranks, i.purposeTiers = [i.avoid changeCost?, ranks] ∧
      (ranks.map (·.2)).sum ≤ (i.choices.filterMap Choice.added?).length * (standIns.length + 1) := by
  rw [purposeTiers, hpurpose]
  refine ⟨_, rfl, ?_⟩
  induction i.choices with
  | nil => exact Nat.zero_le _
  | cons c cs ih =>
      cases c with
      | added n =>
          cases hn : standIns[n]? with
          | none =>
              simp only [List.filterMap_cons, hn, Option.map_none, Choice.added?, List.length_cons,
                Nat.add_mul]
              omega
          | some a =>
              have hrank : purposeTiers.rank standIns a ≤ standIns.length := List.length_filter_le ..
              simp only [List.filterMap_cons, hn, Option.map_some, Choice.added?, List.length_cons,
                List.map_cons, List.sum_cons, Nat.add_mul]
              omega
      | _ => simpa [List.filterMap_cons, Choice.added?] using ih

/-- **The tiers of an instance**: those of its purpose, that of unmet targets, and tiers of one
literal. -/
theorem tiers_eq_append (i : Instance) : ∃ before after,
    i.tiers = i.purposeTiers ++ before ++ [i.avoid unmetCost?] ++ after ∧
      ∀ tier ∈ before ++ after, ∃ l, tier = [(l, 1)] := by
  refine ⟨_, _, rfl, fun tier htier => ?_⟩
  rcases List.mem_append.1 htier with htier | htier
  · obtain ⟨c, -, rfl⟩ := List.mem_map.1 htier
    exact ⟨_, rfl⟩
  · obtain ⟨c, -, rfl⟩ := List.mem_map.1 htier
    exact ⟨_, rfl⟩

/-- To waive little comes before all else where a failure is explained. -/
theorem tiers_explain (hpurpose : i.purpose = .explain) :
    ∃ rest, i.tiers = i.avoid waiverCost? :: rest := by
  obtain ⟨before, after, htiers, -⟩ := i.tiers_eq_append
  rw [htiers, purposeTiers_explain hpurpose]
  exact ⟨_, rfl⟩

/-- To change little comes before all else where mods are repaired. -/
theorem tiers_repair {standIns : List StandIn} (hpurpose : i.purpose = .repair standIns) :
    ∃ rest, i.tiers = i.avoid changeCost? :: rest := by
  obtain ⟨before, after, htiers, -⟩ := i.tiers_eq_append
  obtain ⟨ranks, hranks, -⟩ := purposeTiers_repair hpurpose
  rw [htiers, hranks]
  exact ⟨_, rfl⟩

/-- All waivers together fit into 64 bits where the number of dependencies does. -/
theorem Grounded.spent_waiver_lt (h : i.Grounded) (hfits : i.store.edges.length < UInt64.size) :
    spent waiverCost? i.choices < UInt64.size := by
  rw [spent_waiver]
  exact Nat.lt_of_le_of_lt h.length_waived_le hfits

/-- All changes together fit into 64 bits where the numbers of candidates and stand-ins do. -/
theorem Grounded.spent_change_lt (h : i.Grounded)
    (hsize : i.store.size + i.standIns.length < 2 ^ 32) :
    spent changeCost? i.choices < UInt64.size := by
  have hadded := h.length_added_le
  have hremoved := h.length_removed_le
  have hword : UInt64.size = 2 ^ 32 * 2 ^ 32 := rfl
  rw [spent_change, hword]
  omega

end Instance

/-- Numbers in the place of atoms leave weights alone. -/
theorem Objective.fits_map {α β : Type} (f : α → β) {o : Objective α} (h : o.Fits) :
    (o.map f).Fits := by
  intro tier' htier'
  obtain ⟨tier, htier, rfl⟩ := List.mem_map.1 htier'
  rw [List.map_map]
  exact h tier htier

namespace Instance
namespace Grounded

variable {i : Instance}

/-- **Weights fit a word** where targets and dependencies can be counted in one, and where
candidates and stand-ins of a repair can be counted in half of one. -/
theorem fits (h : i.Grounded) (htargets : i.targets.length < UInt64.size)
    (hwaivers : i.purpose = .explain → i.store.edges.length < UInt64.size)
    (hchanges : i.purpose.isRepair = true → i.store.size + i.standIns.length < 2 ^ 32) :
    i.encode.problem.objective.Fits := by
  refine Objective.fits_map _ fun tier htier => ?_
  obtain ⟨before, after, htiers, hone⟩ := i.tiers_eq_append
  have htier : tier ∈ i.tiers := (List.mem_filter.1 htier).1
  rw [htiers, List.mem_append, List.mem_append, List.mem_append, List.mem_singleton] at htier
  have hsingle : tier ∈ before ++ after → (tier.map (·.2)).sum < UInt64.size := fun htier => by
    obtain ⟨l, rfl⟩ := hone tier htier
    show 1 + 0 < UInt64.size
    decide
  rcases htier with ((htier | htier) | rfl) | htier
  · cases hpurpose : i.purpose with
    | select =>
        rw [purposeTiers, hpurpose] at htier
        exact absurd htier List.not_mem_nil
    | explain =>
        rw [purposeTiers_explain hpurpose, List.mem_singleton] at htier
        rw [htier, sum_avoid]
        exact h.spent_waiver_lt (hwaivers hpurpose)
    | repair standIns =>
        have hstandIns : i.standIns = standIns := by rw [Instance.standIns, hpurpose]
        have hsize := hchanges (by rw [hpurpose]; rfl)
        obtain ⟨ranks, htiers, hranks⟩ := purposeTiers_repair hpurpose
        rw [htiers, List.mem_cons, List.mem_singleton] at htier
        rcases htier with rfl | rfl
        · rw [sum_avoid]
          exact h.spent_change_lt hsize
        · have hadded := h.length_added_le
          have hword : UInt64.size = 2 ^ 32 * 2 ^ 32 := rfl
          rw [hstandIns] at hsize hadded
          refine Nat.lt_of_le_of_lt hranks ?_
          rw [hword]
          exact Nat.mul_lt_mul_of_lt_of_le (by omega) (by omega) (by omega)
  · exact hsingle (List.mem_append_left _ htier)
  · rw [sum_avoid, spent_unmet]
    exact htargets
  · exact hsingle (List.mem_append_right _ htier)

end Grounded
end Instance
end Loadout
