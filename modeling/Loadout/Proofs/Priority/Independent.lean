/-
# Preference by what the mods are

The order of preference tells mods by nothing but identifier, version, aliases and whether they
are roots.  Two stores whose candidates match one to one in these (`Store.Matched`) list them in
the same order, whatever their numbers, depths, locations and containers are and in whatever order
they came in (`Store.preferred_alike`).

Each of the three stages is told apart from all else by what was shown of it before: ranks by sums
and closures over all candidates (`Priority.ranking_eq`), the sorted order by what candidates are,
where no two tie (`Priority.getAll_keyOrder_eq`), and the pass that lets candidates rise reads only
what matches (`Priority.settle_map`).
-/

import Loadout.Proofs.Priority.Keys
import Loadout.Proofs.Store.Sightings

namespace Loadout

/-- **Two candidates that are one mod**: they agree in identifier and version, in aliases, and in
being a root or not. -/
structure Candidate.Resembles (a b : Candidate) : Prop where
  edition : a.edition.same b.edition = true
  aliases : ∀ key, key ∈ b.aliases ↔ key ∈ a.aliases
  isRoot : b.isRoot = a.isRoot

namespace Candidate.Resembles

variable {a a' b b' : Candidate}

/-- Candidates that resemble each other have one identifier. -/
theorem identifier (h : a.Resembles b) : b.identifier = a.identifier :=
  (Edition.same_iff.1 h.edition).1.symm

/-- Candidates that resemble each other have one version, perhaps written in two ways. -/
theorem version (h : a.Resembles b) : a.version.sameAs b.version = true :=
  (Edition.same_iff.1 h.edition).2

/-- Candidates that resemble each other provide the same keys. -/
theorem provides (h : a.Resembles b) (key : String) : b.provides key = a.provides key := by
  rw [Bool.eq_iff_iff, Store.provides_iff, Store.provides_iff, h.identifier, h.aliases]

/-- Whether two candidates overlap does not depend on which of those alike they are. -/
theorem overlaps (ha : a.Resembles a') (hb : b.Resembles b') : a'.overlaps b' = a.overlaps b := by
  rw [Bool.eq_iff_iff, Candidate.overlaps, Candidate.overlaps, List.any_eq_true, List.any_eq_true]
  refine exists_congr fun key => ?_
  rw [← Store.provides_iff_mem, ← Store.provides_iff_mem, ha.provides, hb.provides]

/-- How versions compare does not depend on which of the candidates alike they are of. -/
theorem atMost (ha : a.Resembles a') (hb : b.Resembles b') :
    a'.version.atMost b'.version = a.version.atMost b.version := by
  rw [← (Version.atMost_congr ha.version b'.version).1, ← (Version.atMost_congr hb.version a.version).2]

end Candidate.Resembles

/-- **Two stores that hold the same mods**: their candidates match one to one. -/
structure Store.Matched (s s' : Store) (partner : Candidate → Candidate) : Prop where
  records : (s.records.map partner).Perm s'.records
  resembles : ∀ c ∈ s.records, c.Resembles (partner c)

namespace Priority

variable {s s' : Store} {partner : Candidate → Candidate}

/-! ### The same ranks -/

/-- Matched stores have a candidate of a kind just where the other one has. -/
theorem exists_candidate_iff (h : s.Matched s' partner) {P : Candidate → Prop}
    (hP : ∀ a b : Candidate, a.Resembles b → (P b ↔ P a)) :
    (∃ c ∈ s'.records, P c) ↔ ∃ c ∈ s.records, P c := by
  simp only [← h.records.mem_iff, List.mem_map, exists_exists_and_eq_and]
  exact exists_congr fun c => and_congr_right fun hc => hP c (partner c) (h.resembles c hc)

/-- Matched stores have the same families. -/
theorem areKin_families_eq (h : s.Matched s' partner) : areKin (families s') = areKin (families s) := by
  have hpairs : ∀ x y, (x, y) ∈ s'.kinPairs ↔ (x, y) ∈ s.kinPairs := by
    intro x y
    simp only [Store.kinPairs, List.mem_flatMap]
    refine exists_candidate_iff h fun a b hab => ?_
    simp only [List.mem_map, Prod.mk.injEq, hab.aliases, hab.identifier]
  funext a b
  rw [Bool.eq_iff_iff, areKin_families_iff, areKin_families_iff]
  simp only [hpairs]

/-- Matched stores have the same identifiers. -/
theorem identifiers_eq (h : s.Matched s' partner) : identifiers s' = identifiers s := by
  refine (ascending_identifiers s').eq_of_mem_iff (ascending_identifiers s) fun x => ?_
  rw [mem_identifiers, mem_identifiers]
  exact exists_candidate_iff h fun a b hab => by rw [hab.identifier]

/-- Matched stores give every identifier the same score. -/
theorem score_eq (h : s.Matched s' partner) (hcat : s.Catalogued) (hcat' : s'.Catalogued)
    (hg : ∀ g ∈ s.groups, g.members.Nodup) (hg' : ∀ g ∈ s'.groups, g.members.Nodup) (id : String) :
    score s' id = score s id := by
  have hkeys : s'.groups.map (·.identifier) = s.groups.map (·.identifier) := by
    refine hcat'.indexed.ascending_keys.eq_of_mem_iff hcat.indexed.ascending_keys fun key => ?_
    rw [hcat'.mem_keys_iff, hcat.mem_keys_iff]
    exact exists_candidate_iff h fun a b hab => by rw [hab.provides]
  rw [hcat'.score_eq hg', hcat.score_eq hg, hkeys]
  congr 1
  refine List.map_congr_left fun key _ => ?_
  have hmembers : (s.records.map partner).filter (fun c => c.provides key) =
      (s.records.filter fun c => c.provides key).map partner := by
    rw [List.filter_map]
    refine congrArg (List.map partner) (List.filter_congr fun c hc => ?_)
    rw [Function.comp_apply, (h.resembles c hc).provides]
  have hin : ∀ c ∈ s.records.filter (fun c => c.provides key), c.Resembles (partner c) := fun c hc =>
    h.resembles c (List.mem_filter.1 hc).1
  rw [← groupScore_perm (h.records.filter fun c => c.provides key), hmembers]
  exact groupScore_map (fun c hc => (hin c hc).identifier) (fun c hc => (hin c hc).version) id

/-- **Stores that hold the same mods rank identifiers alike.** -/
theorem ranking_eq (h : s.Matched s' partner) (hcat : s.Catalogued) (hcat' : s'.Catalogued)
    (hg : ∀ g ∈ s.groups, g.members.Nodup) (hg' : ∀ g ∈ s'.groups, g.members.Nodup) :
    ranking s' = ranking s := by
  have hstandings : standings s' = standings s := by
    rw [standings, standings, identifiers_eq h]
    refine List.map_congr_left fun id _ => ?_
    rw [score_eq h hcat hcat' hg hg', familyHead, familyHead, areKin_families_eq h]
  rw [ranking, ranking, hstandings]

/-! ### The same sorted order -/

/-- How two candidates compare by kind does not depend on which of those alike they are. -/
theorem compareKind_eq {ranks : List String} {a a' b b' : Candidate} (ha : a.Resembles a')
    (hb : b.Resembles b') : compareKind ranks a' b' = compareKind ranks a b := by
  rw [compareKind, compareKind, ha.isRoot, hb.isRoot, ha.identifier, hb.identifier,
    ← (Version.compare_congr hb.version a'.version).1, ← (Version.compare_congr ha.version b.version).2]

/-- **Stores that hold the same mods sort them alike.** -/
theorem getAll_keyOrder_eq (h : s.Matched s' partner) (hcat : s.Catalogued) (hcat' : s'.Catalogued)
    (hg : ∀ g ∈ s.groups, g.members.Nodup) (hg' : ∀ g ∈ s'.groups, g.members.Nodup) :
    s'.getAll (keyOrder s') = (s.getAll (keyOrder s)).map partner := by
  have hperm := Store.getAll_perm hcat.indexed.nodup s.keyOrder_perm
  have hperm' := Store.getAll_perm hcat'.indexed.nodup s'.keyOrder_perm
  have hsorted : ((s.getAll (keyOrder s)).map partner).Pairwise fun a b =>
      compareKind (ranking s') a b = .lt := by
    rw [List.pairwise_map]
    refine hcat.pairwise_keyOrder.imp_of_mem fun {a b} ha hb hlt => ?_
    rw [ranking_eq h hcat hcat' hg hg', compareKind_eq (h.resembles a (hperm.mem_iff.1 ha))
      (h.resembles b (hperm.mem_iff.1 hb))]
    exact hlt
  -- no two candidates tie, so there is one order of them
  refine List.Perm.eq_of_pairwise (fun a b _ _ hab hba => ?_) hcat'.pairwise_keyOrder hsorted
    (hperm'.trans ((hperm.map partner).trans h.records).symm)
  rw [compareKind_swap, hba] at hab
  exact absurd hab (by decide)

/-! ### The same rises -/

section Rising

variable {c : Candidate}

/-- What holds of a match of some candidate holds of that candidate. -/
theorem any_map_eq {p q : Candidate → Bool} {l : List Candidate} (h : ∀ b ∈ l, p (partner b) = q b) :
    (l.map partner).any p = l.any q := by
  rw [Bool.eq_iff_iff, List.any_map, List.any_eq_true, List.any_eq_true]
  exact exists_congr fun b => and_congr_right fun hb => by rw [Function.comp_apply, h b hb]

/-- What is taken from a list of matches matches what is taken from the list. -/
theorem takeWhile_map_eq {p q : Candidate → Bool} : ∀ {l : List Candidate},
    (∀ b ∈ l, p (partner b) = q b) → (l.map partner).takeWhile p = (l.takeWhile q).map partner
  | [], _ => rfl
  | b :: l, h => by
      obtain ⟨hb, hl⟩ := List.forall_mem_cons.1 h
      rw [List.map_cons, List.takeWhile_cons, List.takeWhile_cons, hb, takeWhile_map_eq hl]
      cases q b <;> rfl

/-- A candidate may pass the match of a block just where it may pass the block. -/
theorem mayPass_map {block : List Candidate} (hc : c.Resembles (partner c))
    (hblock : ∀ b ∈ block, b.Resembles (partner b)) :
    mayPass (partner c) (block.map partner) = mayPass c block := by
  have hoverlaps : (block.map partner).any (·.overlaps (partner c)) = block.any (·.overlaps c) :=
    any_map_eq fun b hb => (hblock b hb).overlaps hc
  have hnewer : (block.map partner).any (fun b => (partner c).version.atMost b.version) =
      block.any fun b => c.version.atMost b.version :=
    any_map_eq fun b hb => hc.atMost (hblock b hb)
  rw [mayPass, mayPass, hoverlaps, hnewer]

/-- What precedes a candidate is read by what matches alone. -/
theorem rise_map (hc : c.Resembles (partner c)) : ∀ (fuel risen : Nat) {before : List Candidate},
    (∀ b ∈ before, b.Resembles (partner b)) →
    rise (partner c) fuel risen (before.map partner) = rise c fuel risen before
  | 0, _, _, _ => rfl
  | _ + 1, _, [], _ => rfl
  | fuel + 1, risen, p :: rest, h => by
      obtain ⟨hp, hrest⟩ := List.forall_mem_cons.1 h
      have hrun : (rest.map partner).takeWhile (fun b => b.identifier == (partner p).identifier) =
          (rest.takeWhile fun b => b.identifier == p.identifier).map partner :=
        takeWhile_map_eq fun b hb => by rw [(hrest b hb).identifier, hp.identifier]
      have hblock : ∀ b ∈ p :: rest.takeWhile (fun b => b.identifier == p.identifier),
          b.Resembles (partner b) := by
        intro b hb
        rcases List.mem_cons.1 hb with rfl | hb
        · exact hp
        · exact hrest b ((List.takeWhile_sublist _).subset hb)
      have hdrop : ∀ n, ∀ b ∈ (p :: rest).drop n, b.Resembles (partner b) := fun n b hb =>
        h b (List.mem_of_mem_drop hb)
      rw [List.map_cons, rise, rise, hp.identifier, hp.isRoot, hc.identifier, hc.isRoot]
      rw [hp.identifier] at hrun
      simp only [hrun, ← List.map_cons, List.length_map, mayPass_map hc hblock, ← List.map_drop,
        rise_map hc fuel _ (hdrop _)]

/-- **A candidate rises as far as the one that matches it.** -/
theorem settle_map (hc : c.Resembles (partner c)) {before : List Candidate}
    (h : ∀ b ∈ before, b.Resembles (partner b)) :
    settle (before.map partner) (partner c) = (settle before c).map partner := by
  rw [settle, settle, List.length_map, rise_map hc _ _ h]
  simp only [List.map_append, List.map_cons, List.map_take, List.map_drop]

/-- The matches of candidates settle as these do. -/
theorem foldl_settle_map : ∀ (cs : List Candidate) {before : List Candidate},
    (∀ c ∈ cs, c.Resembles (partner c)) → (∀ b ∈ before, b.Resembles (partner b)) →
    (cs.map partner).foldl settle (before.map partner) = (cs.foldl settle before).map partner
  | [], _, _, _ => rfl
  | c :: cs, before, hcs, h => by
      obtain ⟨hc, hcs⟩ := List.forall_mem_cons.1 hcs
      rw [List.map_cons, List.foldl_cons, List.foldl_cons, settle_map hc h, foldl_settle_map cs hcs]
      intro b hb
      rcases List.mem_cons.1 ((settle_perm before c).mem_iff.1 hb) with rfl | hb
      · exact hc
      · exact h b hb

end Rising

end Priority

namespace Store

open Priority

variable {s s' : Store} {partner : Candidate → Candidate}

/-- Candidates of the store are found under their numbers. -/
theorem getAll_map_id (hids : s.ids.Nodup) : ∀ {cs : List Candidate}, cs ⊆ s.records →
    s.getAll (cs.map (·.id)) = cs
  | [], _ => rfl
  | c :: cs, hsub => by
      have ih := getAll_map_id hids fun x hx => hsub (List.mem_cons_of_mem c hx)
      have hget := (get?_eq_some_iff hids).2 ⟨hsub (List.mem_cons_self ..), rfl⟩
      rw [getAll] at ih ⊢
      rw [List.map_cons, List.filterMap_cons, hget, ih]

/-- The candidates in the order of preference. -/
theorem getAll_preferenceOrder (hids : s.ids.Nodup) :
    s.getAll s.preferenceOrder = ((s.getAll (keyOrder s)).foldl Priority.settle []).reverse := by
  rw [preferenceOrder]
  refine getAll_map_id hids fun c hc => ?_
  have hin := (foldl_settle_perm (s.getAll (keyOrder s)) []).mem_iff.1 (List.mem_reverse.1 hc)
  exact (mem_getAll (List.append_nil (s.getAll (keyOrder s)) ▸ hin)).1

/-- **The order of preference depends only on what the mods are.**  Two stores hold candidates that
match one to one in identifier, version, aliases and being a root; in each of them the index is
exact, as every history leaves it, no two candidates agree in identifier and version, and no group
lists anything twice.  Then the candidates of one in their order of preference are the matches of
those of the other one, so both orders have the same identifiers and versions. -/
theorem preferred_alike (h : s.Catalogued) (h' : s'.Catalogued)
    (hg : ∀ g ∈ s.groups, g.members.Nodup) (hg' : ∀ g ∈ s'.groups, g.members.Nodup)
    (hmatched : s.Matched s' partner) :
    s'.getAll s'.preferenceOrder = (s.getAll s.preferenceOrder).map partner ∧
    List.Forall₂ (fun a b => a.same b = true) ((s.getAll s.preferenceOrder).map Candidate.edition)
      ((s'.getAll s'.preferenceOrder).map Candidate.edition) := by
  have hresembles : ∀ ids, ∀ c ∈ s.getAll ids, c.Resembles (partner c) := fun ids c hc =>
    hmatched.resembles c (mem_getAll hc).1
  have hrisen : ((s.getAll (keyOrder s)).map partner).foldl Priority.settle ([].map partner) = _ :=
    foldl_settle_map _ (hresembles _) fun _ hb => absurd hb List.not_mem_nil
  have heq : s'.getAll s'.preferenceOrder = (s.getAll s.preferenceOrder).map partner := by
    rw [getAll_preferenceOrder h'.indexed.nodup, getAll_preferenceOrder h.indexed.nodup,
      getAll_keyOrder_eq hmatched h h' hg hg', List.map_reverse, ← hrisen, List.map_nil]
  refine ⟨heq, ?_⟩
  rw [heq, List.map_map, List.forall₂_map_left_iff, List.forall₂_map_right_iff, List.forall₂_same]
  exact fun c hc => (hresembles _ c hc).edition

/-- The first candidate of a store that is one mod with a candidate. -/
def counterpart (s : Store) (c : Candidate) : Candidate :=
  (s.records.find? fun d => c.edition.same d.edition).getD c

/-- A mod that was found at a place, or at one inside another candidate. -/
def foundAt (place : String) (d : Descriptor) (parent? : Option CandidateId) : NewCandidate :=
  { descriptor := d, location := .file place, parent?, remap := false }

/-- A library inside a newer one that it can stand in for, inside an application. -/
def hostedDeep : Store :=
  gathered [foundAt "app.jar" { id := "app", version := .ofComponents [1] } none,
    foundAt "box.jar" { id := "box", version := .ofComponents [1] } none,
    foundAt "kit.jar" { id := "kit", version := .ofComponents [2] } (some 0),
    foundAt "lib.jar" { id := "lib", version := .ofComponents [1], provides := ["kit", "core"] }
      (some 2)]

/-- The same mods, found in another order and elsewhere. -/
def hostedApart : Store :=
  gathered [foundAt "bin/box.jar" { id := "box", version := .ofComponents [1, 0] } none,
    foundAt "lib-1.jar" { id := "lib", version := .ofComponents [1], provides := ["core", "kit"] }
      (some 0),
    foundAt "app-1.jar" { id := "app", version := .ofComponents [1] } none,
    foundAt "kit-2.jar" { id := "kit", version := .ofComponents [2] } (some 2)]

/-- Roots come first, and then the newer library. -/
theorem preferenceOrder_hostedDeep : hostedDeep.preferenceOrder = [0, 1, 2, 3] := by
  have hranking : ranking hostedDeep = ["app", "box", "kit", "lib"] := by
    rw [ranking, List.mergeSort_of_pairwise (by decide +kernel)]
    decide +kernel
  have hkeys : keyOrder hostedDeep = [0, 1, 2, 3] := by
    rw [keyOrder, keyed, hranking, List.mergeSort_of_pairwise (by decide +kernel)]
    decide +kernel
  rw [preferenceOrder, hkeys]
  decide +kernel

/-- Both orders have the same mods, though under other numbers and at other depths. -/
theorem preferred_alike_hosted :
    hostedDeep.preferenceOrder = [0, 1, 2, 3] ∧ hostedApart.preferenceOrder = [2, 0, 3, 1] ∧
    hostedApart.getAll hostedApart.preferenceOrder =
      (hostedDeep.getAll hostedDeep.preferenceOrder).map hostedApart.counterpart ∧
    (hostedDeep.records.map fun c => (c.id, c.identifier, c.depth, c.parents)) =
      [(0, "app", 0, []), (1, "box", 0, []), (2, "kit", 1, [0]), (3, "lib", 2, [2])] ∧
    (hostedApart.records.map fun c => (c.id, c.identifier, c.depth, c.parents)) =
      [(0, "box", 0, []), (1, "lib", 1, [0]), (2, "app", 0, []), (3, "kit", 1, [2])] := by
  have hmatch : ∀ c ∈ hostedDeep.records, c.edition.same (hostedApart.counterpart c).edition = true ∧
      (hostedApart.counterpart c).aliases.Perm c.aliases ∧
      (hostedApart.counterpart c).isRoot = c.isRoot := by decide +kernel
  have hmatched : hostedDeep.Matched hostedApart hostedApart.counterpart :=
    ⟨by decide +kernel, fun c hc =>
      ⟨(hmatch c hc).1, fun _ => (hmatch c hc).2.1.mem_iff, (hmatch c hc).2.2⟩⟩
  have hdeep : hostedDeep.Catalogued := catalogued_gathered _
  have hapart : hostedApart.Catalogued := catalogued_gathered _
  obtain ⟨halike, -⟩ := preferred_alike hdeep hapart (by decide +kernel) (by decide +kernel) hmatched
  -- the second order is read off the first one
  have horder : hostedApart.preferenceOrder = [2, 0, 3, 1] := by
    rw [← hostedApart.map_id_getAll hostedApart.preferenceOrder_perm.subset, halike,
      preferenceOrder_hostedDeep]
    decide +kernel
  exact ⟨preferenceOrder_hostedDeep, horder, halike, by decide +kernel, by decide +kernel⟩

end Store
end Loadout
