/-
# Kin stand together

Each identifier of a candidate has a rank, and the ranks are the numbers from zero on.  The ranking
sorts by the least identifier of the family before all else (`Priority.rank_lt_iff`), and two
identifiers have the same one just where they are kin (`Priority.familyHead_eq_iff`).  So the ranks
of a family follow each other, and families stand in the order of their least identifiers
(`Priority.kin_ranked_together`).

Kin may be linked through names that no candidate has as its own, and such a name may even
represent the family, where it is the least of all (`Priority.isLeast_representative`).  It has no
rank, and the least identifier is looked for among those of candidates alone
(`Priority.isLeast_familyHead`).
-/

import Loadout.Proofs.Priority.Independent
import Mathlib.Data.Set.Function
import Mathlib.Order.Bounds.Basic

namespace Loadout

/-- Whether some candidate has an identifier as its own. -/
def Store.Identifies (s : Store) (id : String) : Prop := ∃ c ∈ s.records, c.identifier = id

/-- Whether a name is an alias of a candidate of an identifier. -/
def Store.Aliases (s : Store) (id name : String) : Prop :=
  ∃ c ∈ s.records, c.identifier = id ∧ name ∈ c.aliases

/-- Names that a chain of identifiers and their aliases links. -/
def Store.Linked (s : Store) : String → String → Prop := Relation.EqvGen s.Aliases

namespace Priority

variable {s : Store} {a b : String}

/-- The pairs that are joined are an identifier and an alias of one candidate. -/
theorem mem_kinPairs_iff : (a, b) ∈ s.kinPairs ↔ s.Aliases a b := by
  simp only [Store.kinPairs, Store.Aliases, List.mem_flatMap, List.mem_map, Prod.mk.injEq]
  constructor
  · rintro ⟨c, hc, name, hname, rfl, rfl⟩
    exact ⟨c, hc, rfl, hname⟩
  · rintro ⟨c, hc, rfl, hname⟩
    exact ⟨c, hc, b, hname, rfl, rfl⟩

/-- **Kin are the names that aliases link.** -/
theorem areKin_iff_linked : areKin (families s) a b = true ↔ s.Linked a b := by
  simp only [areKin_families_iff, mem_kinPairs_iff, Store.Linked]

/-- **A family is represented by the least name in it**, in whatever order its names were joined. -/
theorem isLeast_representative (s : Store) (a : String) :
    IsLeast {x | s.Linked a x} (representative (families s) a) := by
  have hfs := descending_families s
  refine ⟨areKin_iff_linked.1 (areKin_iff.2 (hfs.representative_representative a).symm), fun x hx => ?_⟩
  rw [areKin_iff.1 (areKin_iff_linked.2 hx)]
  exact hfs.representative_le x

/-! ### The least identifier of a family -/

/-- **The head of a family** is the least among the identifiers of candidates in it. -/
theorem isLeast_familyHead (ha : s.Identifies a) :
    IsLeast {x | s.Identifies x ∧ s.Linked a x} (familyHead (families s) (identifiers s) a) := by
  have hself : areKin (families s) a a = true := areKin_iff.2 rfl
  obtain ⟨head, hhead⟩ := Option.isSome_iff_exists.1
    (List.find?_isSome.2 ⟨a, mem_identifiers.2 ha, hself⟩)
  rw [familyHead, hhead, Option.getD_some]
  obtain ⟨hkin, before, after, hids, hbefore⟩ := List.find?_eq_some_iff_append.1 hhead
  refine ⟨⟨mem_identifiers.1 (hids ▸ by simp), areKin_iff_linked.1 hkin⟩, fun x hx => ?_⟩
  have hin : x ∈ before ++ head :: after := hids ▸ mem_identifiers.2 hx.1
  have hascending := ascending_identifiers s
  rw [hids, Group.Ascending, List.pairwise_append, List.pairwise_cons] at hascending
  -- whatever comes before the head is not kin
  have hnot : x ∉ before := fun hearlier => by
    have hfalse := hbefore x hearlier
    rw [areKin_iff_linked.2 hx.2] at hfalse
    exact absurd hfalse (by decide)
  rcases List.mem_cons.1 ((List.mem_append.1 hin).resolve_left hnot) with rfl | hafter
  · exact le_rfl
  · exact (compare_lt_iff_lt.1 (hascending.2.1.1 x hafter)).le

/-- **Identifiers have one head just where they are kin.** -/
theorem familyHead_eq_iff (ha : s.Identifies a) (hb : s.Identifies b) :
    familyHead (families s) (identifiers s) a = familyHead (families s) (identifiers s) b ↔
      s.Linked a b := by
  have hleast := isLeast_familyHead ha
  have hleast' := isLeast_familyHead hb
  constructor
  · intro heq
    rw [heq] at hleast
    exact .trans _ _ _ hleast.1.2 (.symm _ _ hleast'.1.2)
  · intro hlinked
    have hsame : {x | s.Identifies x ∧ s.Linked a x} = {x | s.Identifies x ∧ s.Linked b x} := by
      ext x
      exact and_congr_right fun _ =>
        ⟨.trans _ _ _ (.symm _ _ hlinked), .trans _ _ _ hlinked⟩
    exact hleast.unique (hsame ▸ hleast')

/-! ### The ranking -/

/-- What an identifier is ranked by. -/
def standing (s : Store) (id : String) : Standing :=
  ⟨familyHead (families s) (identifiers s) id, score s id, id⟩

instance : Std.TransCmp Standing.compare :=
  have := SemanticVersion.transCmp_on (compare : String → String → Ordering) Standing.head
  have := SemanticVersion.transCmp_on (compare : String → String → Ordering) Standing.identifier
  have := SemanticVersion.transCmp_on (compare : Int → Int → Ordering) Standing.score
  have := @Std.TransCmp.opposite _ (fun a b : Standing => compare a.score b.score) _
  inferInstanceAs (Std.TransCmp (compareLex (fun a b : Standing => compare a.head b.head)
    (compareLex (fun a b : Standing => compare b.score a.score)
      fun a b : Standing => compare a.identifier b.identifier)))

/-- The ranking sorts the identifiers by their standings. -/
theorem ranking_eq_mergeSort (s : Store) : ranking s =
    (identifiers s).mergeSort fun a b => ((standing s a).compare (standing s b)).isLE := by
  have hmap := List.map_mergeSort (f := standing s) (l := identifiers s)
    (r := fun a b => ((standing s a).compare (standing s b)).isLE)
    (s := fun a b => (a.compare b).isLE) fun _ _ _ _ => rfl
  have hstandings : standings s = (identifiers s).map (standing s) := rfl
  rw [ranking, hstandings, ← hmap, List.map_map]
  exact List.map_id _

/-- The ranking only moves identifiers. -/
theorem ranking_perm (s : Store) : (ranking s).Perm (identifiers s) :=
  ranking_eq_mergeSort s ▸ List.mergeSort_perm _ _

/-- No identifier is ranked twice. -/
theorem nodup_ranking (s : Store) : (ranking s).Nodup :=
  (ranking_perm s).nodup_iff.2 ((ascending_identifiers s).imp fun h heq => by
    subst heq
    exact absurd h (by simp))

/-- **Identifiers are ranked by their standings**, and no two have the same. -/
theorem pairwise_ranking (s : Store) : (ranking s).Pairwise fun a b =>
    (standing s a).compare (standing s b) = .lt := by
  have hsorted : (ranking s).Pairwise fun a b =>
      ((standing s a).compare (standing s b)).isLE = true := by
    rw [ranking_eq_mergeSort]
    refine List.pairwise_mergeSort (fun a b c => Std.TransCmp.isLE_trans) (fun a b => ?_) _
    rw [@Std.OrientedCmp.eq_swap _ Standing.compare _ (standing s a) (standing s b)]
    cases (standing s b).compare (standing s a) <;> rfl
  refine (hsorted.and (nodup_ranking s)).imp fun {a b} ⟨hle, hne⟩ => ?_
  cases hres : (standing s a).compare (standing s b) with
  | lt => rfl
  | gt => exact absurd hle (by simp [hres])
  | eq =>
      rw [Standing.compare, Ordering.then_eq_eq, Ordering.then_eq_eq] at hres
      exact absurd (Std.LawfulEqOrd.eq_of_compare hres.2.2) hne

/-- The rank of an identifier. -/
def rank (s : Store) (id : String) : Nat := (ranking s).idxOf id

/-- **Ranks compare as standings do.** -/
theorem rank_lt_iff (ha : s.Identifies a) (hb : s.Identifies b) :
    rank s a < rank s b ↔ (standing s a).compare (standing s b) = .lt := by
  have hlt : ∀ {a b}, s.Identifies a → s.Identifies b → rank s a < rank s b →
      (standing s a).compare (standing s b) = .lt := by
    intro a b ha hb h
    have hpair := List.pairwise_iff_getElem.1 (pairwise_ranking s) _ _
      (List.idxOf_lt_length_of_mem (mem_ranking.2 ha)) (List.idxOf_lt_length_of_mem (mem_ranking.2 hb)) h
    simpa only [List.getElem_idxOf] using hpair
  refine ⟨hlt ha hb, fun h => ?_⟩
  rcases Nat.lt_trichotomy (rank s a) (rank s b) with hab | heq | hba
  · exact hab
  · rw [(List.idxOf_inj (mem_ranking.2 ha)).1 heq] at h
    exact absurd h (by simp [Std.ReflCmp.compare_self])
  · have hgt := @Std.OrientedCmp.gt_of_lt _ Standing.compare _ _ _ (hlt hb ha hba)
    exact absurd (h.symm.trans hgt) (by decide)

/-- **Ranks are the numbers from zero on**, one for each identifier of a candidate. -/
theorem bijOn_rank (s : Store) :
    Set.BijOn (rank s) {id | s.Identifies id} (Set.Iio (identifiers s).length) := by
  have hlength : (ranking s).length = (identifiers s).length := (ranking_perm s).length_eq
  refine ⟨fun a ha => ?_, fun a ha b _ heq => ?_, fun n hn => ?_⟩
  · exact hlength ▸ List.idxOf_lt_length_of_mem (mem_ranking.2 ha)
  · exact (List.idxOf_inj (mem_ranking.2 ha)).1 heq
  · have hn : n < (ranking s).length := hlength ▸ hn
    exact ⟨(ranking s)[n], mem_ranking.1 (List.getElem_mem hn), (nodup_ranking s).idxOf_getElem n hn⟩

/-- Of two ranks the lesser one has the lesser head, or the same. -/
theorem head_le_of_rank_le (ha : s.Identifies a) (hb : s.Identifies b) (h : rank s a ≤ rank s b) :
    (standing s a).head ≤ (standing s b).head := by
  refine not_lt.1 fun hlt => ?_
  have hba : (standing s b).compare (standing s a) = .lt := by
    rw [Standing.compare, compare_lt_iff_lt.2 hlt]
    rfl
  exact absurd ((rank_lt_iff hb ha).2 hba) (Nat.not_lt.2 h)

/-- **Kin are ranked together.**  In every store, whatever its candidates are called and whatever
aliases they have:

* the identifiers of candidates have the ranks from zero on, each its own;
* following names up always ends, and two names have one representative just where a chain of
  identifiers and their aliases links them, be it through names that are only aliases;
* an identifier between two of a family belongs to it;
* two families stand as the least of the identifiers in each do. -/
theorem kin_ranked_together (s : Store) :
    Set.BijOn (rank s) {id | s.Identifies id} (Set.Iio (identifiers s).length) ∧
    (∀ fuel name, (families s).length ≤ fuel →
      climb (families s) fuel name = representative (families s) name) ∧
    (∀ a b, representative (families s) a = representative (families s) b ↔ s.Linked a b) ∧
    (∀ a b c, s.Identifies a → s.Identifies b → s.Identifies c → rank s a ≤ rank s b →
      rank s b ≤ rank s c → s.Linked a c → s.Linked a b) ∧
    (∀ a b leastA leastB, s.Identifies a → s.Identifies b → ¬ s.Linked a b →
      IsLeast {x | s.Identifies x ∧ s.Linked a x} leastA →
      IsLeast {x | s.Identifies x ∧ s.Linked b x} leastB →
      (rank s a < rank s b ↔ leastA < leastB)) := by
  refine ⟨bijOn_rank s, fun fuel name h => (descending_families s).climb_eq_representative h name,
    fun a b => areKin_iff.symm.trans areKin_iff_linked, ?_, ?_⟩
  · intro a b c ha hb hc hab hbc hac
    have hheads : (standing s a).head = (standing s c).head := (familyHead_eq_iff ha hc).2 hac
    have hle := head_le_of_rank_le ha hb hab
    have hge := head_le_of_rank_le hb hc hbc
    rw [← hheads] at hge
    exact (familyHead_eq_iff ha hb).1 (le_antisymm hle hge)
  · intro a b leastA leastB ha hb hnot hleastA hleastB
    obtain rfl := (isLeast_familyHead ha).unique hleastA
    obtain rfl := (isLeast_familyHead hb).unique hleastB
    have hne : (standing s a).head ≠ (standing s b).head := fun heq =>
      hnot ((familyHead_eq_iff ha hb).1 heq)
    rw [rank_lt_iff ha hb, Standing.compare, Ordering.then_eq_lt]
    refine ⟨fun h => ?_, fun h => .inl (compare_lt_iff_lt.2 h)⟩
    rcases h with hlt | ⟨heq, -⟩
    · exact compare_lt_iff_lt.1 hlt
    · exact absurd (Std.LawfulEqOrd.eq_of_compare heq) hne

/-- Two mods that can stand in for the same one, and one whose name is between theirs. -/
def sharingAlias : Store :=
  let mod (id : String) (version : List UInt64) (provides : List String) : NewCandidate :=
    Store.foundAt id { id, version := .ofComponents version, provides } none
  Store.gathered [mod "alpha" [1] ["core"], mod "mid" [1] [], mod "zeta" [2] ["core"]]

/-- Linked identifiers follow each other, and the one that is not linked comes behind both. -/
theorem kin_ranked_together_sharingAlias :
    sharingAlias.Linked "alpha" "zeta" ∧ ¬ sharingAlias.Linked "zeta" "mid" ∧
    rank sharingAlias "alpha" < rank sharingAlias "mid" ∧
    rank sharingAlias "zeta" < rank sharingAlias "mid" := by
  obtain ⟨-, -, hlinked, -, horder⟩ := kin_ranked_together sharingAlias
  have hsome : ∀ id ∈ ["alpha", "mid", "zeta"], ∃ c ∈ sharingAlias.records, c.identifier = id := by
    decide +kernel
  have hleast : ∀ id least, sharingAlias.Identifies least →
      representative (families sharingAlias) id = representative (families sharingAlias) least →
      (∀ c ∈ sharingAlias.records, representative (families sharingAlias) id =
        representative (families sharingAlias) c.identifier → least ≤ c.identifier) →
      IsLeast {x | sharingAlias.Identifies x ∧ sharingAlias.Linked id x} least := by
    refine fun id least hin hsame hle => ⟨⟨hin, (hlinked _ _).1 hsame⟩, ?_⟩
    rintro x ⟨⟨c, hc, rfl⟩, hx⟩
    exact hle c hc ((hlinked _ _).2 hx)
  have hmid := hleast "mid" "mid" (hsome _ (by decide)) rfl (by decide +kernel)
  have hnot : ∀ id, representative (families sharingAlias) id ≠
      representative (families sharingAlias) "mid" → ¬ sharingAlias.Linked id "mid" :=
    fun id hne h => hne ((hlinked id "mid").2 h)
  refine ⟨(hlinked _ _).1 (by decide +kernel), hnot _ (by decide +kernel), ?_, ?_⟩
  · refine (horder "alpha" "mid" "alpha" "mid" (hsome _ (by decide)) (hsome _ (by decide))
      (hnot _ (by decide +kernel)) ?_ hmid).2 (by decide)
    exact hleast "alpha" "alpha" (hsome _ (by decide)) rfl (by decide +kernel)
  · refine (horder "zeta" "mid" "alpha" "mid" (hsome _ (by decide)) (hsome _ (by decide))
      (hnot _ (by decide +kernel)) ?_ hmid).2 (by decide)
    exact hleast "zeta" "alpha" (hsome _ (by decide)) (by decide +kernel) (by decide +kernel)

end Priority
end Loadout
