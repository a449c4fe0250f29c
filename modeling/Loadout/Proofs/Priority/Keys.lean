/-
# What decides between two keys

A key is a candidate with the chain of the best ones around it.  Keys compare by their steps from
the candidate outwards, and only where all of these are alike by locations, the outermost first
(`Priority.compareKeys_eq`); so they are ordered totally, as steps and locations are.

The rest of a key hardly ever counts.  A key starts with the step of its candidate, whatever was
known when it was made (`Priority.keyed_told`), and two candidates of a store that are not copies
of each other differ in being nested, in rank or in version.  So the candidates stand in the
order of just these three (`Store.pairwise_keyOrder`), in which no two of them tie.
-/

import Loadout.Proofs.Priority.Kin
import Loadout.Proofs.Priority.Order

namespace Loadout
namespace Priority

variable {s : Store} {ranks : List String}

/-! ### The order of keys -/

instance : Std.TransCmp KeyStep.compareOwn :=
  have := SemanticVersion.transCmp_on (compare : Bool → Bool → Ordering) KeyStep.nested
  have := SemanticVersion.transCmp_on (compare : Nat → Nat → Ordering) KeyStep.rank
  have := @Std.TransCmp.opposite _ Version.compare _
  have := SemanticVersion.transCmp_on (fun a b => Version.compare b a) KeyStep.version
  have := SemanticVersion.transCmp_on (compare : Nat → Nat → Ordering) KeyStep.depth
  inferInstanceAs (Std.TransCmp (compareLex (fun a b : KeyStep => compare a.nested b.nested)
    (compareLex (fun a b : KeyStep => compare a.rank b.rank)
      (compareLex (fun a b : KeyStep => b.version.compare a.version)
        fun a b : KeyStep => compare a.depth b.depth))))

/-- The locations of a key, the outermost first. -/
def Key.locations (k : Key) : List String := (k.map (·.location)).reverse

/-- Lists that compare as equal are equally long. -/
theorem length_eq_of_compareLex_eq {α : Type} {cmp : α → α → Ordering} : ∀ {as bs : List α},
    List.compareLex cmp as bs = .eq → as.length = bs.length
  | [], [], _ => rfl
  | [], _ :: _, h => absurd (List.compareLex_nil_cons.symm.trans h) (by decide)
  | _ :: _, [], h => absurd (List.compareLex_cons_nil.symm.trans h) (by decide)
  | a :: as, b :: bs, h => by
      rw [List.compareLex_cons_cons, Ordering.then_eq_eq] at h
      rw [List.length_cons, List.length_cons, length_eq_of_compareLex_eq h.2]

/-- Lists with parts of one length compare by these, and then by what follows. -/
theorem compareLex_append {α : Type} {cmp : α → α → Ordering} {x y : List α} :
    ∀ {as bs : List α}, as.length = bs.length → List.compareLex cmp (as ++ x) (bs ++ y) =
      (List.compareLex cmp as bs).then (List.compareLex cmp x y)
  | [], [], _ => rfl
  | a :: as, b :: bs, h => by
      rw [List.cons_append, List.cons_append, List.compareLex_cons_cons, List.compareLex_cons_cons,
        compareLex_append (Nat.succ.inj h), Ordering.then_assoc]

/-- **Keys compare by steps**, and by locations where all steps are alike. -/
theorem compareKeys_eq : ∀ a b : Key, compareKeys a b =
    (List.compareLex KeyStep.compareOwn a b).then (List.compareLex compare a.locations b.locations)
  | [], [] => rfl
  | [], _ :: _ => rfl
  | _ :: _, [] => rfl
  | a :: as, b :: bs => by
      rw [compareKeys, compareKeys_eq as bs, List.compareLex_cons_cons, Ordering.then_assoc,
        Ordering.then_assoc]
      congr 1
      cases hsteps : List.compareLex KeyStep.compareOwn as bs with
      | eq =>
          have hlength : (Key.locations as).length = (Key.locations bs).length := by
            simp [Key.locations, length_eq_of_compareLex_eq hsteps]
          have hcons : ∀ (k : KeyStep) (ks : Key), Key.locations (k :: ks) =
              Key.locations ks ++ [k.location] := fun k ks => by simp [Key.locations]
          rw [hcons, hcons, compareLex_append hlength, List.compareLex_cons_cons,
            List.compareLex_nil_nil, Ordering.then_eq]
      | lt => rfl
      | gt => rfl

/-- **Keys are ordered totally.** -/
instance : Std.TransCmp compareKeys := by
  have hlocations := SemanticVersion.transCmp_on (List.compareLex (compare : String → String → Ordering))
    Key.locations
  have heq : compareKeys = compareLex (List.compareLex KeyStep.compareOwn)
      fun a b : Key => List.compareLex compare a.locations b.locations := by
    funext a b
    exact compareKeys_eq a b
  rw [heq]
  infer_instance

/-- Order of numbers with their keys, by the number where the keys are alike. -/
def compareKeyed (a b : CandidateId × Key) : Ordering :=
  (compareKeys a.2 b.2).then (compare a.1 b.1)

instance : Std.TransCmp compareKeyed :=
  have := SemanticVersion.transCmp_on compareKeys (Prod.snd : CandidateId × Key → Key)
  have := SemanticVersion.transCmp_on compare (Prod.fst : CandidateId × Key → CandidateId)
  inferInstanceAs (Std.TransCmp (compareLex (fun a b : CandidateId × Key => compareKeys a.2 b.2)
    fun a b : CandidateId × Key => compare a.1 b.1))

/-- **Numbers are sorted by their keys.** -/
theorem pairwise_mergeSort_keyed (s : Store) :
    ((keyed s).mergeSort fun a b => (compareKeyed a b).isLE).Pairwise fun a b =>
      (compareKeyed a b).isLE = true := by
  refine List.pairwise_mergeSort (fun a b c => Std.TransCmp.isLE_trans) (fun a b => ?_) _
  rw [@Std.OrientedCmp.eq_swap _ compareKeyed _ a b]
  cases compareKeyed b a <;> rfl

/-! ### The step of a candidate -/

/-- **Keys that tell of their candidates**: each starts with the step of the candidate whose
number it stands under. -/
def Told (s : Store) (ranks : List String) (known : KnownKeys) : Prop :=
  ∀ id key, (id, key) ∈ known → ∃ c, s.get? id = some c ∧ ∃ around, key = keyStep ranks c :: around

/-- A key that starts at the candidate may be kept. -/
theorem Told.cons {known : KnownKeys} (h : Told s ranks known) {id : CandidateId} {c : Candidate}
    (hc : s.get? id = some c) (around : Key) : Told s ranks ((id, keyStep ranks c :: around) :: known) := by
  intro x key hin
  rcases List.mem_cons.1 hin with heq | hin
  · obtain ⟨rfl, rfl⟩ := Prod.mk.inj heq
    exact ⟨c, hc, around, rfl⟩
  · exact h x key hin

/-- What is kept may be read in the other order. -/
theorem Told.reverse {known : KnownKeys} (h : Told s ranks known) : Told s ranks known.reverse :=
  fun id key hin => h id key (List.mem_reverse.1 hin)

/-- **A key that is asked for starts with the step of its candidate**, and so do all that are known
afterwards. -/
theorem keyOf_told : ∀ (fuel : Nat) (inside : List CandidateId) (id : CandidateId)
    {known : KnownKeys}, Told s ranks known →
    (∀ key, (keyOf s ranks fuel inside id known).1 = some key →
      ∃ c, s.get? id = some c ∧ ∃ around, key = keyStep ranks c :: around) ∧
    Told s ranks (keyOf s ranks fuel inside id known).2
  | 0, _, _, _, h => ⟨fun _ hkey => absurd hkey (by simp [keyOf]), h⟩
  | fuel + 1, inside, id, known, h => by
      rw [keyOf]
      cases hlookup : known.lookup id with
      | some key =>
          refine ⟨fun k hk => ?_, h⟩
          obtain rfl := Option.some.inj hk
          obtain ⟨before, after, rfl, -⟩ := List.lookup_eq_some_iff.1 hlookup
          exact h id key (by simp)
      | none =>
          cases hget : s.get? id with
          | none => exact ⟨fun _ hkey => absurd hkey (by simp), h⟩
          | some c =>
              by_cases hinside : inside.contains id = true
              · simp only [if_pos hinside]
                exact ⟨fun _ hkey => absurd hkey (by simp), h⟩
              · simp only [if_neg hinside]
                refine ⟨fun key hkey => ⟨c, rfl, _, (Option.some.inj hkey).symm⟩, ?_⟩
                refine Told.cons ?_ hget _
                exact List.foldlRecOn (motive := fun x : Option Key × KnownKeys => Told s ranks x.2)
                  c.parents _ h fun x hx p _ => (keyOf_told fuel (id :: inside) p hx).2

/-- **Every candidate is keyed by a key that starts with its step.** -/
theorem keyed_told (s : Store) : Told s (ranking s) (keyed s) := by
  have hnone : Told s (ranking s) [] := fun _ _ hin => absurd hin List.not_mem_nil
  refine Told.reverse (And.left (List.foldlRecOn (motive := fun x : KnownKeys × KnownKeys =>
    Told s (ranking s) x.1 ∧ Told s (ranking s) x.2) s.ids _ ⟨hnone, hnone⟩ ?_))
  rintro ⟨done, known⟩ ⟨hdone, hknown⟩ id -
  obtain ⟨hkey, hafter⟩ := keyOf_told (s.size + 1) [] id hknown
  refine ⟨?_, hafter⟩
  cases hres : (keyOf s (ranking s) (s.size + 1) [] id known).1 with
  | none => simpa only [hres] using hdone
  | some key =>
      obtain ⟨c, hc, around, rfl⟩ := hkey key hres
      simpa only [hres] using hdone.cons hc around

/-! ### What decides -/

/-- **The order of candidates by what they are**: roots first, then the rank of the identifier,
then the version from the latest. -/
def compareKind (ranks : List String) (a b : Candidate) : Ordering :=
  (compare (!a.isRoot) (!b.isRoot)).then
    ((compare (ranks.idxOf a.identifier) (ranks.idxOf b.identifier)).then
      (b.version.compare a.version))

/-- Comparing two candidates by kind the other way round turns the result round. -/
theorem compareKind_swap (ranks : List String) (a b : Candidate) :
    compareKind ranks a b = (compareKind ranks b a).swap := by
  rw [compareKind, compareKind, Ordering.swap_then, Ordering.swap_then, ← Std.OrientedOrd.eq_swap,
    ← Std.OrientedOrd.eq_swap, ← Std.OrientedCmp.eq_swap]

/-- **What candidates are decides between their keys**, unless they are alike. -/
theorem compareKeys_of_kind {a b : Candidate} (h : compareKind ranks a b ≠ .eq) (as bs : Key) :
    compareKeys (keyStep ranks a :: as) (keyStep ranks b :: bs) = compareKind ranks a b := by
  have hown : (keyStep ranks a).compareOwn (keyStep ranks b) =
      (compareKind ranks a b).then (compare a.depth b.depth) := by
    rw [KeyStep.compareOwn, compareKind, Ordering.then_assoc, Ordering.then_assoc]
    rfl
  rw [compareKeys, hown]
  cases hkind : compareKind ranks a b with
  | eq => exact absurd hkind h
  | lt => rfl
  | gt => rfl

/-- **Candidates that are alike are copies**, where their identifiers have ranks. -/
theorem isCopyOf_of_compareKind_eq {a b : Candidate} (ha : a.identifier ∈ ranks)
    (h : compareKind ranks a b = .eq) : a.isCopyOf b = true := by
  rw [compareKind, Ordering.then_eq_eq, Ordering.then_eq_eq] at h
  obtain ⟨-, hrank, hversion⟩ := h
  have hid : a.identifier = b.identifier :=
    (List.idxOf_inj ha).1 (Std.LawfulEqOrd.eq_of_compare hrank)
  rw [Candidate.isCopyOf, Bool.and_eq_true, beq_iff_eq, Version.sameAs_comm, Version.sameAs_iff]
  exact ⟨hid, hversion⟩

end Priority

namespace Store

open Priority

variable {s : Store}

/-- All candidates, found by number. -/
theorem getAll_perm (hnodup : s.ids.Nodup) {ids : List CandidateId} (hids : ids.Perm s.ids) :
    (s.getAll ids).Perm s.records := by
  have hleft : ((s.getAll ids).map (·.id)).Nodup := by
    rw [s.map_id_getAll hids.subset]
    exact hids.nodup_iff.2 hnodup
  refine (List.perm_ext_iff_of_nodup (hleft.of_map _) (hnodup.of_map _)).2 fun c => ?_
  rw [mem_getAll_iff hnodup, hids.mem_iff]
  exact and_iff_left_of_imp fun hc => mem_ids.2 ⟨c, hc, rfl⟩

/-- **Candidates stand in the order of what they are** when they are sorted by key, if no two are
one mod in one version. -/
theorem pairwise_keyOrder (hids : s.ids.Nodup) (hdistinct : Distinct s.records) :
    (s.getAll (keyOrder s)).Pairwise fun a b => compareKind (ranking s) a b = .lt := by
  have hperm := List.mergeSort_perm (keyed s) fun a b => (compareKeyed a b).isLE
  have hnodup : ((keyed s).mergeSort fun a b => (compareKeyed a b).isLE).Pairwise fun a b =>
      a.1 ≠ b.1 := by
    have hkeyed : ((keyed s).map (·.1)).Nodup := (map_keyed s).symm ▸ hids
    exact List.pairwise_map.1 ((hperm.map Prod.fst).nodup_iff.2 hkeyed)
  change ((((keyed s).mergeSort fun a b => (compareKeyed a b).isLE).map (·.1)).filterMap
    s.get?).Pairwise _
  rw [List.filterMap_map, List.pairwise_filterMap]
  refine ((pairwise_mergeSort_keyed s).and hnodup).imp_of_mem fun {a b} ha hb hab c hc d hd => ?_
  obtain ⟨hle, hne⟩ := hab
  obtain ⟨c', hc', as, hac⟩ := keyed_told s a.1 a.2 (hperm.mem_iff.1 ha)
  obtain ⟨d', hd', bs, hbd⟩ := keyed_told s b.1 b.2 (hperm.mem_iff.1 hb)
  obtain rfl := Option.some.inj (hc'.symm.trans hc)
  obtain rfl := Option.some.inj (hd'.symm.trans hd)
  obtain ⟨hcs, hca⟩ := mem_of_get? hc'
  obtain ⟨hds, hdb⟩ := mem_of_get? hd'
  -- candidates of different numbers are not copies, so they are not alike
  have hkind : compareKind (ranking s) c' d' ≠ .eq := fun heq => hne (by
    rw [← hca, ← hdb, hdistinct c' hcs d' hds
      (isCopyOf_of_compareKind_eq (mem_ranking.2 ⟨c', hcs, rfl⟩) heq)])
  rw [compareKeyed, hac, hbd, compareKeys_of_kind hkind] at hle
  cases hres : compareKind (ranking s) c' d' with
  | lt => rfl
  | eq => exact absurd hres hkind
  | gt => exact absurd hle (by simp [hres])

/-- In the order of keys all candidates stand by kind, strictly. -/
theorem Catalogued.pairwise_keyOrder (h : s.Catalogued) :
    (s.getAll (keyOrder s)).Pairwise fun a b => compareKind (ranking s) a b = .lt :=
  Store.pairwise_keyOrder h.indexed.nodup h.distinct

end Store
end Loadout
