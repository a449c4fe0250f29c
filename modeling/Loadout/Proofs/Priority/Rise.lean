/-
# What a candidate rises past

A candidate rises by whole blocks of one identifier (`Priority.rise_succ_cases`).  Two candidates
that stand the other way round than their keys do so because one overtook the other
(`Store.pairwise_preferenceOrder`): it is newer and goes by another identifier, and
someone of that identifier could stand in for it.

By key all roots come first.  A nested candidate does not rise past a block whose nearest member is
a root; but a block whose nearest member is nested may have roots further on, and these it passes
with the rest.  So a root falls behind a nested candidate only where another nested one goes by the
root's identifier (`Store.roots_ahead_unless_overtaken`), and none does if no nested candidate goes
by the identifier of the last root.
-/

import Loadout.Proofs.Priority.Independent
import Mathlib.Data.List.TakeWhile

namespace Loadout
namespace Priority

/-- Why a candidate may stand ahead of one that it followed by key: it is newer and goes by another
identifier, by which also an older candidate goes that is a root just if it is one itself, and
someone who could stand in for it. -/
structure Overtakes (all : List Candidate) (c b : Candidate) : Prop where
  other : b.identifier ≠ c.identifier
  newer : b.version.below c.version = true
  alike : ∃ m ∈ all, m.identifier = b.identifier ∧ m.isRoot = c.isRoot ∧
    m.version.below c.version = true
  standIn : ∃ m ∈ all, m.identifier = b.identifier ∧ m.overlaps c = true

/-- What a candidate overtakes among some it overtakes among more. -/
theorem Overtakes.mono {all all' : List Candidate} {c b : Candidate} (h : Overtakes all c b)
    (hsub : all ⊆ all') : Overtakes all' c b where
  other := h.other
  newer := h.newer
  alike := h.alike.imp fun _ hm => ⟨hsub hm.1, hm.2⟩
  standIn := h.standIn.imp fun _ hm => ⟨hsub hm.1, hm.2⟩

/-! ### Block by block -/

/-- A block that a candidate passes.  Of all its members only the nearest one is asked whether it
is a root. -/
structure Passable (c : Candidate) (block : List Candidate) : Prop where
  nearest : ∃ p rest, block = p :: rest ∧ p.identifier ≠ c.identifier ∧ p.isRoot = c.isRoot ∧
    ∀ b ∈ rest, b.identifier = p.identifier
  mayPass : mayPass c block = true

/-- Everyone in the block is overtaken. -/
theorem Passable.overtakes {c : Candidate} {block : List Candidate} (h : Passable c block)
    {b : Candidate} (hb : b ∈ block) : Overtakes block c b := by
  obtain ⟨p, rest, rfl, hother, hroot, hids⟩ := h.nearest
  have hid : ∀ m ∈ p :: rest, m.identifier = p.identifier := List.forall_mem_cons.2 ⟨rfl, hids⟩
  have hpass := h.mayPass
  rw [Priority.mayPass, Bool.and_eq_true, List.any_eq_true, Bool.not_eq_true', List.any_eq_false] at hpass
  obtain ⟨⟨o, ho, hoverlaps⟩, hnewer⟩ := hpass
  have hbelow : ∀ m ∈ p :: rest, m.version.below c.version = true := fun m hm =>
    Version.below_iff_not_atMost.2 (Bool.not_eq_true _ ▸ hnewer m hm)
  exact {
    other := hid b hb ▸ hother
    newer := hbelow b hb
    alike := ⟨p, List.mem_cons_self .., (hid b hb).symm, hroot, hbelow p (List.mem_cons_self ..)⟩
    standIn := ⟨o, ho, (hid o ho).trans (hid b hb).symm, hoverlaps⟩ }

/-- **A candidate rises no further, or past a block** and then on from behind it. -/
theorem rise_succ_cases (c : Candidate) (fuel risen : Nat) (before : List Candidate) :
    rise c (fuel + 1) risen before = risen ∨
    ∃ block rest, before = block ++ rest ∧ Passable c block ∧
      risen + block.length ≤ riseLimit ∧
      rise c (fuel + 1) risen before = rise c fuel (risen + block.length) rest := by
  cases before with
  | nil => exact .inl rfl
  | cons p rest =>
    rw [rise]
    split
    · exact .inl rfl
    · rename_i hhead
      rw [Bool.or_eq_true, decide_eq_true_iff, bne_iff_ne, not_or, Decidable.not_not] at hhead
      dsimp only
      split
      · exact .inl rfl
      · rename_i hblock
        rw [Bool.or_eq_true, decide_eq_true_iff, Bool.not_eq_true', not_or, Nat.not_lt,
          Bool.not_eq_false] at hblock
        have hrun : p :: rest.takeWhile (fun b => b.identifier == p.identifier) <+: p :: rest :=
          List.prefix_cons_inj p |>.2 (List.takeWhile_prefix _)
        refine .inr ⟨_, _, (List.prefix_iff_eq_append.1 hrun).symm, ⟨⟨p, _, rfl, hhead.1, hhead.2,
          fun b hb => ?_⟩, hblock.2⟩, hblock.1, rfl⟩
        simpa using List.mem_takeWhile_imp hb

/-- **Whoever a candidate rises past is overtaken.** -/
theorem exists_rise_eq (c : Candidate) (fuel risen : Nat) (before : List Candidate) :
    ∃ n, rise c fuel risen before = risen + n ∧ ∀ b ∈ before.take n, Overtakes before c b := by
  induction fuel generalizing risen before with
  | zero => exact ⟨0, rfl, by simp⟩
  | succ fuel ih =>
    rcases rise_succ_cases c fuel risen before with hstay | ⟨block, rest, rfl, hblock, -, hon⟩
    · exact ⟨0, hstay, by simp⟩
    · obtain ⟨n, hn, hrest⟩ := ih (risen + block.length) rest
      refine ⟨block.length + n, by rw [hon, hn, Nat.add_assoc], fun b hb => ?_⟩
      rw [List.take_length_add_append, List.mem_append] at hb
      rcases hb with hb | hb
      · exact (hblock.overtakes hb).mono (List.subset_append_left _ _)
      · exact (hrest b hb).mono (List.subset_append_right _ _)

/-! ### All candidates after each other -/

section Placing

variable {Q : Candidate → Candidate → Prop} {all : List Candidate}

/-- **A candidate that is put into its place keeps to the order**, or overtakes.  What precedes is
given nearest first. -/
theorem pairwise_settle {before : List Candidate} {c : Candidate} (hc : ∀ b ∈ before, Q b c)
    (hall : before ⊆ all)
    (h : before.Pairwise fun b a => Q a b ∨ (Q b a ∧ Overtakes all a b)) :
    (settle before c).Pairwise fun b a => Q a b ∨ (Q b a ∧ Overtakes all a b) := by
  obtain ⟨n, hn, hovertakes⟩ := exists_rise_eq c before.length 0 before
  rw [← List.take_append_drop n before, List.pairwise_append] at h
  obtain ⟨hnear, hfar, hcross⟩ := h
  rw [settle, hn, Nat.zero_add, List.pairwise_append, List.pairwise_cons]
  refine ⟨hnear, ⟨fun b hb => .inl (hc b (List.mem_of_mem_drop hb)), hfar⟩, fun b hb a ha => ?_⟩
  rcases List.mem_cons.1 ha with rfl | ha
  · exact .inr ⟨hc b (List.mem_of_mem_take hb), (hovertakes b hb).mono hall⟩
  · exact hcross b hb a ha

/-- After all have settled, whatever stands out of order was overtaken. -/
theorem pairwise_foldl_settle : ∀ (cs : List Candidate) {before : List Candidate}, cs.Pairwise Q →
    (∀ b ∈ before, ∀ c ∈ cs, Q b c) → cs ⊆ all → before ⊆ all →
    (before.Pairwise fun b a => Q a b ∨ (Q b a ∧ Overtakes all a b)) →
    (cs.foldl settle before).Pairwise fun b a => Q a b ∨ (Q b a ∧ Overtakes all a b)
  | [], _, _, _, _, _, h => h
  | c :: cs, before, hcs, hQ, hall, hbefore, h => by
      obtain ⟨hc, hcs⟩ := List.pairwise_cons.1 hcs
      obtain ⟨hin, hall⟩ := List.cons_subset.1 hall
      have hmem : ∀ b, b ∈ settle before c ↔ b = c ∨ b ∈ before := fun b =>
        (settle_perm before c).mem_iff.trans List.mem_cons
      refine pairwise_foldl_settle cs hcs (fun b hb d hd => ?_) hall (fun b hb => ?_)
        (pairwise_settle (fun b hb => hQ b hb c (List.mem_cons_self ..)) hbefore h)
      · rcases (hmem b).1 hb with rfl | hb
        · exact hc d hd
        · exact hQ b hb d (List.mem_cons_of_mem _ hd)
      · rcases (hmem b).1 hb with rfl | hb
        · exact hin
        · exact hbefore hb

end Placing

/-! ### Roots and nested candidates -/

/-- No root stands behind a nested candidate. -/
def RootsFirst (cs : List Candidate) : Prop :=
  cs.Pairwise fun a b => b.isRoot = true → a.isRoot = true

/-- What comes ahead of a root by kind is a root. -/
theorem isRoot_of_compareKind {ranks : List String} {a b : Candidate}
    (h : compareKind ranks a b = .lt) (hb : b.isRoot = true) : a.isRoot = true := by
  cases ha : a.isRoot with
  | true => rfl
  | false =>
    rw [compareKind, ha, hb] at h
    cases h

/-- Where roots come first, they are followed by all others. -/
theorem RootsFirst.eq_append : ∀ {cs : List Candidate}, RootsFirst cs →
    cs = cs.filter (·.isRoot) ++ cs.filter (!·.isRoot)
  | [], _ => rfl
  | c :: cs, h => by
      obtain ⟨hc, hcs⟩ := List.pairwise_cons.1 h
      have ih := RootsFirst.eq_append hcs
      cases hroot : c.isRoot with
      | true =>
        rw [List.filter_cons_of_pos hroot, List.filter_cons_of_neg (by simp [hroot]), List.cons_append,
          ← ih]
      | false =>
        have hnone : cs.filter (·.isRoot) = [] := List.filter_eq_nil_iff.2 fun b hb hbroot => by
          rw [hc b hb hbroot] at hroot
          cases hroot
        rw [List.filter_cons_of_neg (by simp [hroot]), List.filter_cons_of_pos (by simp [hroot]), hnone,
          List.nil_append]
        rw [hnone, List.nil_append] at ih
        rw [← ih]

/-- Nested candidates leave the roots in the order they are in. -/
theorem filter_foldl_settle {cs : List Candidate} (hcs : ∀ c ∈ cs, c.isRoot = false)
    (before : List Candidate) :
    (cs.foldl settle before).filter (·.isRoot) = before.filter (·.isRoot) := by
  induction cs generalizing before with
  | nil => rfl
  | cons c cs ih =>
    obtain ⟨hc, hcs⟩ := List.forall_mem_cons.1 hcs
    rw [List.foldl_cons, ih hcs, settle, List.filter_append, List.filter_cons_of_neg (by simp [hc]),
      ← List.filter_append, List.take_append_drop]

section Boundary

variable {c : Candidate} {nested roots : List Candidate}

/-- A block that a nested candidate passes ends before the roots, if the nearest of them shares its
identifier with none of the nested ones before it. -/
theorem Passable.exists_eq_append {block rest : List Candidate} (h : Passable c block)
    (hc : c.isRoot = false) (hroots : ∀ r ∈ roots, r.isRoot = true)
    (hlast : ∀ r, roots.head? = some r → ∀ m ∈ nested, m.identifier ≠ r.identifier)
    (hsplit : nested ++ roots = block ++ rest) :
    ∃ left, nested = block ++ left ∧ rest = left ++ roots := by
  obtain ⟨p, others, rfl, -, hp, hids⟩ := h.nearest
  have hin : p ∈ nested := by
    have hmem : p ∈ nested ++ roots := hsplit ▸ List.mem_cons_self ..
    refine (List.mem_append.1 hmem).resolve_right fun hroot => ?_
    rw [hc, hroots p hroot] at hp
    cases hp
  rcases List.append_eq_append_iff.1 hsplit with ⟨excess, hexcess, rfl⟩ | hleft
  · cases excess with
    | nil => exact ⟨[], by rw [hexcess, List.append_nil, List.append_nil], rfl⟩
    | cons r excess =>
      -- the nearest root belongs to the block, whose nearest member is nested
      have hr : r ∈ p :: others := hexcess ▸ List.mem_append_right _ (List.mem_cons_self ..)
      have hid : ∀ m ∈ p :: others, m.identifier = p.identifier := List.forall_mem_cons.2 ⟨rfl, hids⟩
      exact absurd (hid r hr).symm (hlast r rfl p hin)
  · exact hleft

/-- **A nested candidate stays behind the roots**, if the nearest of them shares its identifier with
none of the nested ones. -/
theorem rise_le_of_nested (hc : c.isRoot = false) (hroots : ∀ r ∈ roots, r.isRoot = true)
    (hlast : ∀ r, roots.head? = some r → ∀ m ∈ nested, m.identifier ≠ r.identifier)
    (fuel risen : Nat) : rise c fuel risen (nested ++ roots) ≤ risen + nested.length := by
  induction fuel generalizing risen nested with
  | zero => exact Nat.le_add_right _ _
  | succ fuel ih =>
    rcases rise_succ_cases c fuel risen (nested ++ roots) with
      hstay | ⟨block, rest, hsplit, hblock, -, hon⟩
    · rw [hstay]
      exact Nat.le_add_right _ _
    · obtain ⟨left, rfl, rfl⟩ := hblock.exists_eq_append hc hroots hlast hsplit
      have hon' := ih (fun r hr m hm => hlast r hr m (List.mem_append_right _ hm))
        (risen + block.length)
      rw [hon, List.length_append, ← Nat.add_assoc]
      exact hon'

/-- Nested candidates settle among themselves, if none goes by the identifier of the nearest root. -/
theorem exists_foldl_settle_eq (hroots : ∀ r ∈ roots, r.isRoot = true) {cs : List Candidate}
    (hcs : ∀ c ∈ cs, c.isRoot = false) (hnested : ∀ m ∈ nested, m.isRoot = false)
    (hlast : ∀ r, roots.head? = some r → ∀ m ∈ cs ++ nested, m.identifier ≠ r.identifier) :
    ∃ settled, cs.foldl settle (nested ++ roots) = settled ++ roots ∧
      ∀ m ∈ settled, m.isRoot = false := by
  induction cs generalizing nested with
  | nil => exact ⟨nested, rfl, hnested⟩
  | cons c cs ih =>
    obtain ⟨hc, hcs⟩ := List.forall_mem_cons.1 hcs
    have hrise : rise c (nested ++ roots).length 0 (nested ++ roots) ≤ nested.length :=
      Nat.zero_add nested.length ▸ rise_le_of_nested hc hroots
        (fun r hr m hm => hlast r hr m (List.mem_append_right _ hm)) _ 0
    rw [List.foldl_cons, settle, List.take_append_of_le_length hrise,
      List.drop_append_of_le_length hrise, ← List.cons_append, ← List.append_assoc]
    have hmem : ∀ n, ∀ m ∈ nested.take n ++ c :: nested.drop n, m = c ∨ m ∈ nested := fun n m hm => by
      rwa [List.perm_middle.mem_iff, List.take_append_drop, List.mem_cons] at hm
    refine ih hcs (fun m hm => ?_) fun r hr m hm => hlast r hr m ?_
    · rcases hmem _ m hm with rfl | hm
      · exact hc
      · exact hnested m hm
    · rw [List.cons_append]
      rcases List.mem_append.1 hm with hm | hm
      · exact List.mem_cons_of_mem _ (List.mem_append_left _ hm)
      · exact List.mem_cons.2 ((hmem _ m hm).imp_right (List.mem_append_right _))
end Boundary
end Priority

namespace Store

open Priority

variable {s : Store}

/-- **Candidates keep to an order in which their keys stand, unless one overtook the other.** -/
theorem pairwise_preferenceOrder (hids : s.ids.Nodup) {Q : Candidate → Candidate → Prop}
    (hQ : (s.getAll (keyOrder s)).Pairwise Q) :
    (s.getAll s.preferenceOrder).Pairwise fun a b => Q a b ∨ (Q b a ∧ Overtakes s.records a b) := by
  rw [getAll_preferenceOrder hids, List.pairwise_reverse]
  exact pairwise_foldl_settle _ hQ (fun _ hb => absurd hb List.not_mem_nil)
    (fun _ hc => (mem_getAll hc).1) (List.nil_subset _) List.Pairwise.nil

/-- Candidates keep to the order of their kinds, unless one overtook the other. -/
theorem Catalogued.pairwise_preferenceOrder (h : s.Catalogued) :
    (s.getAll s.preferenceOrder).Pairwise fun a b => compareKind (ranking s) a b = .lt ∨
      (compareKind (ranking s) b a = .lt ∧ Overtakes s.records a b) :=
  Store.pairwise_preferenceOrder h.indexed.nodup h.pairwise_keyOrder

/-- By key the roots come first. -/
theorem Catalogued.rootsFirst_keyOrder (h : s.Catalogued) : RootsFirst (s.getAll (keyOrder s)) :=
  h.pairwise_keyOrder.imp isRoot_of_compareKind

/-- The last root in the order of preference. -/
def lastRoot? (s : Store) : Option Candidate :=
  ((s.getAll s.preferenceOrder).filter (·.isRoot)).getLast?

/-- The last root is a root of the store. -/
theorem mem_of_lastRoot? {r : Candidate} (h : s.lastRoot? = some r) :
    r ∈ s.records ∧ r.isRoot = true := by
  obtain ⟨hin, hroot⟩ := List.mem_filter.1 (List.mem_of_getLast? h)
  exact ⟨(mem_getAll hin).1, hroot⟩

/-- **No nested candidate gets past the last root** if none goes by its identifier. -/
theorem Catalogued.rootsFirst_preferenceOrder (h : s.Catalogued)
    (hlast : ∀ r, s.lastRoot? = some r → ∀ m ∈ s.records, m.isRoot = false →
      m.identifier ≠ r.identifier) : RootsFirst (s.getAll s.preferenceOrder) := by
  have hsplit := h.rootsFirst_keyOrder.eq_append
  generalize hcs : s.getAll (keyOrder s) = cs at hsplit
  generalize hrs : (cs.filter (·.isRoot)).foldl Priority.settle [] = rs
  have hroots : ∀ r ∈ rs, r.isRoot = true := fun r hr => by
    rw [← hrs, (foldl_settle_perm _ _).mem_iff, List.append_nil] at hr
    exact (List.mem_filter.1 hr).2
  have hnested : ∀ c ∈ cs.filter (!·.isRoot), c.isRoot = false := fun c hc => by
    simpa using (List.mem_filter.1 hc).2
  have horder : s.getAll s.preferenceOrder =
      ((cs.filter (!·.isRoot)).foldl Priority.settle rs).reverse := by
    rw [getAll_preferenceOrder h.indexed.nodup, hcs, ← hrs, ← List.foldl_append, ← hsplit]
  have hhead : s.lastRoot? = rs.head? := by
    rw [lastRoot?, horder, List.filter_reverse, filter_foldl_settle hnested, List.getLast?_reverse,
      List.filter_eq_self.2 hroots]
  have hnone : ∀ m ∈ ([] : List Candidate), m.isRoot = false := fun _ hm => absurd hm List.not_mem_nil
  obtain ⟨settled, hsettled, hsettledNested⟩ := exists_foldl_settle_eq hroots hnested hnone
    fun r hr m hm => by
      rw [List.append_nil] at hm
      have hin : m ∈ s.getAll (keyOrder s) := hcs ▸ (List.mem_filter.1 hm).1
      exact hlast r (hhead.trans hr) m (mem_getAll hin).1 (hnested m hm)
  rw [List.nil_append] at hsettled
  rw [RootsFirst, horder, hsettled, List.pairwise_reverse, List.pairwise_append]
  refine ⟨List.pairwise_of_forall_mem_list fun b hb a _ hroot => ?_,
    List.pairwise_of_forall_mem_list fun _ _ a ha _ => hroots a ha, fun _ _ a ha _ => hroots a ha⟩
  rw [hsettledNested b hb] at hroot
  cases hroot

/-- **Roots stay ahead of nested candidates up to those that these overtake.**  By key all roots come
first, after any changes to a store.  In the order of preference a nested candidate stands ahead of
a root only if it overtakes it: it is newer and goes by another identifier, by which also an older
nested candidate goes and someone who could stand in for it.  Where no nested candidate goes by the
identifier of the last root, all roots come first. -/
theorem roots_ahead_unless_overtaken (changes : List Change) :
    RootsFirst ((after changes).getAll (keyOrder (after changes))) ∧
    ((after changes).getAll (after changes).preferenceOrder).Pairwise (fun a b =>
      a.isRoot = false → b.isRoot = true → Overtakes (after changes).records a b) ∧
    ((∀ r, (after changes).lastRoot? = some r → ∀ m ∈ (after changes).records, m.isRoot = false →
      m.identifier ≠ r.identifier) →
      RootsFirst ((after changes).getAll (after changes).preferenceOrder)) := by
  have hcat := catalogued_after changes
  refine ⟨hcat.rootsFirst_keyOrder, ?_, hcat.rootsFirst_preferenceOrder⟩
  refine hcat.pairwise_preferenceOrder.imp fun {a b} hab ha hb => ?_
  rcases hab with hlt | ⟨-, hovertakes⟩
  · rw [isRoot_of_compareKind hlt hb] at ha
    cases ha
  · exact hovertakes

/-- Taking in an archive, at the top or inside another one. -/
def taking (id : String) (version : List UInt64) (provides : List String)
    (parent? : Option CandidateId) : Change :=
  .insert (foundAt id { id, version := .ofComponents version, provides } parent?)

/-- A library at the top, with an older one and what can replace them inside an application. -/
def sharedLibrary : List Change :=
  [taking "app" [1] [] none, taking "lib" [1] [] none, taking "lib" [0, 9] [] (some 0),
    taking "zlib" [2] ["lib"] (some 0), taking "zlib" [0, 2] ["lib"] (some 0),
    taking "zlib" [0, 1] ["lib"] (some 0)]

/-- The same without the library at the top. -/
def innerLibrary : List Change :=
  [taking "app" [1] [] none, taking "lib" [0, 9] [] (some 0), taking "zlib" [2] ["lib"] (some 0),
    taking "zlib" [0, 2] ["lib"] (some 0), taking "zlib" [0, 1] ["lib"] (some 0)]

/-- The replacement that is newer than both libraries has passed both. -/
theorem preferenceOrder_sharedLibrary : (after sharedLibrary).preferenceOrder = [0, 3, 1, 2, 4, 5] := by
  have hranking : ranking (after sharedLibrary) = ["app", "lib", "zlib"] := by
    rw [ranking, List.mergeSort_of_pairwise (by decide +kernel)]
    decide +kernel
  have hkeys : keyOrder (after sharedLibrary) = [0, 1, 2, 3, 4, 5] := by
    rw [keyOrder, keyed, hranking, List.mergeSort_of_pairwise (by decide +kernel)]
    decide +kernel
  rw [preferenceOrder, hkeys]
  decide +kernel

/-- The newer library overtakes a root, and without that library in the top roots stay ahead. -/
theorem roots_ahead_unless_overtaken_library :
    (∃ lib zlib, (after sharedLibrary).get? 1 = some lib ∧ (after sharedLibrary).get? 3 = some zlib ∧
      lib.isRoot = true ∧ zlib.isRoot = false ∧ Overtakes (after sharedLibrary).records zlib lib) ∧
    RootsFirst ((after innerLibrary).getAll (after innerLibrary).preferenceOrder) := by
  constructor
  · obtain ⟨lib, hlib, hroot⟩ : ∃ c, (after sharedLibrary).get? 1 = some c ∧ c.isRoot = true :=
      Option.map_eq_some_iff.1 (by decide +kernel)
    obtain ⟨zlib, hzlib, hnested⟩ : ∃ c, (after sharedLibrary).get? 3 = some c ∧ c.isRoot = false :=
      Option.map_eq_some_iff.1 (by decide +kernel)
    obtain ⟨-, hovertakes, -⟩ := roots_ahead_unless_overtaken sharedLibrary
    rw [preferenceOrder_sharedLibrary, getAll, List.pairwise_filterMap] at hovertakes
    have hlibrary := (List.pairwise_cons.1 (List.pairwise_cons.1 hovertakes).2).1 1 (by decide)
    exact ⟨lib, zlib, hlib, hzlib, hroot, hnested, hlibrary zlib hzlib lib hlib hnested hroot⟩
  · have hnone : ∀ r ∈ (after innerLibrary).records, r.isRoot = true →
        ∀ m ∈ (after innerLibrary).records, m.isRoot = false → m.identifier ≠ r.identifier := by
      decide +kernel
    exact (roots_ahead_unless_overtaken innerLibrary).2.2 fun r hr =>
      hnone r (mem_of_lastRoot? hr).1 (mem_of_lastRoot? hr).2

end Store
end Loadout
