/-
# Roots beside the mods of a fix

A mod that a fix brings in takes the place of one candidate: of one that is selected where the
failure is explained, nested or not, and of a root only if there is none
(`Solver.replacedBy_eq_some_iff`).  No root of its identifier is removed either, because the
mod that comes in provides the identifier.  So a root stays beside a mod that comes in exactly
where a nested candidate of its identifier was selected (`Solver.root_gone_iff`), and if the
root has another version, the mod cannot be taken in any more
(`Store.Indexed.insert_left_eq_error_iff`).
-/

import Loadout.Proofs.Selection.Cheapest
import Loadout.Proofs.Store.Roots

namespace Loadout
namespace Store

variable {s : Store}

/-- A root is carried as long as it is not gone itself. -/
theorem Ranked.root_mem_carried_iff (hr : s.Ranked) {gone : List CandidateId} {c : Candidate}
    (hc : c ∈ s.records) (hroot : c.isRoot = true) : c.id ∈ s.carried gone ↔ c.id ∉ gone := by
  rw [mem_carried_iff hr]
  constructor
  · exact fun h => (mem_unselected.1 h.mem).2
  · exact fun h => .root hc (mem_unselected.2 ⟨mem_ids.2 ⟨c, hc, rfl⟩, h⟩) hroot

/-- **Taking in a stand-in fails** where there is a root of its identifier in another version. -/
theorem Indexed.insert_asFound_eq_error_iff (h : s.Indexed) {a : StandIn} :
    (∃ e, s.insert a.asFound = .error e) ↔ ∃ c ∈ s.records, c.isRoot = true ∧
      c.identifier = a.identifier ∧ c.version.sameAs a.version = false := by
  rw [h.exists_insert_eq_error_iff]
  exact and_iff_right rfl

/-- **Taking in a stand-in once some candidates are gone fails** where such a root is not one of
them. -/
theorem Indexed.insert_left_eq_error_iff (h : s.Indexed) (hr : s.Ranked) {gone : List CandidateId}
    {a : StandIn} : (∃ e, (s.settle (s.carried gone)).insert a.asFound = .error e) ↔
      ∃ c ∈ s.records, c.isRoot = true ∧ c.identifier = a.identifier ∧
        c.version.sameAs a.version = false ∧ c.id ∉ gone := by
  obtain ⟨stay, hstay⟩ := h.exists_leaves hr gone
  rw [(h.settle _).insert_asFound_eq_error_iff]
  simp only [hstay.records, Candidate.identifier, Candidate.version]
  constructor
  · rintro ⟨_, ⟨c, hc, hin, rfl⟩, hroot, hid, hversion⟩
    rw [hstay.isRoot c hc hin] at hroot
    rw [hstay.descriptor] at hid hversion
    exact ⟨c, hc, hroot, hid, hversion, (hr.root_mem_carried_iff hc hroot).1 hin⟩
  · rintro ⟨c, hc, hroot, hid, hversion, hkept⟩
    have hin := (hr.root_mem_carried_iff hc hroot).2 hkept
    exact ⟨stay c, ⟨c, hc, hin, rfl⟩, (hstay.isRoot c hc hin).trans hroot,
      by rwa [hstay.descriptor], by rwa [hstay.descriptor]⟩

end Store

namespace Solver

variable {s : Solver} {explained made : List Choice} {standIns : List StandIn}

/-! ### What is replaced -/

/-- **What could be replaced** are the roots and the selected candidates of an identifier. -/
theorem exists_replaceable (hi : s.store.Indexed) (explained : List Choice) (a : StandIn) :
    ∃ existing : List Candidate,
      (∀ c, c ∈ existing ↔ c ∈ s.store.records ∧ c.identifier = a.identifier ∧
        (c.isRoot = true ∨ .candidate c.id ∈ explained)) ∧
      s.replacedBy explained a =
        (existing.filter fun c => isSelected explained c.id).head?.or existing.head? := by
  refine ⟨_, fun c => ?_, rfl⟩
  have hperm := List.mergeSort_perm (s.store.providers a.identifier)
    fun a b => decide (s.order.idxOf a ≤ s.order.idxOf b)
  rw [List.mem_filter, hi.mem_getAll_iff, byPreference, hperm.mem_iff, hi.members]
  simp only [Bool.and_eq_true, beq_iff_eq, Bool.or_eq_true, isSelected, List.contains_eq_mem,
    decide_eq_true_eq]
  constructor
  · rintro ⟨⟨hc, -⟩, hid, hp⟩
    exact ⟨hc, hid, hp⟩
  · rintro ⟨hc, hid, hp⟩
    exact ⟨⟨hc, c, hc, rfl, Store.provides_iff.2 (Or.inl hid.symm)⟩, hid, hp⟩

/-- **A root is replaced** unless a nested candidate of its identifier is selected. -/
theorem replacedBy_eq_some_iff (hi : s.store.Indexed) (hroots : s.store.RootsDiffer)
    (hexplained : (s.posed .explain).Obeys explained.contains) {a : StandIn} {r : Candidate}
    (hr : r ∈ s.store.records) (hroot : r.isRoot = true) (hra : r.identifier = a.identifier) :
    s.replacedBy explained a = some r ↔ ∀ c ∈ s.store.records, c.isRoot = false →
      c.identifier = a.identifier → .candidate c.id ∉ explained := by
  obtain ⟨existing, hmem, heq⟩ := exists_replaceable hi explained a
  rw [heq]
  constructor
  · intro hfirst c hc hnested hca hsel
    have hcin : c ∈ existing.filter fun c => isSelected explained c.id :=
      List.mem_filter.2 ⟨(hmem c).2 ⟨hc, hca, Or.inr hsel⟩, by simpa [isSelected] using hsel⟩
    obtain ⟨x, hx⟩ := Option.isSome_iff_exists.1 (List.isSome_head?.2 (List.ne_nil_of_mem hcin))
    rw [hx, Option.some_or, Option.some.injEq] at hfirst
    subst hfirst
    have hrsel : isSelected explained x.id = true := (List.mem_filter.1 (List.mem_of_head? hx)).2
    -- two candidates of one identifier would be selected
    have hsame := hexplained.single _ (Instance.ofCandidate_mem_offers hr) _
      (Instance.ofCandidate_mem_offers hc) hrsel (by simpa using hsel) a.identifier
      (Store.provides_iff.2 (Or.inl hra.symm)) (Store.provides_iff.2 (Or.inl hca.symm))
    rw [hi.eq_of_id_eq hr hc (Choice.candidate.inj hsame), hnested] at hroot
    exact Bool.false_ne_true hroot
  · intro hnone
    have honly : ∀ c ∈ existing, c = r := fun c hc => by
      obtain ⟨hcr, hca, hcroot⟩ := (hmem c).1 hc
      cases hcr' : c.isRoot with
      | true => exact hroots c hcr r hr hcr' hroot (hca.trans hra.symm)
      | false => exact absurd (hcroot.resolve_left (by simp [hcr'])) (hnone c hcr hcr' hca)
    have hin : r ∈ existing := (hmem r).2 ⟨hr, hra, Or.inl hroot⟩
    obtain ⟨x, hx⟩ := Option.isSome_iff_exists.1 (List.isSome_head?.2 (List.ne_nil_of_mem hin))
    have hxr := honly x (List.mem_of_head? hx)
    cases hsel : (existing.filter fun c => isSelected explained c.id).head? with
    | none => rw [hx, hxr, Option.none_or]
    | some y =>
        rw [Option.some_or, honly y (List.mem_filter.1 (List.mem_of_head? hsel)).1]

/-! ### What stays beside the mods of a fix -/

/-- **A root goes with what comes in under its identifier** unless a nested candidate of the
identifier is selected where the failure is explained. -/
theorem root_gone_iff (hground : (s.posed (.repair standIns)).Grounded)
    (hsize : s.store.size + standIns.length < 2 ^ 32)
    (hmade : (s.posed (.repair standIns)).Best made) (hroots : s.store.RootsDiffer)
    (hexplained : (s.posed .explain).Obeys explained.contains) {a : StandIn}
    (ha : a ∈ (s.readFix explained standIns made).brought) {r : Candidate}
    (hr : r ∈ s.store.records) (hroot : r.isRoot = true) (hra : r.identifier = a.identifier) :
    r.id ∈ (s.readFix explained standIns made).gone ↔ ∀ c ∈ s.store.records, c.isRoot = false →
      c.identifier = a.identifier → .candidate c.id ∉ explained := by
  have hadded := (s.perm_brought explained standIns made).mem_iff.1 ha
  obtain ⟨n, hn, hnmade⟩ := mem_addedStandIns.1 hadded
  have hkept : .removed r.id ∉ made := fun hremoved => by
    have hnot := hmade.not_provided_of_removed hground rfl hsize hr hremoved
      (Instance.ofStandIn_mem_offers hn) hnmade
    exact absurd (hnot.symm.trans (by simp [hra])) Bool.false_ne_true
  rw [mem_gone_iff hground.indexed hr, or_iff_right hkept,
    ← replacedBy_eq_some_iff hground.indexed hroots hexplained hr hroot hra]
  constructor
  · rintro ⟨b, hb, hold⟩
    -- there is one stand-in of the identifier only
    obtain ⟨m, hm, hmmade⟩ := mem_addedStandIns.1 hb
    have hplace : n = m := hmade.obeys.added_unique hn hm (by simpa using hnmade)
      (by simpa using hmmade) (hra.symm.trans (replacedBy_spec hold).2)
    rw [← hplace, hn, Option.some.injEq] at hm
    rwa [hm]
  · exact fun hold => ⟨a, hadded, hold⟩

/-- **Taking in a mod of a fix fails** exactly where a root of its identifier has another
version, and a nested candidate of the identifier is selected where the failure is explained:
then the nested one is replaced, and the root stays. -/
theorem insert_fix_eq_error_iff {f : Failure} {F : Fix} (hs : s.store.Prepared)
    (hg : ∀ g ∈ s.store.groups, g.members.Nodup) (ho : s.order.Perm s.store.ids)
    (hfits : s.store.edges.length < UInt64.size)
    (hsize : s.store.size + (StandIn.synthesize (missing f.explanations)).length < 2 ^ 32)
    (hroots : s.store.RootsDiffer) (h : s.solve = .ok (.failure f)) (hfix : f.fix? = some F) :
    ∃ explained, s.best .explain = .ok (some explained) ∧ ∀ a ∈ F.brought,
      ((∃ e, (s.store.settle (s.store.carried F.gone)).insert a.asFound = .error e) ↔
        (∃ r ∈ s.store.records, r.isRoot = true ∧ r.identifier = a.identifier ∧
          r.version.sameAs a.version = false) ∧
        ∃ c ∈ s.store.records, c.isRoot = false ∧ c.identifier = a.identifier ∧
          .candidate c.id ∈ explained) := by
  obtain ⟨-, explained, made, hexplain, hexplained, hmade, rfl⟩ :=
    exists_best_of_fix hs hg ho hfits hsize h hfix
  have hground := grounded_posed hs.indexed hs.ranked ho
    (.repair (StandIn.synthesize (missing f.explanations)))
  refine ⟨explained, hexplain, fun a ha => ?_⟩
  have hgone : ∀ r ∈ s.store.records, r.isRoot = true → r.identifier = a.identifier → _ :=
    fun r hr hroot hra =>
      root_gone_iff hground hsize hmade hroots hexplained.obeys ha hr hroot hra
  rw [hs.indexed.insert_left_eq_error_iff hs.ranked]
  constructor
  · rintro ⟨r, hr, hroot, hra, hversion, hkept⟩
    refine ⟨⟨r, hr, hroot, hra, hversion⟩, ?_⟩
    rw [hgone r hr hroot hra] at hkept
    simpa [and_assoc] using hkept
  · rintro ⟨⟨r, hr, hroot, hra, hversion⟩, c, hc, hnested, hca, hsel⟩
    refine ⟨r, hr, hroot, hra, hversion, ?_⟩
    rw [hgone r hr hroot hra]
    exact fun hnone => hnone c hc hnested hca hsel

/-- One mod contains a newer library than the root that is there, and another one needs an
even newer one. -/
def nestedLibrary : Store :=
  [found { id := "app", version := .ofComponents [1, 0], dependencies :=
      [⟨.depends, "lib", ⟨[.greaterOrEqual (.ofComponents [2, 0])]⟩⟩] } none,
    found { id := "lib", version := .ofComponents [1, 0] } none,
    found { id := "lib", version := .ofComponents [2, 0] } (some 0),
    found { id := "user", version := .ofComponents [1, 0], dependencies :=
      [⟨.depends, "lib", ⟨[.exact (.ofComponents [3, 0])]⟩⟩] } none].foldl Store.inserted .empty

/-- The store of `nestedLibrary` is built by inserting. -/
theorem nestedLibrary_built : nestedLibrary.Built := Store.Built.empty.foldl _

/-- The fix of `nestedLibrary` brings a library that cannot be inserted: the root of its identifier
is still there. -/
theorem insert_fix_eq_error_iff_nestedLibrary : ∃ f F,
    (Solver.mk nestedLibrary [0, 1, 3, 2] [] .never).solve = .ok (.failure f) ∧
      f.fix? = some F ∧ ∃ a ∈ F.brought, ∃ e,
        (nestedLibrary.settle (nestedLibrary.carried F.gone)).insert a.asFound = .error e := by
  have hselect : (Solver.mk nestedLibrary [0, 1, 3, 2] [] .never).best .select = .ok none := by
    decide +kernel
  have hexplain : (Solver.mk nestedLibrary [0, 1, 3, 2] [] .never).best .explain =
      .ok (some [.candidate 0, .candidate 3, .candidate 2, .waived 3 0]) := by decide +kernel
  have hrepair : (Solver.mk nestedLibrary [0, 1, 3, 2] [] .never).best
      (.repair [⟨"lib", .ofComponents [3, 0]⟩]) =
        .ok (some [.candidate 0, .candidate 3, .added 0]) := by decide +kernel
  have hdependency : nestedLibrary.dependency? (3, 0) =
      some ⟨.depends, "lib", ⟨[.exact (.ofComponents [3, 0])]⟩⟩ := by decide +kernel
  have hexact : StandIn.synthesize [⟨.depends, "lib", ⟨[.exact (.ofComponents [3, 0])]⟩⟩] =
      [⟨"lib", .ofComponents [3, 0]⟩] :=
    StandIn.synthesize_singleton rfl (by decide +kernel) (by decide +kernel)
  obtain ⟨f, h, hstandIns, hfix⟩ :=
    exists_failure hselect hexplain rfl hdependency rfl hexact hrepair
  have hgroups : ∀ g ∈ nestedLibrary.groups, g.members.Nodup := by decide +kernel
  have horder : [0, 1, 3, 2].Perm nestedLibrary.ids := by decide +kernel
  have hfits : nestedLibrary.edges.length < UInt64.size := by decide +kernel
  have hsize : nestedLibrary.size + 1 < 2 ^ 32 := by decide +kernel
  have hroots : nestedLibrary.RootsDiffer := by
    unfold Store.RootsDiffer
    decide +kernel
  obtain ⟨explained, hexplained, hfails⟩ := insert_fix_eq_error_iff (.built nestedLibrary_built)
    hgroups horder hfits (by rw [hstandIns]; exact hsize) hroots h hfix
  obtain rfl := Option.some.inj (Except.ok.inj (hexplain.symm.trans hexplained))
  have hbrought := (perm_brought (Solver.mk nestedLibrary [0, 1, 3, 2] [] .never)
    [.candidate 0, .candidate 3, .candidate 2, .waived 3 0] [⟨"lib", .ofComponents [3, 0]⟩]
    [.candidate 0, .candidate 3, .added 0]).mem_iff.2
      (show ⟨"lib", .ofComponents [3, 0]⟩ ∈ _ by decide +kernel)
  have hroot : ∃ r ∈ nestedLibrary.records, r.isRoot = true ∧ r.identifier = "lib" ∧
      r.version.sameAs (.ofComponents [3, 0]) = false := by decide +kernel
  have hnested : ∃ c ∈ nestedLibrary.records, c.isRoot = false ∧ c.identifier = "lib" ∧
      Choice.candidate c.id ∈ [Choice.candidate 0, .candidate 3, .candidate 2, .waived 3 0] := by
    decide +kernel
  exact ⟨f, _, h, hfix, _, hbrought, (hfails _ hbrought).2 ⟨hroot, hnested⟩⟩

end Solver
end Loadout
