/-
# Which intervals name a version

An interval proposes one version and names it as its representative if it lies inside
(`Interval.representative?_eq_some_iff`).  Where the bounds are releases and some release fits
between them, an inclusive bound is proposed as it stands, and below an exclusive upper bound there
is a component to lower; so a representative is named whenever the lower bound is not exclusive
(`Interval.exists_proposal?`).

Above an exclusive lower bound the proposal raises its last component, and appends a one to it if
that goes too far.  This is the least release that differs from the bound at one of its positions
or at the next one (`SemanticVersion.withOne_atMost`), but not the least one above it: `1.2.0.1`
lies above `1.2` and below `1.2.1`.  So a representative is named just where some release inside
differs from the bound that early (`Interval.representative_named_iff`), and an interval whose
releases all agree with it, up to the position behind its last one, names none.
-/

import Loadout.Proofs.Version.Cuts
import Loadout.Proofs.Version.Lines
import Mathlib.Data.List.TakeDrop
import Mathlib.Data.List.TakeWhile

namespace Loadout
namespace SemanticVersion

/-! ### One component more -/

/-- The release with a one after the components of a version. -/
def withOne (v : SemanticVersion) : SemanticVersion := ofComponents (v.components ++ [1])

variable {low u : SemanticVersion} {k : Nat}

/-- The components of the version come first. -/
theorem component_withOne_of_lt (hk : k < low.components.length) :
    low.withOne.component k = low.component k :=
  List.getD_append _ _ _ _ hk

/-- The one comes next. -/
theorem component_withOne_length (low : SemanticVersion) :
    low.withOne.component low.components.length = 1 := by
  rw [component, withOne, ofComponents, List.getD_append_right _ _ _ _ (Nat.le_refl _), Nat.sub_self]
  rfl

/-- Behind its components a version has zeros. -/
theorem component_eq_zero (hk : low.components.length ≤ k) : low.component k = 0 :=
  List.getD_eq_default _ _ hk

/-- There are zeros behind the one. -/
theorem component_withOne_of_gt (hk : low.components.length < k) : low.withOne.component k = 0 :=
  component_eq_zero (by simpa [withOne, ofComponents] using Nat.succ_le_of_lt hk)

/-- A release is below itself with a one behind. -/
theorem below_withOne (hlow : low.isPreRelease = false) :
    (Version.semantic low).below (.semantic low.withOne) = true := by
  refine (below_iff hlow rfl).2 ⟨low.components.length, fun j hj => ?_, ?_⟩
  · exact (component_withOne_of_lt hj).symm
  · rw [component_eq_zero (Nat.le_refl _), component_withOne_length]
    decide

/-- **A one more is the least release** of those that differ from a release at one of its positions
or at the next one. -/
theorem withOne_atMost (hlow : low.isPreRelease = false) (hu : u.isPreRelease = false)
    (habove : (Version.semantic low).below (.semantic u) = true)
    (hdiffer : ∃ k ≤ low.components.length, u.component k ≠ low.component k) :
    (Version.semantic low.withOne).atMost (.semantic u) = true := by
  obtain ⟨m, hm, hne⟩ := hdiffer
  obtain ⟨k, hbefore, hlt⟩ := (below_iff hlow hu).1 habove
  have hk : k ≤ low.components.length :=
    Nat.le_trans (Nat.not_lt.1 fun hmk => hne (hbefore m hmk).symm) hm
  rw [← Bool.not_eq_false, ← Version.below_iff_not_atMost, below_iff hu rfl]
  rintro ⟨j, hagree, hless⟩
  -- at the position where they differ the one appended is not the larger of the two
  have hraised : low.withOne.component k ≤ u.component k ∧
      (k < low.components.length → low.withOne.component k < u.component k) := by
    rcases Nat.lt_or_eq_of_le hk with hk | rfl
    · rw [component_withOne_of_lt hk]
      exact ⟨UInt64.le_of_lt hlt, fun _ => hlt⟩
    · rw [component_eq_zero (Nat.le_refl _), UInt64.lt_iff_toNat_lt] at hlt
      rw [component_withOne_length, UInt64.le_iff_toNat_le]
      exact ⟨hlt, fun h => absurd h (Nat.lt_irrefl _)⟩
  rcases Nat.lt_trichotomy j k with hj | rfl | hj
  · rw [component_withOne_of_lt (Nat.lt_of_lt_of_le hj hk), hbefore j hj] at hless
    exact UInt64.lt_irrefl _ hless
  · exact UInt64.not_lt.2 hraised.1 hless
  · rcases Nat.lt_or_eq_of_le hk with hk | rfl
    · exact UInt64.lt_irrefl _ (hagree k hj ▸ hraised.2 hk)
    · rw [component_withOne_of_gt hj] at hless
      exact UInt64.not_lt_zero hless

end SemanticVersion

namespace Interval

open SemanticVersion (withOne)

variable {i : Interval} {v : Version} {low u w : SemanticVersion} {cs ds : List UInt64}

/-- Bumping the last component adds none. -/
theorem length_bumpLast (h : cs ≠ []) : (bumpLast cs).length = cs.length := by
  fun_induction bumpLast cs with
  | case1 => exact absurd rfl h
  | case2 => rfl
  | case3 c rest hrest ih => rw [List.length_cons, List.length_cons, ih hrest]

/-- **What is proposed above a release** has one component more at most. -/
theorem versionAbove_spec (hlow : low.isPreRelease = false) (hne : low.components ≠ []) (i : Interval) :
    (versionAbove low i).isPreRelease = false ∧
      (versionAbove low i).components.length ≤ low.components.length + 1 ∧
      (i.contains (.semantic low.withOne) = true →
        i.contains (.semantic (versionAbove low i)) = true) := by
  have hlist : (if low.components.isEmpty then [0] else low.components) = low.components := by
    rw [if_neg]
    simpa using hne
  simp only [versionAbove, hlow, Bool.false_eq_true, if_false, hlist]
  split
  · rename_i hbumped
    refine ⟨rfl, ?_, fun _ => hbumped⟩
    rw [SemanticVersion.ofComponents, length_bumpLast hne]
    exact Nat.le_succ _
  · exact ⟨rfl, by simp [SemanticVersion.ofComponents], id⟩

/-- **A list with a component to lower** has it before zeros only. -/
theorem lowerLast?_eq_some (h : lowerLast? cs = some ds) : ∃ init c zeros, c ≠ 0 ∧
    cs = init ++ c :: zeros ∧ ds = init ++ (c - 1) :: zeros := by
  unfold lowerLast? at h
  rw [List.span_eq_takeWhile_dropWhile] at h
  cases hdrop : cs.reverse.dropWhile (· == 0) with
  | nil => simp [hdrop] at h
  | cons c rest =>
    have hc : c ≠ 0 := by
      have hhead := List.head?_dropWhile_not (· == 0) cs.reverse
      simpa [hdrop] using hhead
    have hcs : cs = rest.reverse ++ c :: (cs.reverse.takeWhile (· == 0)).reverse := by
      have happend := List.takeWhile_append_dropWhile (p := (· == 0)) (l := cs.reverse)
      rw [hdrop] at happend
      simpa using congrArg List.reverse happend.symm
    refine ⟨rest.reverse, c, _, hc, hcs, ?_⟩
    simpa [hdrop] using h.symm

/-- Nothing can be lowered where all components are zero. -/
theorem lowerLast?_eq_none (h : lowerLast? cs = none) : ∀ c ∈ cs, c = 0 := by
  unfold lowerLast? at h
  rw [List.span_eq_takeWhile_dropWhile] at h
  cases hdrop : cs.reverse.dropWhile (· == 0) with
  | nil => simpa [List.dropWhile_eq_nil_iff] using hdrop
  | cons c rest => simp [hdrop] at h

/-- A version without a component to lower has zeros only. -/
theorem component_eq_zero_of_lowerLast? (h : lowerLast? low.components = none) (k : Nat) :
    low.component k = 0 := by
  rcases Nat.lt_or_ge k low.components.length with hk | hk
  · rw [SemanticVersion.component, List.getD_eq_getElem _ _ hk]
    exact lowerLast?_eq_none h _ (List.getElem_mem hk)
  · exact SemanticVersion.component_eq_zero hk

/-- **A release with a component lowered** lies below. -/
theorem below_of_lowerLast? (hlow : low.isPreRelease = false)
    (h : lowerLast? low.components = some ds) :
    (Version.ofComponents ds).below (.semantic low) = true := by
  obtain ⟨init, c, zeros, hc, hcs, rfl⟩ := lowerLast?_eq_some h
  refine (SemanticVersion.below_iff rfl hlow).2 ⟨init.length, fun j hj => ?_, ?_⟩
  · rw [SemanticVersion.component, SemanticVersion.component, hcs, SemanticVersion.ofComponents,
      List.getD_append _ _ _ _ hj, List.getD_append _ _ _ _ hj]
  · rw [SemanticVersion.component, SemanticVersion.component, hcs, SemanticVersion.ofComponents,
      List.getD_append_right _ _ _ _ (Nat.le_refl _), List.getD_append_right _ _ _ _ (Nat.le_refl _),
      Nat.sub_self, List.getD_cons_zero, List.getD_cons_zero]
    grind

/-- **There is a release below a release**, made by lowering a component, if any release is below. -/
theorem exists_versionBelow? (hlow : low.isPreRelease = false) (hw : w.isPreRelease = false)
    (h : (Version.semantic w).below (.semantic low) = true) :
    ∃ u, versionBelow? low = some u ∧ (Version.semantic u).below (.semantic low) = true := by
  cases hds : lowerLast? low.components with
  | none =>
    -- nothing is below zeros
    obtain ⟨k, -, hlt⟩ := (SemanticVersion.below_iff hw hlow).1 h
    rw [component_eq_zero_of_lowerLast? hds] at hlt
    exact absurd hlt UInt64.not_lt_zero
  | some ds => exact ⟨.ofComponents ds, by rw [versionBelow?, hds]; rfl, below_of_lowerLast? hlow hds⟩

/-! ### The proposal -/

/-- **A representative is a proposal that lies inside.** -/
theorem representative?_eq_some_iff :
    i.representative? = some v ↔ i.proposal? = some v ∧ i.contains v = true := by
  unfold representative?
  constructor
  · intro h
    split at h
    · cases h
    · exact Option.filter_eq_some_iff.1 h
  · rintro ⟨hproposal, hv⟩
    rw [isEmpty_of_contains hv, if_neg Bool.false_ne_true]
    exact Option.filter_eq_some_iff.2 ⟨hproposal, hv⟩

/-- What lies at or before a version inside, and is admitted by the lower bound, lies inside too. -/
theorem contains_of_atMost {a b : Version} (hmin : i.min.admitsAbove a = true)
    (hle : a.atMost b = true) (hb : i.contains b = true) : i.contains a = true := by
  rw [contains, hmin, Bool.true_and, Endpoint.admitsBelow_iff]
  exact (Cut.beside_le_beside hle true).trans (contains_iff.1 hb).2

/-- **An interval that is not open at an exclusive lower bound proposes a member**, if a release lies
inside. -/
theorem exists_proposal? (hmin : ∀ low, i.min ≠ .exclusive low)
    (hmax : ∀ high, i.max = .exclusive high → ∃ s, high = .semantic s ∧ s.isPreRelease = false)
    (hw : w.isPreRelease = false) (hin : i.contains (.semantic w) = true) :
    ∃ v, i.proposal? = some v ∧ i.contains v = true := by
  have hself : ∀ v : Version, v.atMost v = true := fun v => Std.ReflCmp.isLE_rfl
  obtain ⟨min, max⟩ := i
  obtain ⟨hlow, hhigh⟩ := Bool.and_eq_true_iff.1 hin
  cases min with
  | inclusive low => exact ⟨low, rfl, contains_of_atMost (hself low) hlow hin⟩
  | exclusive low => exact absurd rfl (hmin low)
  | unbounded =>
    cases max with
    | unbounded => exact ⟨.ofComponents [0, 0, 0], rfl, rfl⟩
    | inclusive high => exact ⟨high, rfl, hself high⟩
    | exclusive high =>
      obtain ⟨s, rfl, hs⟩ := hmax high rfl
      obtain ⟨u, hu, hbelow⟩ := exists_versionBelow? hs hw hhigh
      exact ⟨.semantic u, by simp [proposal?, Version.semantic?, hu], hbelow⟩

/-- **Above an exclusive lower bound** the proposal lies inside just when some release does that
differs from the bound at one of its positions or at the next one. -/
theorem contains_versionAbove_iff (hmin : i.min = .exclusive (.semantic low))
    (hlow : low.isPreRelease = false) (hne : low.components ≠ []) :
    i.contains (.semantic (versionAbove low i)) = true ↔
      ∃ u : SemanticVersion, u.isPreRelease = false ∧ i.contains (.semantic u) = true ∧
        ∃ k ≤ low.components.length, u.component k ≠ low.component k := by
  have habove : ∀ v, i.contains v = true → (Version.semantic low).below v = true := fun v hv => by
    have hadmits := (Bool.and_eq_true_iff.1 hv).1
    rwa [hmin] at hadmits
  obtain ⟨hrelease, hlength, hwithOne⟩ := versionAbove_spec hlow hne i
  constructor
  · intro hin
    obtain ⟨k, -, hlt⟩ := (SemanticVersion.below_iff hlow hrelease).1 (habove _ hin)
    refine ⟨_, hrelease, hin, k, ?_, fun heq => UInt64.lt_irrefl _ (heq ▸ hlt)⟩
    -- behind its last position the proposal has nothing to be larger by
    refine Nat.not_lt.1 fun hk => ?_
    have hzero : (versionAbove low i).component k = 0 := SemanticVersion.component_eq_zero (by omega)
    exact UInt64.not_lt_zero (hzero ▸ hlt)
  · rintro ⟨u, hu, hin, hdiffer⟩
    refine hwithOne (contains_of_atMost ?_
      (SemanticVersion.withOne_atMost hlow hu (habove _ hin) hdiffer) hin)
    rw [hmin]
    exact SemanticVersion.below_withOne hlow

end Interval

/-- **An endpoint at a release**: if there is a bounding version, it is a release with components. -/
def Endpoint.AtRelease (e : Endpoint) : Prop := ∀ v, e.version? = some v →
  ∃ s : SemanticVersion, v = .semantic s ∧ s.components ≠ [] ∧ s.isPreRelease = false

namespace Interval

/-- **Between releases, a representative is named unless all that fits is too close to the lower
bound.**  Where some release lies inside, a representative is named, and lies inside, just when the
lower bound is not exclusive or some release inside differs from it at one of its positions or at
the next one. -/
theorem representative_named_iff {i : Interval} (hmin : i.min.AtRelease) (hmax : i.max.AtRelease)
    {w : SemanticVersion} (hw : w.isPreRelease = false) (hin : i.contains (.semantic w) = true) :
    (∃ v, i.representative? = some v ∧ i.contains v = true) ↔
      ∀ low, i.min = .exclusive (.semantic low) →
        ∃ u : SemanticVersion, u.isPreRelease = false ∧ i.contains (.semantic u) = true ∧
          ∃ k ≤ low.components.length, u.component k ≠ low.component k := by
  simp only [representative?_eq_some_iff, and_assoc, and_self]
  by_cases hexclusive : ∃ low, i.min = .exclusive low
  · obtain ⟨v, hv⟩ := hexclusive
    obtain ⟨low, rfl, hne, hlow⟩ := hmin v (by rw [hv]; rfl)
    have hproposal : i.proposal? = some (.semantic (versionAbove low i)) := by
      rw [proposal?, hv]
      rfl
    simp only [hproposal, hv, Option.some.injEq, exists_eq_left', Endpoint.exclusive.injEq,
      Version.semantic.injEq, forall_eq']
    exact contains_versionAbove_iff hv hlow hne
  · have hnot : ∀ low, i.min ≠ .exclusive low := fun low h => hexclusive ⟨low, h⟩
    refine iff_of_true (exists_proposal? hnot (fun high hhigh => ?_) hw hin)
      fun low h => absurd h (hnot _)
    obtain ⟨s, hs, -, hrelease⟩ := hmax high (by rw [hhigh]; rfl)
    exact ⟨s, hs, hrelease⟩

/-- The releases between `1.2` and `1.2.1`. -/
def patchGap : Interval :=
  ⟨.exclusive (.ofComponents [1, 2]), .exclusive (.ofComponents [1, 2, 1])⟩

/-- There are some, none is named, and so none differs from `1.2` before its fourth component. -/
theorem representative_named_iff_patchGap :
    patchGap.contains (.ofComponents [1, 2, 0, 1]) = true ∧ patchGap.representative? = none ∧
    ∀ u : SemanticVersion, u.isPreRelease = false → patchGap.contains (.semantic u) = true →
      ∀ k ≤ 2, u.component k = (SemanticVersion.ofComponents [1, 2]).component k := by
  have hrelease : ∀ c cs, (Endpoint.exclusive (.ofComponents (c :: cs))).AtRelease := by
    intro c cs v hv
    obtain rfl : Version.ofComponents (c :: cs) = v := Option.some.inj hv
    exact ⟨.ofComponents (c :: cs), rfl, List.cons_ne_nil c cs, rfl⟩
  have hin : patchGap.contains (.ofComponents [1, 2, 0, 1]) = true := by decide +kernel
  have hnone : patchGap.representative? = none := by decide +kernel
  have hnamed := representative_named_iff (i := patchGap) (hrelease 1 [2]) (hrelease 1 [2, 1])
    (w := .ofComponents [1, 2, 0, 1]) rfl hin
  refine ⟨hin, hnone, fun u hu hcontains k hk => ?_⟩
  by_contra hne
  obtain ⟨v, hv, -⟩ := hnamed.2 fun low hlow => by
    obtain rfl : SemanticVersion.ofComponents [1, 2] = low := by
      simpa [patchGap, Version.ofComponents] using hlow
    exact ⟨u, hu, hcontains, k, hk, hne⟩
  exact Option.some_ne_none v (hv.symm.trans hnone)

end Interval
end Loadout
