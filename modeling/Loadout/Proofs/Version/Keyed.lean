/-
# What versions are keyed by

Versions with one key are the same version, and the zeros that fill up the components do not change
the key (`SemanticVersion.significantComponents_eq_iff`).  Yet the key keeps pre-release identifiers
as they were written, while the order reads them as numbers: `1-1` and `1-01` are the same version
under two keys.

Such zeros are all that can part the same versions (`Version.keyed_apart_by_zeros_only`): their keys
differ just where an identifier is one number with more zeros before it in one of the two than in
the other.  Written without these zeros, versions are the same just where they have one key.
-/

import Loadout.Proofs.Version.Sameness
import Loadout.Proofs.Text.Decimal
import Loadout.Version.Grammar
import Mathlib.Data.List.DropRight
import Mathlib.Data.List.Forall2
import Mathlib.Data.List.GetD

namespace Loadout
namespace SemanticVersion

/-! ### Components without the zeros at the end -/

/-- The significant components are those without the last zeros. -/
theorem significantComponents_eq_rdropWhile (v : SemanticVersion) :
    v.significantComponents = v.components.rdropWhile (· == 0) := rfl

/-- The components are the significant ones and zeros. -/
theorem exists_components_eq (v : SemanticVersion) :
    ∃ zeros, v.components = v.significantComponents ++ List.replicate zeros 0 := by
  have hzeros : ∀ n ∈ v.components.rtakeWhile (· == 0), n = 0 := fun n hn => by
    simpa using List.mem_rtakeWhile_imp hn
  refine ⟨(v.components.rtakeWhile (· == 0)).length, ?_⟩
  rw [significantComponents_eq_rdropWhile, ← List.eq_replicate_of_mem hzeros,
    List.rdropWhile_append_rtakeWhile]

/-- The last significant component is not zero. -/
theorem getLast?_significantComponents (v : SemanticVersion) :
    v.significantComponents.getLast? ≠ some 0 := by
  rw [significantComponents_eq_rdropWhile]
  intro h
  obtain ⟨hne, hlast⟩ := List.mem_getLast?_eq_getLast h
  exact List.rdropWhile_last_not (· == 0) v.components hne (by rw [← hlast]; rfl)

/-- The zeros that are dropped are those that are counted where nothing was written. -/
theorem getD_significantComponents (v : SemanticVersion) (i : Nat) :
    v.significantComponents.getD i 0 = v.component i := by
  obtain ⟨zeros, hzeros⟩ := v.exists_components_eq
  rw [component, hzeros]
  rcases Nat.lt_or_ge i v.significantComponents.length with hlt | hge
  · rw [List.getD_append _ _ _ _ hlt]
  · rw [List.getD_append_right _ _ _ _ hge, List.getD_eq_default _ _ hge,
      List.getD_eq_getElem?_getD, List.getElem?_getD_replicate_default_eq]

/-- A list that does not end in a zero is no longer than any that has its numbers. -/
theorem length_le_of_getD_eq {as bs : List UInt64} (hbs : bs.getLast? ≠ some 0)
    (h : ∀ i, as.getD i 0 = bs.getD i 0) : bs.length ≤ as.length := by
  refine Nat.le_of_not_lt fun hlt => hbs ?_
  have hlast := h (bs.length - 1)
  rw [List.getD_eq_default as _ (by omega), List.getD_eq_getElem bs _ (by omega)] at hlast
  rw [List.getLast?_eq_getElem?, List.getElem?_eq_getElem (by omega), ← hlast]

/-- Components without last zeros are the same, if they are the same with zeros filled in. -/
theorem eq_of_getD_eq {as bs : List UInt64} (has : as.getLast? ≠ some 0) (hbs : bs.getLast? ≠ some 0)
    (h : ∀ i, as.getD i 0 = bs.getD i 0) : as = bs := by
  have hlength : as.length = bs.length := Nat.le_antisymm
    (length_le_of_getD_eq has fun i => (h i).symm) (length_le_of_getD_eq hbs h)
  refine List.ext_getElem hlength fun i hi hi' => ?_
  rw [← List.getD_eq_getElem as 0 hi, ← List.getD_eq_getElem bs 0 hi', h]

/-- **Components are keyed alike just where they are the same at all positions.** -/
theorem significantComponents_eq_iff {a b : SemanticVersion} :
    a.significantComponents = b.significantComponents ↔ ∀ i, a.component i = b.component i := by
  constructor
  · intro h i
    rw [← getD_significantComponents, h, getD_significantComponents]
  · intro h
    refine eq_of_getD_eq a.getLast?_significantComponents b.getLast?_significantComponents fun i => ?_
    rw [getD_significantComponents, getD_significantComponents, h]

/-! ### Zeros before identifiers -/

/-- A number as an identifier, with zeros before it. -/
def numberIdentifier (zeros : Nat) (n : UInt64) : String := String.ofList (Text.numeral zeros n)

/-- An identifier is read as a number where it is a numeral of it. -/
theorem identifierNumber?_eq_some_iff {s : String} {n : UInt64} :
    identifierNumber? s = some n ↔ ∃ zeros, s = numberIdentifier zeros n := by
  rw [identifierNumber?, Text.toOption_readUInt64_iff]
  simp only [numberIdentifier, ← String.toList_inj, String.toList_ofList]

/-- The zeros before a number tell its identifiers apart. -/
theorem numberIdentifier_inj {j k : Nat} {n : UInt64}
    (h : numberIdentifier j n = numberIdentifier k n) : j = k := by
  have := congrArg List.length (String.ofList_inj.1 h)
  simpa [Text.numeral] using this

/-- Identifiers that are read alike are one text, or one number with zeros before it. -/
theorem eq_or_numbers_of_readIdentifier_eq {s t : String} (h : readIdentifier s = readIdentifier t) :
    s = t ∨ ∃ n j k, s = numberIdentifier j n ∧ t = numberIdentifier k n := by
  unfold readIdentifier at h
  cases hs : identifierNumber? s <;> cases ht : identifierNumber? t <;> rw [hs, ht] at h
  · exact .inl (Sum.inr.inj h)
  · cases h
  · cases h
  · rename_i n m
    obtain rfl : n = m := Sum.inl.inj h
    obtain ⟨j, rfl⟩ := identifierNumber?_eq_some_iff.1 hs
    obtain ⟨k, rfl⟩ := identifierNumber?_eq_some_iff.1 ht
    exact .inr ⟨n, j, k, rfl, rfl⟩

/-- An identifier without the zeros before its number. -/
def unpaddedIdentifier (s : String) : String :=
  match identifierNumber? s with
  | some n => numberIdentifier 0 n
  | none => s

/-- Without zeros an identifier is read as it was. -/
theorem readIdentifier_unpaddedIdentifier (s : String) :
    readIdentifier (unpaddedIdentifier s) = readIdentifier s := by
  cases hs : identifierNumber? s with
  | none => simp only [unpaddedIdentifier, hs]
  | some n =>
    have hplain : identifierNumber? (numberIdentifier 0 n) = some n :=
      identifierNumber?_eq_some_iff.2 ⟨0, rfl⟩
    simp only [unpaddedIdentifier, readIdentifier, hs, hplain]

/-- Without zeros identifiers are the same just where they are read alike. -/
theorem unpaddedIdentifier_eq_iff {s t : String} :
    unpaddedIdentifier s = unpaddedIdentifier t ↔ readIdentifier s = readIdentifier t := by
  constructor
  · intro h
    rw [← readIdentifier_unpaddedIdentifier s, h, readIdentifier_unpaddedIdentifier]
  · intro h
    unfold readIdentifier at h
    unfold unpaddedIdentifier
    cases hs : identifierNumber? s <;> cases ht : identifierNumber? t <;> rw [hs, ht] at h <;> simp_all

end SemanticVersion

namespace Version

/-- The pre-release identifiers as written; verbatim versions have none. -/
def identifiers : Version → List String
  | .semantic v => v.preRelease
  | .verbatim _ => []

/-- The version without zeros before the numbers among its pre-release identifiers. -/
def unpadded : Version → Version
  | .semantic v => .semantic { v with preRelease := v.preRelease.map SemanticVersion.unpaddedIdentifier }
  | .verbatim s => .verbatim s

/-- **Versions have one key when they are the same, with identifiers that are written alike.** -/
theorem key_eq_iff {a b : Version} :
    a.key = b.key ↔ a.sameAs b = true ∧ a.identifiers = b.identifiers := by
  rw [sameAs_iff, compare_eq_iff]
  cases a <;> cases b <;> simp only [key, identifiers, ReadAlike, Key.semantic.injEq,
    Key.verbatim.injEq, reduceCtorEq, SemanticVersion.significantComponents_eq_iff, and_true, false_and]
  constructor
  · rintro ⟨hcomponents, hidentifiers⟩
    exact ⟨⟨hcomponents, by rw [hidentifiers]⟩, hidentifiers⟩
  · rintro ⟨⟨hcomponents, -⟩, hidentifiers⟩
    exact ⟨hcomponents, hidentifiers⟩

/-- Identifiers of versions that are the same are read alike. -/
theorem map_readIdentifier_of_sameAs {a b : Version} (h : a.sameAs b = true) :
    a.identifiers.map SemanticVersion.readIdentifier =
      b.identifiers.map SemanticVersion.readIdentifier := by
  have halike := compare_eq_iff.1 (sameAs_iff.1 h)
  cases a <;> cases b <;> first | exact halike.2 | rfl | exact halike.elim

/-- The same versions have equal identifiers unless zeros before a number part them. -/
theorem identifiers_eq_of_sameAs {a b : Version} (h : a.sameAs b = true)
    (hzeros : ∀ (i : Nat) n j k, a.identifiers[i]? = some (SemanticVersion.numberIdentifier j n) →
      b.identifiers[i]? = some (SemanticVersion.numberIdentifier k n) → j = k) :
    a.identifiers = b.identifiers := by
  refine List.ext_getElem? fun i => ?_
  have hread := congrArg (·[i]?) (map_readIdentifier_of_sameAs h)
  simp only [List.getElem?_map] at hread
  cases ha : a.identifiers[i]? with
  | none =>
    rw [ha, Option.map_none, eq_comm, Option.map_eq_none_iff] at hread
    exact hread.symm
  | some s =>
    rw [ha, Option.map_some, eq_comm, Option.map_eq_some_iff] at hread
    obtain ⟨t, hb, ht⟩ := hread
    rw [hb, Option.some_inj]
    rcases SemanticVersion.eq_or_numbers_of_readIdentifier_eq ht with heq | ⟨n, k, j, rfl, rfl⟩
    · exact heq.symm
    · rw [hzeros i n j k ha hb]

/-- **Without zeros before identifiers**, versions are the same just where their keys are. -/
theorem sameAs_iff_unpadded {a b : Version} :
    a.sameAs b = true ↔ a.unpadded.key = b.unpadded.key := by
  rw [sameAs_iff, compare_eq_iff]
  cases a <;> cases b <;> simp only [ReadAlike, unpadded, key, Key.semantic.injEq,
    Key.verbatim.injEq, reduceCtorEq, SemanticVersion.significantComponents_eq_iff]
  refine and_congr Iff.rfl ?_
  simp only [← List.forall₂_eq_eq_eq, List.forall₂_map_left_iff, List.forall₂_map_right_iff,
    SemanticVersion.unpaddedIdentifier_eq_iff]

/-- **Only zeros before a number keep the same versions apart.**  Versions with one key are the same;
the same versions have one key just where each number among their pre-release identifiers has as
many zeros before it in both; and without such zeros to be the same is to have one key. -/
theorem keyed_apart_by_zeros_only (a b : Version) :
    (a.key = b.key → a.sameAs b = true) ∧
    (a.sameAs b = true → (a.key = b.key ↔
      ∀ (i : Nat) n j k, a.identifiers[i]? = some (SemanticVersion.numberIdentifier j n) →
        b.identifiers[i]? = some (SemanticVersion.numberIdentifier k n) → j = k)) ∧
    (a.sameAs b = true ↔ a.unpadded.key = b.unpadded.key) := by
  refine ⟨fun h => (key_eq_iff.1 h).1, fun hsame => ?_, sameAs_iff_unpadded⟩
  constructor
  · intro h i n j k ha hb
    rw [(key_eq_iff.1 h).2, hb, Option.some_inj] at ha
    exact (SemanticVersion.numberIdentifier_inj ha).symm
  · intro hzeros
    exact key_eq_iff.2 ⟨hsame, identifiers_eq_of_sameAs hsame hzeros⟩

/-- `1-1` and `1-01` are one version with two keys; with a component of zero and build metadata it
is that version still. -/
theorem keyed_apart_by_zeros_only_firstCandidate :
    parse "1-1" = .ok (.semantic ⟨[1], ["1"], none⟩) ∧
    parse "1-01" = .ok (.semantic ⟨[1], ["01"], none⟩) ∧
    (Version.semantic ⟨[1], ["1"], none⟩).sameAs (.semantic ⟨[1], ["01"], none⟩) = true ∧
    (Version.semantic ⟨[1], ["1"], none⟩).key ≠ (Version.semantic ⟨[1], ["01"], none⟩).key ∧
    (Version.semantic ⟨[1, 0], ["1"], some "x"⟩).sameAs (.semantic ⟨[1], ["1"], none⟩) = true := by
  have hsame : (Version.semantic ⟨[1], ["1"], none⟩).sameAs (.semantic ⟨[1], ["01"], none⟩) = true := by
    decide +kernel
  obtain ⟨-, hkey, -⟩ := keyed_apart_by_zeros_only (.semantic ⟨[1], ["1"], none⟩)
    (.semantic ⟨[1], ["01"], none⟩)
  obtain ⟨hone, -, -⟩ := keyed_apart_by_zeros_only (.semantic ⟨[1, 0], ["1"], some "x"⟩)
    (.semantic ⟨[1], ["1"], none⟩)
  refine ⟨by decide +kernel, by decide +kernel, hsame, fun h => ?_, hone (by decide +kernel)⟩
  exact absurd ((hkey hsame).1 h 0 1 0 1 (by decide +kernel) (by decide +kernel)) (by decide)

end Version
end Loadout
