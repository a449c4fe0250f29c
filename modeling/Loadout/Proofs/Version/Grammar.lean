/-
# Reading versions and printing them

The reader of semantic versions accepts just the grammar: a text is read as a version exactly when
the version is well-formed and the text is its written form, with any number of zeros before each
of its numbers (`SemanticVersion.parse?_eq_some_iff`).  So printing what was read drops such zeros
and nothing else, and what is printed is read back as it was.

A text outside the grammar is kept as it is, but for the blanks around it, and is read back too
(`Version.wellFormed_of_ofTrimmed`, `Version.parse_toString`).
-/

import Loadout.Proofs.Text.Cut
import Loadout.Proofs.Text.Decimal
import Loadout.Version.Grammar

namespace Loadout
namespace SemanticVersion

/-! ### What is well-formed -/

/-- Whether a text is an identifier of the grammar. -/
def IsIdentifier (s : String) : Prop := s ≠ "" ∧ ∀ c ∈ s.toList, isIdentifierChar c = true

instance (s : String) : Decidable (IsIdentifier s) :=
  decidable_of_iff (s ≠ "" ∧ s.toList.all isIdentifierChar = true)
    (and_congr_right fun _ => List.all_eq_true)

/-- Whether a text is made of identifiers, at least one, with dots between them. -/
def IsDotted (s : String) : Prop :=
  ∃ ids : List String, ids ≠ [] ∧ (∀ i ∈ ids, IsIdentifier i) ∧ s = String.intercalate "." ids

/-- **The versions that the grammar has a text for.** -/
structure WellFormed (v : SemanticVersion) : Prop where
  components : v.components ≠ []
  preRelease : ∀ i ∈ v.preRelease, IsIdentifier i
  build : ∀ b ∈ v.build, IsDotted b

/-- The written form of what follows the numbers. -/
def tail (preRelease : List String) (build : Option String) : String :=
  (if preRelease.isEmpty then "" else "-" ++ String.intercalate "." preRelease) ++
    match build with
    | none => ""
    | some b => "+" ++ b

/-- **The written form with zeros before the numbers**, as many as listed. -/
def padded (v : SemanticVersion) (zeros : List Nat) : String :=
  String.ofList (['.'].intercalate (List.zipWith Text.numeral zeros v.components)) ++
    tail v.preRelease v.build

/-- The written form has no zeros before its numbers. -/
theorem padded_zero (v : SemanticVersion) :
    v.padded (List.replicate v.components.length 0) = v.toString := by
  have hnumbers : ∀ ns : List UInt64, List.zipWith Text.numeral (List.replicate ns.length 0) ns =
      (ns.map fun n => Nat.repr n.toNat).map String.toList := by
    intro ns
    induction ns with
    | nil => rfl
    | cons n ns ih =>
      rw [List.length_cons, List.replicate_succ, List.zipWith_cons_cons, ih, List.map_cons,
        List.map_cons, Nat.repr_eq_ofList_toDigits, String.toList_ofList]
      rfl
  have hdots : ['.'] = ".".toList := rfl
  rw [padded, hnumbers, hdots, ← String.toList_intercalate, String.ofList_toList, tail.eq_def,
    ← String.append_assoc]
  rfl

/-! ### Reading the parts -/

section Parts

variable {s : List Char}

/-- What is taken for an identifier is one, as a whole. -/
theorem identifier?_eq_some_iff {i : String} :
    identifier? s = some i ↔ IsIdentifier i ∧ s = i.toList := by
  rw [identifier?, IsIdentifier]
  constructor
  · intro h
    split at h
    · cases h
    · rename_i hs
      obtain rfl := Option.some.inj h
      rw [Bool.or_eq_true, not_or, Bool.not_eq_true', Bool.not_eq_false, List.all_eq_true] at hs
      rw [String.toList_ofList]
      refine ⟨⟨fun hempty => hs.1 ?_, hs.2⟩, rfl⟩
      rw [List.isEmpty_iff, ← String.toList_ofList (l := s), hempty]
      rfl
  · rintro ⟨⟨hne, hall⟩, rfl⟩
    rw [if_neg, String.ofList_toList]
    simpa using ⟨hne, hall⟩

/-- No identifier has a dot. -/
theorem dot_not_mem_identifier {i : String} (h : IsIdentifier i) : '.' ∉ i.toList :=
  fun hin => absurd (h.2 _ hin) (by decide)

/-- Parts that are identifiers are the texts of these. -/
theorem forall₂_identifier_iff {parts : List (List Char)} {ids : List String} :
    List.Forall₂ (fun part i => identifier? part = some i) parts ids ↔
      (∀ i ∈ ids, IsIdentifier i) ∧ parts = ids.map String.toList := by
  simp only [identifier?_eq_some_iff]
  induction ids generalizing parts with
  | nil => simp
  | cons i ids ih =>
    rw [List.forall₂_cons_right_iff, List.forall_mem_cons]
    constructor
    · rintro ⟨_, parts, ⟨hi, rfl⟩, hparts, rfl⟩
      obtain ⟨hids, rfl⟩ := ih.1 hparts
      exact ⟨⟨hi, hids⟩, rfl⟩
    · rintro ⟨⟨hi, hids⟩, rfl⟩
      exact ⟨_, _, ⟨hi, rfl⟩, ih.2 ⟨hids, rfl⟩, rfl⟩

/-- The characters of identifiers with dots between them. -/
theorem char_of_mem_dotted {ids : List String} (hids : ∀ i ∈ ids, IsIdentifier i) {c : Char}
    (h : c ∈ (String.intercalate "." ids).toList) : c = '.' ∨ isIdentifierChar c = true := by
  rw [String.toList_intercalate] at h
  rcases Text.mem_intercalate h with hdot | ⟨_, hpart, hc⟩
  · exact Or.inl (List.mem_singleton.1 hdot)
  · obtain ⟨i, hi, rfl⟩ := List.mem_map.1 hpart
    exact Or.inr ((hids i hi).2 c hc)

/-- No dotted text has a plus. -/
theorem ne_plus_of_mem_dotted {ids : List String} (hids : ∀ i ∈ ids, IsIdentifier i) {c : Char}
    (h : c ∈ (String.intercalate "." ids).toList) : (c != '+') = true := by
  rw [bne_iff_ne]
  rintro rfl
  exact absurd (char_of_mem_dotted hids h) (by decide)

/-- **Identifiers with dots between them** are read as these identifiers. -/
theorem identifiers?_eq_some_iff {ids : List String} : identifiers? s = some ids ↔
    ids ≠ [] ∧ (∀ i ∈ ids, IsIdentifier i) ∧ s = (String.intercalate "." ids).toList := by
  have hdots : (String.intercalate "." ids).toList = ['.'].intercalate (ids.map String.toList) :=
    String.toList_intercalate
  rw [identifiers?, Text.mapM_splitOn_eq_some_iff, hdots]
  · simp only [forall₂_identifier_iff]
    constructor
    · rintro ⟨_, ⟨hids, rfl⟩, hne, rfl⟩
      exact ⟨by simpa using hne, hids, rfl⟩
    · rintro ⟨hne, hids, rfl⟩
      exact ⟨_, ⟨hids, rfl⟩, by simpa using hne, rfl⟩
  · intro part i h
    obtain ⟨hi, rfl⟩ := identifier?_eq_some_iff.1 h
    exact dot_not_mem_identifier hi

/-- Parts that are numerals are those of their numbers, with some zeros each. -/
theorem forall₂_numeral_iff {parts : List (List Char)} {ns : List UInt64} :
    List.Forall₂ (fun part n => ∃ zeros, part = Text.numeral zeros n) parts ns ↔
      ∃ zeros : List Nat, zeros.length = ns.length ∧ parts = List.zipWith Text.numeral zeros ns := by
  induction ns generalizing parts with
  | nil => simp
  | cons n ns ih =>
    rw [List.forall₂_cons_right_iff]
    constructor
    · rintro ⟨_, parts, ⟨k, rfl⟩, hparts, rfl⟩
      obtain ⟨zeros, hlength, rfl⟩ := ih.1 hparts
      exact ⟨k :: zeros, congrArg (· + 1) hlength, rfl⟩
    · rintro ⟨zeros, hlength, rfl⟩
      obtain ⟨k, zeros, rfl⟩ := List.exists_cons_of_length_eq_add_one hlength
      exact ⟨_, _, ⟨k, rfl⟩, ih.2 ⟨zeros, Nat.succ.inj hlength, rfl⟩, rfl⟩

/-- The characters of numerals with dots between them. -/
theorem char_of_mem_numbers {zeros : List Nat} {ns : List UInt64} {c : Char}
    (h : c ∈ ['.'].intercalate (List.zipWith Text.numeral zeros ns)) :
    c = '.' ∨ c.isDigit = true := by
  rcases Text.mem_intercalate h with hdot | ⟨_, hpart, hc⟩
  · exact Or.inl (List.mem_singleton.1 hdot)
  · obtain ⟨i, hi, rfl⟩ := List.getElem_of_mem hpart
    rw [List.getElem_zipWith] at hc
    exact Or.inr (Text.isDigit_of_mem_numeral hc)

/-- **Numerals with dots between them** are read as their numbers. -/
theorem numbers?_eq_some_iff {ns : List UInt64} : numbers? s = some ns ↔
    ns ≠ [] ∧ ∃ zeros : List Nat, zeros.length = ns.length ∧
      s = ['.'].intercalate (List.zipWith Text.numeral zeros ns) := by
  rw [numbers?, Text.mapM_splitOn_eq_some_iff]
  · simp only [Text.toOption_readUInt64_iff, forall₂_numeral_iff]
    constructor
    · rintro ⟨_, ⟨zeros, hlength, rfl⟩, hne, rfl⟩
      exact ⟨fun hns => hne (by simp [hns]), zeros, hlength, rfl⟩
    · rintro ⟨hne, zeros, hlength, rfl⟩
      refine ⟨_, ⟨zeros, hlength, rfl⟩, fun hnil => hne ?_, rfl⟩
      simpa [List.zipWith_eq_nil_iff, ← List.length_eq_zero_iff, hlength] using hnil
  · intro part n h hdot
    obtain ⟨zeros, rfl⟩ := Text.toOption_readUInt64_iff.1 h
    exact absurd (Text.isDigit_of_mem_numeral hdot) (by decide)

/-- Without a pre-release only build metadata is left to write. -/
theorem toList_tail_build (b : Option String) :
    (tail [] b).toList = b.elim [] fun t => '+' :: t.toList := by
  cases b with
  | none => rfl
  | some t =>
    rw [tail.eq_def, String.toList_append, String.toList_append]
    rfl

/-- Build metadata starts with a plus. -/
theorem head?_tail_build (b : Option String) (c : Char) (h : (tail [] b).toList.head? = some c) :
    (c != '+') = false := by
  rw [toList_tail_build] at h
  cases b with
  | none => simp at h
  | some t =>
    obtain rfl := Option.some.inj h
    rfl

/-- **Build metadata** is read where it is made of identifiers. -/
theorem build?_eq_some_iff {b : Option String} :
    build? s = some b ↔ (∀ t ∈ b, IsDotted t) ∧ s = (tail [] b).toList := by
  rw [toList_tail_build]
  fun_cases build? s with
  | case1 => cases b <;> simp
  | case2 rest =>
    rw [Option.map_eq_some_iff]
    constructor
    · rintro ⟨ids, hids, rfl⟩
      obtain ⟨hne, hall, rfl⟩ := identifiers?_eq_some_iff.1 hids
      rw [String.ofList_toList]
      exact ⟨fun t ht => ⟨ids, hne, hall, (Option.mem_some_iff.1 ht).symm⟩, rfl⟩
    · rintro ⟨hb, hs⟩
      cases b with
      | none => cases hs
      | some t =>
        obtain ⟨ids, hne, hall, rfl⟩ := hb t rfl
        obtain rfl := List.tail_eq_of_cons_eq hs
        exact ⟨ids, identifiers?_eq_some_iff.2 ⟨hne, hall, rfl⟩, by rw [String.ofList_toList]⟩
  | case3 _ hnil hplus =>
    refine ⟨fun h => absurd h (by simp), ?_⟩
    rintro ⟨-, hs⟩
    cases b with
    | none => exact absurd hs hnil
    | some t => exact absurd hs (hplus t.toList)

/-! ### Reading the whole -/

/-- What is read after the numbers: pre-release identifiers and build metadata. -/
def tail? : List Char → Option (List String × Option String)
  | '-' :: rest =>
    (identifiers? (rest.takeWhile (· != '+'))).bind fun preRelease =>
      (build? (rest.dropWhile (· != '+'))).map fun build => (preRelease, build)
  | rest => (build? rest).map fun build => ([], build)

/-- A version is read by its numbers and by what follows them. -/
theorem ofChars?_eq (s : List Char) :
    ofChars? s = (numbers? (s.takeWhile fun c => c != '-' && c != '+')).bind fun components =>
      (tail? (s.dropWhile fun c => c != '-' && c != '+')).map fun t => ⟨components, t.1, t.2⟩ := by
  rw [ofChars?, List.span_eq_takeWhile_dropWhile]
  refine congrArg (Option.bind _) (funext fun components => ?_)
  generalize s.dropWhile (fun c => c != '-' && c != '+') = rest
  split
  · simp only [tail?, List.span_eq_takeWhile_dropWhile, Option.map_eq_bind, Option.bind_assoc]
    rfl
  · rename_i hminus
    rw [tail?.eq_2 rest hminus, Option.map_map, Option.map_eq_bind]
    rfl

/-- A pre-release is written before the build metadata. -/
theorem toList_tail {preRelease : List String} (h : preRelease ≠ []) (build : Option String) :
    (tail preRelease build).toList =
      '-' :: ((String.intercalate "." preRelease).toList ++ (tail [] build).toList) := by
  rw [tail.eq_def, tail.eq_def, if_neg (by simpa using h), if_pos (by rfl), String.toList_append,
    String.toList_append, String.toList_append]
  rfl

/-- **What follows the numbers** is read where it is made of identifiers. -/
theorem tail?_eq_some_iff {preRelease : List String} {build : Option String} :
    tail? s = some (preRelease, build) ↔ (∀ i ∈ preRelease, IsIdentifier i) ∧
      (∀ t ∈ build, IsDotted t) ∧ s = (tail preRelease build).toList := by
  fun_cases tail? s with
  | case1 rest =>
    rw [Option.bind_eq_some_iff]
    simp only [Option.map_eq_some_iff, Prod.mk.injEq]
    constructor
    · rintro ⟨_, hids, _, hbuild, rfl, rfl⟩
      obtain ⟨hne, hall, hpre⟩ := identifiers?_eq_some_iff.1 hids
      obtain ⟨hdotted, hafter⟩ := build?_eq_some_iff.1 hbuild
      refine ⟨hall, hdotted, ?_⟩
      rw [toList_tail hne, ← hpre, ← hafter, List.takeWhile_append_dropWhile]
    · rintro ⟨hall, hdotted, hs⟩
      have hne : preRelease ≠ [] := by
        rintro rfl
        rw [toList_tail_build] at hs
        cases build <;> simp at hs
      rw [toList_tail hne] at hs
      obtain rfl := List.tail_eq_of_cons_eq hs
      have hspan := Text.span_append (p := (· != '+'))
        (fun c hc => ne_plus_of_mem_dotted hall hc) (head?_tail_build build)
      rw [List.span_eq_takeWhile_dropWhile, Prod.mk.injEq] at hspan
      rw [hspan.1, hspan.2]
      exact ⟨_, identifiers?_eq_some_iff.2 ⟨hne, hall, rfl⟩, _,
        build?_eq_some_iff.2 ⟨hdotted, rfl⟩, rfl, rfl⟩
  | case2 _ hminus =>
    simp only [Option.map_eq_some_iff, Prod.mk.injEq]
    constructor
    · rintro ⟨_, hbuild, rfl, rfl⟩
      obtain ⟨hdotted, hs⟩ := build?_eq_some_iff.1 hbuild
      exact ⟨by simp, hdotted, hs⟩
    · rintro ⟨-, hdotted, hs⟩
      have hnil : preRelease = [] := by
        by_contra hne
        exact hminus _ (hs.trans (toList_tail hne build))
      subst hnil
      exact ⟨_, build?_eq_some_iff.2 ⟨hdotted, hs⟩, rfl, rfl⟩

/-- **A text is read as a version when it is its written form**, with any zeros before its
numbers, and the version is well-formed. -/
theorem ofChars?_eq_some_iff {v : SemanticVersion} : ofChars? s = some v ↔ v.WellFormed ∧
    ∃ zeros : List Nat, zeros.length = v.components.length ∧ s = (v.padded zeros).toList := by
  have hpadded : ∀ zeros, (v.padded zeros).toList =
      ['.'].intercalate (List.zipWith Text.numeral zeros v.components) ++
        (tail v.preRelease v.build).toList := by
    intro zeros
    rw [padded, String.toList_append, String.toList_ofList]
  rw [ofChars?_eq, Option.bind_eq_some_iff]
  simp only [Option.map_eq_some_iff, hpadded]
  constructor
  · rintro ⟨ns, hns, ⟨preRelease, build⟩, htail, rfl⟩
    obtain ⟨hne, zeros, hlength, hnumbers⟩ := numbers?_eq_some_iff.1 hns
    obtain ⟨hids, hbuild, hrest⟩ := tail?_eq_some_iff.1 htail
    refine ⟨⟨hne, hids, hbuild⟩, zeros, hlength, ?_⟩
    rw [← hnumbers, ← hrest, List.takeWhile_append_dropWhile]
  · rintro ⟨hv, zeros, hlength, rfl⟩
    have hspan := Text.span_append (p := fun c => c != '-' && c != '+')
      (s := ['.'].intercalate (List.zipWith Text.numeral zeros v.components))
      (t := (tail v.preRelease v.build).toList) ?_ ?_
    · rw [List.span_eq_takeWhile_dropWhile, Prod.mk.injEq] at hspan
      rw [hspan.1, hspan.2]
      exact ⟨_, numbers?_eq_some_iff.2 ⟨hv.components, zeros, hlength, rfl⟩, _,
        tail?_eq_some_iff.2 ⟨hv.preRelease, hv.build, rfl⟩, rfl⟩
    · intro c hc
      rw [Bool.and_eq_true, bne_iff_ne, bne_iff_ne]
      constructor <;> rintro rfl <;> exact absurd (char_of_mem_numbers hc) (by decide)
    · intro c hc
      by_cases hpre : v.preRelease = []
      · rw [hpre] at hc
        simp [head?_tail_build v.build c hc]
      · rw [toList_tail hpre] at hc
        obtain rfl := Option.some.inj hc
        rfl

end Parts

/-- **What is read as a version** is its written form, with any zeros before its numbers. -/
theorem parse?_eq_some_iff {s : String} {v : SemanticVersion} : parse? s = some v ↔
    v.WellFormed ∧ ∃ zeros : List Nat, zeros.length = v.components.length ∧ s = v.padded zeros := by
  rw [parse?, ofChars?_eq_some_iff]
  simp only [String.toList_inj]

/-- **What is printed is read back.** -/
theorem parse?_toString {v : SemanticVersion} (h : v.WellFormed) : parse? v.toString = some v :=
  parse?_eq_some_iff.2 ⟨h, _, List.length_replicate, (padded_zero v).symm⟩

/-! ### What is printed -/

/-- Whether a character occurs in written forms. -/
def IsWritten (c : Char) : Prop := c = '.' ∨ c = '+' ∨ isIdentifierChar c = true

/-- Digits are written. -/
theorem isWritten_of_isDigit {c : Char} (h : c.isDigit = true) : IsWritten c := by
  have := Text.isDigit_iff.1 h
  exact Or.inr (Or.inr (by simp [isIdentifierChar, this]))

/-- All in a dotted text is written. -/
theorem isWritten_of_mem_dotted {s : String} (h : IsDotted s) {c : Char} (hc : c ∈ s.toList) :
    IsWritten c := by
  obtain ⟨ids, -, hids, rfl⟩ := h
  exact (char_of_mem_dotted hids hc).imp_right Or.inr

/-- **The characters of a written form.** -/
theorem isWritten_of_mem_toString {v : SemanticVersion} (h : v.WellFormed) {c : Char}
    (hc : c ∈ v.toString.toList) : IsWritten c := by
  rw [← padded_zero, padded, String.toList_append, List.mem_append, String.toList_ofList] at hc
  have hbuild : c ∈ (tail [] v.build).toList → IsWritten c := by
    rw [toList_tail_build]
    cases hb : v.build with
    | none => exact fun hin => absurd hin List.not_mem_nil
    | some t =>
      intro hin
      rcases List.mem_cons.1 hin with rfl | hin
      · exact Or.inr (Or.inl rfl)
      · exact isWritten_of_mem_dotted (h.build t hb) hin
  rcases hc with hnumbers | htail
  · exact (char_of_mem_numbers hnumbers).elim Or.inl isWritten_of_isDigit
  · by_cases hpre : v.preRelease = []
    · exact hbuild (hpre ▸ htail)
    · rw [toList_tail hpre] at htail
      rcases List.mem_cons.1 htail with rfl | hrest
      · exact Or.inr (Or.inr (by decide))
      · rcases List.mem_append.1 hrest with hids | hafter
        · exact (char_of_mem_dotted h.preRelease hids).imp_right Or.inr
        · exact hbuild hafter

/-- The codes of these characters lie among those of ASCII. -/
theorem toNat_of_isWritten {c : Char} (h : IsWritten c) : 43 ≤ c.toNat ∧ c.toNat ≤ 122 := by
  rcases h with rfl | rfl | h
  · decide
  · decide
  · change 43 ≤ c.val.toNat ∧ c.val.toNat ≤ 122
    simp only [isIdentifierChar, Bool.or_eq_true, Bool.and_eq_true, decide_eq_true_eq, beq_iff_eq,
      Char.le_def, UInt32.le_iff_toNat_le, Char.reduceVal, UInt32.reduceToNat] at h
    rcases h with ((hdigit | hupper) | hlower) | rfl
    · omega
    · omega
    · omega
    · decide

/-- A written form starts with a digit. -/
theorem isDigit_head_toString {v : SemanticVersion} (h : v.WellFormed) :
    ∃ c, v.toString.toList.head? = some c ∧ c.isDigit = true := by
  obtain ⟨n, ns, hns⟩ := List.exists_cons_of_ne_nil h.components
  obtain ⟨c, digits, hc⟩ := List.exists_cons_of_ne_nil (Text.numeral_ne_nil 0 n)
  have hin : c ∈ Text.numeral 0 n := hc ▸ List.mem_cons_self ..
  refine ⟨c, ?_, Text.isDigit_of_mem_numeral hin⟩
  rw [← padded_zero, padded, hns, List.length_cons, List.replicate_succ, List.zipWith_cons_cons, hc,
    List.intercalate_cons_cons_left, String.toList_append, String.toList_ofList]
  rfl

/-- No blank is written. -/
theorem isBlank_of_isWritten {c : Char} (h : IsWritten c) : Text.isBlank c = false := by
  have := toNat_of_isWritten h
  simp only [Text.isBlank, Text.blankRanges, List.any_cons, List.any_nil, Bool.or_false,
    Bool.or_eq_false_iff, Bool.and_eq_false_iff, decide_eq_false_iff_not]
  omega

/-- No bar is written. -/
theorem ne_bar_of_isWritten {c : Char} (h : IsWritten c) : c ≠ '|' := by
  rintro rfl
  exact absurd (toNat_of_isWritten h).2 (by decide)

end SemanticVersion

namespace Version

/-- **The versions that some text is read as.**  A verbatim one has no blanks at its ends, and no
semantic version has its text. -/
def WellFormed : Version → Prop
  | .semantic v => v.WellFormed
  | .verbatim t => t ≠ "" ∧ Text.trim t.toList = t.toList ∧ SemanticVersion.parse? t = none

/-- **What a version is read from**: any text but the empty one. -/
theorem ofTrimmed_eq_ok {s : List Char} {w : Version} (h : ofTrimmed s = .ok w) : s ≠ [] ∧
    ((∃ v, SemanticVersion.ofChars? s = some v ∧ w = .semantic v) ∨
      (SemanticVersion.ofChars? s = none ∧ w = .verbatim (String.ofList s))) := by
  unfold ofTrimmed at h
  split at h
  · cases h
  · rename_i hne
    refine ⟨by simpa using hne, ?_⟩
    split at h
    · rename_i v hv
      exact Or.inl ⟨v, hv, (Except.ok.inj h).symm⟩
    · rename_i hnone
      exact Or.inr ⟨hnone, (Except.ok.inj h).symm⟩

/-- **What is read is well-formed.** -/
theorem wellFormed_of_ofTrimmed {s : List Char} {w : Version} (h : ofTrimmed (Text.trim s) = .ok w) :
    w.WellFormed := by
  obtain ⟨hne, ⟨v, hv, rfl⟩ | ⟨hnone, rfl⟩⟩ := ofTrimmed_eq_ok h
  · exact (SemanticVersion.ofChars?_eq_some_iff.1 hv).1
  · refine ⟨fun hempty => hne ?_, ?_, ?_⟩
    · rw [← String.toList_ofList (l := Text.trim s), hempty]
      rfl
    · rw [String.toList_ofList, Text.trim_trim]
    · rw [SemanticVersion.parse?, String.toList_ofList, hnone]

/-- What is printed has no blanks at its ends. -/
theorem trim_toString {w : Version} (h : w.WellFormed) :
    Text.trim w.toString.toList = w.toString.toList := by
  cases w with
  | semantic v =>
    exact Text.trim_eq_self fun c hc =>
      SemanticVersion.isBlank_of_isWritten (SemanticVersion.isWritten_of_mem_toString h hc)
  | verbatim t => exact h.2.1

/-- **What is printed is read back**, semantic or not. -/
theorem ofTrimmed_toString {w : Version} (h : w.WellFormed) : ofTrimmed w.toString.toList = .ok w := by
  have hne : ∀ t : String, t ≠ "" → ¬ t.toList.isEmpty = true := by
    intro t ht hempty
    exact ht (String.toList_inj.1 (List.isEmpty_iff.1 hempty))
  cases w with
  | semantic v =>
    have hread := SemanticVersion.parse?_toString h
    have hempty : v.toString ≠ "" := by
      intro hempty
      have hnone : SemanticVersion.parse? "" = none := by decide +kernel
      rw [hempty, hnone] at hread
      cases hread
    rw [Version.toString, ofTrimmed, if_neg (hne _ hempty), ← SemanticVersion.parse?, hread]
  | verbatim t =>
    obtain ⟨hempty, -, hnone⟩ := h
    rw [Version.toString, ofTrimmed, if_neg (hne _ hempty), ← SemanticVersion.parse?, hnone,
      String.ofList_toList]

/-- A well-formed version is read from its text. -/
theorem parse_toString {w : Version} (h : w.WellFormed) : parse w.toString = .ok w := by
  rw [parse, trim_toString h, ofTrimmed_toString h]

/-- **What is read is read again when it is printed.** -/
theorem parse_toString_of_parse {s : String} {w : Version} (h : parse s = .ok w) :
    parse w.toString = .ok w :=
  parse_toString (wellFormed_of_ofTrimmed h)

/-- **Reading versions accepts just the grammar and inverts printing.**  A well-formed semantic
version is read from its written form, with all of its parts.  A text is read as a semantic version
just where the version is well-formed and the text is its written form but for zeros in front of its
numbers; without such zeros it is what is printed.  And whatever a text is read as, semantic or not,
is read again when it is printed. -/
theorem reads_just_the_grammar :
    (∀ v : SemanticVersion, v.WellFormed → SemanticVersion.parse? v.toString = some v) ∧
    (∀ (s : String) (v : SemanticVersion), SemanticVersion.parse? s = some v ↔ v.WellFormed ∧
      ∃ zeros : List Nat, zeros.length = v.components.length ∧ s = v.padded zeros) ∧
    (∀ v : SemanticVersion, v.padded (List.replicate v.components.length 0) = v.toString) ∧
    ∀ (s : String) (w : Version), parse s = .ok w → parse w.toString = .ok w :=
  ⟨fun _ => SemanticVersion.parse?_toString, fun _ _ => SemanticVersion.parse?_eq_some_iff,
    SemanticVersion.padded_zero, fun _ _ => parse_toString_of_parse⟩

/-- A release candidate whose identifiers hold hyphens and start with zeros. -/
def hyphenatedCandidate : SemanticVersion := ⟨[1, 0, 20], ["rc-1", "07"], some "b1.-x"⟩

/-- Hyphens and zeros in identifiers are kept, zeros before numbers are not, and what is no version
in full is taken verbatim. -/
theorem reads_just_the_grammar_hyphenatedCandidate :
    hyphenatedCandidate.WellFormed ∧
    hyphenatedCandidate.toString = "1.0.20-rc-1.07+b1.-x" ∧
    SemanticVersion.parse? hyphenatedCandidate.toString = some hyphenatedCandidate ∧
    SemanticVersion.parse? "01.000.20-rc-1.07+b1.-x" = some hyphenatedCandidate ∧
    parse " 1.0.20-rc-1.07+ " = .ok (.verbatim "1.0.20-rc-1.07+") ∧
    parse (Version.verbatim "1.0.20-rc-1.07+").toString = .ok (.verbatim "1.0.20-rc-1.07+") := by
  obtain ⟨hprint, hread, -, hagain⟩ := reads_just_the_grammar
  have hwell : hyphenatedCandidate.WellFormed :=
    ⟨by decide, by decide +kernel, fun b hb => by
      obtain rfl := Option.some.inj hb
      exact ⟨["b1", "-x"], by decide, by decide +kernel, by decide +kernel⟩⟩
  have hverbatim : parse " 1.0.20-rc-1.07+ " = .ok (.verbatim "1.0.20-rc-1.07+") := by
    decide +kernel
  exact ⟨hwell, by decide +kernel, hprint _ hwell,
    (hread _ _).2 ⟨hwell, [1, 2, 0], by decide, by decide +kernel⟩, hverbatim, hagain _ _ hverbatim⟩

end Version
end Loadout
