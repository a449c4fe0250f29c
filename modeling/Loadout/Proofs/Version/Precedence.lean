/-
# Precedence of pre-releases

Semver 2.0 has a rule for pre-release identifiers: those of digits alone come first, by value
whatever their length, and the others after them, as texts.  Lists of identifiers compare
lexicographically, and a release comes after all of its pre-releases
(`SemanticVersion.precedence`).

Identifiers are read as numbers of 64 bits, with any zeros before them; a greater number is a text
like any other.  So identifiers compare by the rule unless both are taken for texts and one is such
a number (`SemanticVersion.compareIdentifier_of_not_mistaken`), and versions with equal components
do unless the first identifiers that tell them apart are of this kind
(`SemanticVersion.precedence_kept_iff`): `1-99999999999999999999` comes after `1-1a`, and after
`1-100000000000000000000`.
-/

import Loadout.Proofs.Version.Sameness
import Loadout.Proofs.Text.Decimal

namespace Loadout
namespace SemanticVersion

/-! ### The rule -/

/-- Whether an identifier consists of digits alone. -/
def isNumeric (s : String) : Bool := !s.toList.isEmpty && s.toList.all Char.isDigit

/-- The value of the digits of an identifier. -/
def numericValue (s : String) : Nat := Nat.ofDigitChars 10 s.toList 0

/-- **The rule for two identifiers**: digits by value and below the rest, the rest as texts. -/
def identifierPrecedence (x y : String) : Ordering :=
  match isNumeric x, isNumeric y with
  | true, true => compare (numericValue x) (numericValue y)
  | true, false => .lt
  | false, true => .gt
  | false, false => compare x y

/-- Lists by an order of identifiers: no identifiers at all come last; else the first ones that
differ decide, and a proper initial part comes first. -/
def compareListsBy (cmp : String → String → Ordering) (as bs : List String) : Ordering :=
  (compare as.isEmpty bs.isEmpty).then (List.compareLex cmp as bs)

/-- **The rule for two lists.** -/
def precedence (as bs : List String) : Ordering := compareListsBy identifierPrecedence as bs

/-! ### Two identifiers -/

/-- Whether an identifier is a number that does not fit 64 bits. -/
def isTooLarge (s : String) : Bool := isNumeric s && decide (UInt64.size ≤ numericValue s)

/-- Two identifiers are taken for texts, though one is a number. -/
def Mistaken (x y : String) : Prop :=
  identifierNumber? x = none ∧ identifierNumber? y = none ∧
    (isTooLarge x = true ∨ isTooLarge y = true)

/-- A numeric identifier has digits and nothing else. -/
theorem isNumeric_iff {s : String} :
    isNumeric s = true ↔ s.toList ≠ [] ∧ ∀ c ∈ s.toList, c.isDigit = true := by
  simp [isNumeric]

/-- **An identifier is read as a number just where it has the value of one.** -/
theorem identifierNumber?_eq_some_iff_value {s : String} {n : UInt64} :
    identifierNumber? s = some n ↔ isNumeric s = true ∧ numericValue s = n.toNat := by
  rw [identifierNumber?, Text.toOption_readUInt64_iff, isNumeric_iff, numericValue]
  constructor
  · rintro ⟨zeros, hs⟩
    rw [hs]
    exact ⟨⟨Text.numeral_ne_nil zeros n, fun _ => Text.isDigit_of_mem_numeral⟩,
      Text.ofDigitChars_numeral zeros n⟩
  · rintro ⟨⟨hne, hdigits⟩, hvalue⟩
    obtain ⟨zeros, hzeros⟩ := Text.eq_zeros_append_toDigits hne hdigits
    exact ⟨zeros, by rwa [hvalue] at hzeros⟩

/-- What is read as no number is too large or none. -/
theorem identifierNumber?_eq_none_iff {s : String} :
    identifierNumber? s = none ↔ isNumeric s = false ∨ isTooLarge s = true := by
  rw [Option.eq_none_iff_forall_ne_some]
  simp only [ne_eq, identifierNumber?_eq_some_iff_value, not_and, isTooLarge, Bool.and_eq_true,
    decide_eq_true_iff]
  constructor
  · intro h
    by_cases hnumeric : isNumeric s = true
    · refine .inr ⟨hnumeric, Nat.le_of_not_lt fun hlt => ?_⟩
      exact h (UInt64.ofNat (numericValue s)) hnumeric (UInt64.toNat_ofNat_of_lt' hlt).symm
    · exact .inl (Bool.not_eq_true _ ▸ hnumeric)
  · rintro (hnone | ⟨-, hlarge⟩) n hnumeric hvalue
    · exact absurd hnumeric (Bool.eq_false_iff.1 hnone)
    · exact absurd n.toNat_lt (Nat.not_lt.2 (hvalue ▸ hlarge))

/-- Numbers of 64 bits compare as natural numbers. -/
theorem compare_eq_compare_toNat (n m : UInt64) : compare n m = compare n.toNat m.toNat := by
  simp only [compare, compareOfLessAndEq, UInt64.lt_iff_toNat_lt, UInt64.toNat_inj]

/-- Mistaken identifiers are compared as texts. -/
theorem compareIdentifier_of_mistaken {x y : String} (h : Mistaken x y) :
    compareIdentifier x y = compare x y := by
  rw [compareIdentifier, h.1, h.2.1]

/-- Mistaken identifiers that differ are read differently. -/
theorem Mistaken.readIdentifier_ne {x y : String} (h : Mistaken x y) (hne : x ≠ y) :
    readIdentifier x ≠ readIdentifier y := by
  rw [readIdentifier, readIdentifier, h.1, h.2.1]
  exact fun heq => hne (Sum.inr.inj heq)

/-- **Two identifiers compare by the rule**, unless they are taken for texts and one is a number. -/
theorem compareIdentifier_of_not_mistaken {x y : String} (h : ¬ Mistaken x y) :
    compareIdentifier x y = identifierPrecedence x y := by
  -- a number of 64 bits is below what is read as none, whether that is a text or too large
  have hbelow : ∀ {s t : String} {n : UInt64}, identifierNumber? s = some n →
      identifierNumber? t = none → identifierPrecedence s t = .lt ∧ identifierPrecedence t s = .gt := by
    intro s t n hs ht
    obtain ⟨hnumeric, hvalue⟩ := identifierNumber?_eq_some_iff_value.1 hs
    unfold identifierPrecedence
    rw [hnumeric]
    rcases identifierNumber?_eq_none_iff.1 ht with htext | hlarge
    · rw [htext]
      exact ⟨rfl, rfl⟩
    · obtain ⟨htnumeric, hle⟩ := Bool.and_eq_true_iff.1 hlarge
      have hlt : numericValue s < numericValue t :=
        hvalue ▸ Nat.lt_of_lt_of_le n.toNat_lt (of_decide_eq_true hle)
      rw [htnumeric]
      exact ⟨Nat.compare_eq_lt.2 hlt, Nat.compare_eq_gt.2 hlt⟩
  unfold compareIdentifier
  cases hx : identifierNumber? x with
  | some n =>
    cases hy : identifierNumber? y with
    | some m =>
      obtain ⟨hxn, hxv⟩ := identifierNumber?_eq_some_iff_value.1 hx
      obtain ⟨hyn, hyv⟩ := identifierNumber?_eq_some_iff_value.1 hy
      rw [identifierPrecedence, hxn, hyn, hxv, hyv]
      exact compare_eq_compare_toNat n m
    | none => exact (hbelow hx hy).1.symm
  | none =>
    cases hy : identifierNumber? y with
    | some m => exact (hbelow hy hx).2.symm
    | none =>
      rw [Mistaken, not_and, not_and, not_or] at h
      obtain ⟨hxl, hyl⟩ := h hx hy
      rw [identifierPrecedence, (identifierNumber?_eq_none_iff.1 hx).resolve_right hxl,
        (identifierNumber?_eq_none_iff.1 hy).resolve_right hyl]

/-- Identifiers that are read alike are equal by the rule. -/
theorem identifierPrecedence_of_readIdentifier_eq {x y : String}
    (h : readIdentifier x = readIdentifier y) : identifierPrecedence x y = .eq := by
  by_cases hmistaken : Mistaken x y
  · rw [readIdentifier, readIdentifier, hmistaken.1, hmistaken.2.1] at h
    obtain rfl := Sum.inr.inj h
    cases hx : isNumeric x <;> simp [identifierPrecedence, hx]
  · rw [← compareIdentifier_of_not_mistaken hmistaken]
    exact compareIdentifier_eq_iff.2 h

/-! ### Two lists -/

/-- Pre-releases are compared as lists are. -/
theorem comparePreRelease_eq : ∀ as bs : List String,
    comparePreRelease as bs = compareListsBy compareIdentifier as bs
  | [], [] => rfl
  | [], _ :: _ => rfl
  | _ :: _, [] => rfl
  | a :: as, b :: bs => compareIdentifiers_eq (a :: as) (b :: bs)

section Parting

variable {cmp : String → String → Ordering}
  (hcmp : ∀ x y, readIdentifier x = readIdentifier y → cmp x y = .eq)
  {p q : List String} (hpq : p.map readIdentifier = q.map readIdentifier)

include hcmp hpq

/-- Where two lists start with what is read alike, their remainders decide. -/
theorem compareLex_append (as bs : List String) :
    List.compareLex cmp (p ++ as) (q ++ bs) = List.compareLex cmp as bs := by
  induction p generalizing q with
  | nil => rw [List.map_eq_nil_iff.1 hpq.symm, List.nil_append, List.nil_append]
  | cons x p ih =>
    cases q with
    | nil => cases hpq
    | cons y q =>
      obtain ⟨hxy, hpq⟩ := List.cons.inj hpq
      rw [List.cons_append, List.cons_append, List.compareLex_cons_cons, hcmp x y hxy, ih hpq]
      rfl

/-- Identifiers that are equal at the beginning do not count. -/
theorem compareListsBy_append (x y : String) (as bs : List String) :
    compareListsBy cmp (p ++ x :: as) (q ++ y :: bs) = compareListsBy cmp (x :: as) (y :: bs) := by
  have hempty : ∀ (l : List String) z zs, (l ++ z :: zs).isEmpty = false := by simp
  rw [compareListsBy, hempty, hempty, compareLex_append hcmp hpq]
  rfl

end Parting

/-- The first identifiers decide unless they are equal. -/
theorem compareListsBy_cons {cmp : String → String → Ordering} {x y : String} (h : cmp x y ≠ .eq)
    (as bs : List String) : compareListsBy cmp (x :: as) (y :: bs) = cmp x y := by
  rw [compareListsBy, List.compareLex_cons_cons]
  cases hxy : cmp x y with
  | eq => exact absurd hxy h
  | _ => rfl

/-- By the rule, identifiers that are read alike at the beginning do not count. -/
theorem precedence_append {p q : List String} (hpq : p.map readIdentifier = q.map readIdentifier)
    (x y : String) (as bs : List String) :
    precedence (p ++ x :: as) (q ++ y :: bs) = precedence (x :: as) (y :: bs) :=
  compareListsBy_append (fun _ _ => identifierPrecedence_of_readIdentifier_eq) hpq x y as bs

/-- The first identifiers that are not read alike decide. -/
theorem comparePreRelease_append {p q : List String}
    (hpq : p.map readIdentifier = q.map readIdentifier) {x y : String}
    (hne : readIdentifier x ≠ readIdentifier y) (as bs : List String) :
    comparePreRelease (p ++ x :: as) (q ++ y :: bs) = compareIdentifier x y := by
  rw [comparePreRelease_eq, compareListsBy_append (fun _ _ => compareIdentifier_eq_iff.2) hpq,
    compareListsBy_cons fun heq => hne (compareIdentifier_eq_iff.1 heq)]

/-- **Two lists are read alike up to a place** where one of them ends or the next are not. -/
theorem exists_parting : ∀ as bs : List String, ∃ p q as' bs', as = p ++ as' ∧ bs = q ++ bs' ∧
    p.map readIdentifier = q.map readIdentifier ∧
    (as' = [] ∨ bs' = [] ∨ ∃ x xs y ys, as' = x :: xs ∧ bs' = y :: ys ∧
      readIdentifier x ≠ readIdentifier y)
  | [], bs => ⟨[], [], [], bs, rfl, rfl, rfl, .inl rfl⟩
  | a :: as, [] => ⟨[], [], a :: as, [], rfl, rfl, rfl, .inr (.inl rfl)⟩
  | a :: as, b :: bs => by
      by_cases h : readIdentifier a = readIdentifier b
      · obtain ⟨p, q, as', bs', rfl, rfl, hpq, hparts⟩ := exists_parting as bs
        exact ⟨a :: p, b :: q, as', bs', rfl, rfl, by rw [List.map_cons, List.map_cons, h, hpq], hparts⟩
      · exact ⟨[], [], a :: as, b :: bs, rfl, rfl, rfl, .inr (.inr ⟨a, as, b, bs, rfl, rfl, h⟩)⟩

/-- Where one of two lists ends, no identifiers are compared. -/
theorem compareLex_of_eq_nil {as bs : List String} (h : as = [] ∨ bs = [])
    (cmp cmp' : String → String → Ordering) :
    List.compareLex cmp as bs = List.compareLex cmp' as bs := by
  cases as <;> cases bs <;> first | rfl | simp at h

/-- **Pre-releases compare by the rule unless a number decides that does not fit 64 bits.** -/
theorem comparePreRelease_eq_precedence_iff {as bs : List String} :
    comparePreRelease as bs = precedence as bs ↔
      ∀ p x xs q y ys, as = p ++ x :: xs → bs = q ++ y :: ys →
        p.map readIdentifier = q.map readIdentifier → Mistaken x y → x ≠ y →
          compare x y = precedence (x :: xs) (y :: ys) := by
  constructor
  · rintro h p x xs q y ys rfl rfl hpq hmistaken hne
    rwa [comparePreRelease_append hpq (hmistaken.readIdentifier_ne hne), precedence_append hpq,
      compareIdentifier_of_mistaken hmistaken] at h
  · intro h
    obtain ⟨p, q, as', bs', rfl, rfl, hpq, hparts⟩ := exists_parting as bs
    by_cases hends : as' = [] ∨ bs' = []
    · rw [comparePreRelease_eq, precedence, compareListsBy, compareListsBy,
        compareLex_append (fun _ _ => compareIdentifier_eq_iff.2) hpq,
        compareLex_append (fun _ _ => identifierPrecedence_of_readIdentifier_eq) hpq,
        compareLex_of_eq_nil hends]
    obtain ⟨x, xs, y, ys, rfl, rfl, hne⟩ := (or_assoc.2 hparts).resolve_left hends
    rw [comparePreRelease_append hpq hne, precedence_append hpq]
    by_cases hmistaken : Mistaken x y
    · rw [compareIdentifier_of_mistaken hmistaken]
      exact h p x xs q y ys rfl rfl hpq hmistaken fun heq => hne (congrArg readIdentifier heq)
    · have hrule := compareIdentifier_of_not_mistaken hmistaken
      rw [hrule, precedence,
        compareListsBy_cons fun heq => hne (compareIdentifier_eq_iff.1 (hrule.trans heq))]

/-- **Versions with equal components compare by the rule of semver 2.0, unless a number decides that
does not fit 64 bits.**  They do just where two identifiers of which one is such a number and none
is smaller, when they are the first that are not read alike, come as texts in the order that the rule
gives from there on; so they always do where all numbers fit. -/
theorem precedence_kept_iff {a b : SemanticVersion} (h : ∀ i, a.component i = b.component i) :
    (a.compare b = precedence a.preRelease b.preRelease ↔
      ∀ p x xs q y ys, a.preRelease = p ++ x :: xs → b.preRelease = q ++ y :: ys →
        p.map readIdentifier = q.map readIdentifier → Mistaken x y → x ≠ y →
          compare x y = precedence (x :: xs) (y :: ys)) ∧
    ((∀ s ∈ a.preRelease ++ b.preRelease, isTooLarge s = false) →
      a.compare b = precedence a.preRelease b.preRelease) := by
  have hcompare : a.compare b = comparePreRelease a.preRelease b.preRelease := by
    rw [SemanticVersion.compare, compareComponents_eq_iff.2 h]
    rfl
  rw [hcompare, comparePreRelease_eq_precedence_iff]
  refine ⟨Iff.rfl, ?_⟩
  rintro hfits p x xs q y ys ha hb - ⟨-, -, hlarge⟩
  rw [hfits x (by simp [ha]), hfits y (by simp [hb])] at hlarge
  simp at hlarge

/-- A version whose identifier is a number of twenty digits. -/
def longNumber : SemanticVersion := ⟨[1], ["99999999999999999999"], none⟩

/-- A version whose identifier starts with a digit and is no number. -/
def shortText : SemanticVersion := ⟨[1, 0], ["1a"], none⟩

/-- A number of twenty digits is below a text by the rule, but not as it is compared; against
numbers that fit it keeps its place. -/
theorem precedence_kept_iff_longNumber :
    parse? "1-99999999999999999999" = some longNumber ∧ parse? "1.0-1a" = some shortText ∧
    (∀ i, longNumber.component i = shortText.component i) ∧
    precedence longNumber.preRelease shortText.preRelease = .lt ∧
    longNumber.compare shortText ≠ precedence longNumber.preRelease shortText.preRelease ∧
    shortText.compare ⟨[1], ["18446744073709551615", "x"], none⟩ = .gt := by
  have hcomponents : ∀ i, longNumber.component i = shortText.component i := by
    rintro (_ | _ | i) <;> rfl
  have hothers : ∀ i, shortText.component i =
      component ⟨[1], ["18446744073709551615", "x"], none⟩ i := by
    rintro (_ | _ | i) <;> rfl
  obtain ⟨hiff, -⟩ := precedence_kept_iff hcomponents
  obtain ⟨-, hfits⟩ := precedence_kept_iff hothers
  refine ⟨by decide +kernel, by decide +kernel, hcomponents, by decide +kernel, fun heq => ?_, ?_⟩
  · have htexts := hiff.1 heq [] _ _ [] _ _ rfl rfl rfl ⟨by decide +kernel, by decide +kernel,
      .inl (by decide +kernel)⟩ (by decide)
    exact absurd htexts (by decide +kernel)
  · rw [hfits (by decide +kernel)]
    decide +kernel

end SemanticVersion
end Loadout
