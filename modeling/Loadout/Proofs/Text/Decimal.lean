/-
# Numbers with zeros before them

Reading digits gives their value, as long as it fits 64 bits (`Text.readDigits_eq_ok_iff`).  Digits
of one value differ in nothing but the zeros at the start (`Text.eq_zeros_append_toDigits`), so the
texts that are read as a number are its numerals: the digits that it is printed with, and as many
zeros before them as one likes (`Text.readUInt64_eq_ok_iff`).
-/

import Loadout.Text.Decimal

namespace Loadout
namespace Text

/-- The digits of a number with `zeros` zeros before them. -/
def numeral (zeros : Nat) (n : UInt64) : List Char :=
  List.replicate zeros '0' ++ Nat.toDigits 10 n.toNat

/-- A number has digits. -/
theorem numeral_ne_nil (zeros : Nat) (n : UInt64) : numeral zeros n ≠ [] :=
  List.append_ne_nil_of_right_ne_nil _ Nat.toDigits_ne_nil

/-- A numeral consists of digits. -/
theorem isDigit_of_mem_numeral {zeros : Nat} {n : UInt64} {c : Char} (h : c ∈ numeral zeros n) :
    c.isDigit = true := by
  rcases List.mem_append.1 h with hzero | hdigit
  · rw [List.eq_of_mem_replicate hzero]
    rfl
  · exact Nat.isDigit_of_mem_toDigits (by decide) (by decide) hdigit

/-! ### The value of digits -/

/-- Digits are the characters from `0` to `9`. -/
theorem isDigit_iff {c : Char} : c.isDigit = true ↔ '0' ≤ c ∧ c ≤ '9' := by
  rw [Char.isDigit, Bool.and_eq_true, decide_eq_true_iff, decide_eq_true_iff]
  rfl

/-- A digit has the value of its distance from `0`. -/
theorem digitValue?_of_isDigit {c : Char} (h : c.isDigit = true) :
    digitValue? c = some (c.toNat - '0'.toNat) :=
  if_pos (isDigit_iff.1 h)

/-- Only digits have a value. -/
theorem isDigit_of_digitValue? {c : Char} {d : Nat} (h : digitValue? c = some d) :
    c.isDigit = true ∧ d = c.toNat - '0'.toNat := by
  unfold digitValue? at h
  split at h
  · exact ⟨isDigit_iff.2 ‹_›, (Option.some.inj h).symm⟩
  · cases h

/-- More digits make no value smaller. -/
theorem le_ofDigitChars (cs : List Char) (acc : Nat) : acc ≤ Nat.ofDigitChars 10 cs acc := by
  rw [Nat.ofDigitChars_eq_ofDigitChars_zero]
  exact Nat.le_trans (Nat.le_mul_of_pos_left acc (Nat.pow_pos (by decide))) (Nat.le_add_right _ _)

/-- **Reading digits gives their value**, as long as that stays in range. -/
theorem readDigits_eq_ok_iff {acc n : Nat} (hacc : acc < UInt64.size) {cs : List Char} :
    readDigits acc cs = .ok n ↔
      (∀ c ∈ cs, c.isDigit = true) ∧ n = Nat.ofDigitChars 10 cs acc ∧ n < UInt64.size := by
  induction cs generalizing acc with
  | nil =>
    rw [readDigits, Nat.ofDigitChars_nil, Except.ok.injEq]
    exact ⟨fun h => ⟨by simp, h.symm, h ▸ hacc⟩, fun h => h.2.1.symm⟩
  | cons c cs ih =>
    rw [readDigits, Nat.ofDigitChars_cons, List.forall_mem_cons, Nat.mul_comm 10 acc]
    cases hd : digitValue? c with
    | none =>
      refine ⟨fun h => absurd h (by simp), fun h => ?_⟩
      rw [digitValue?_of_isDigit h.1.1] at hd
      cases hd
    | some d =>
      obtain ⟨hc, rfl⟩ := isDigit_of_digitValue? hd
      dsimp only
      by_cases hsmall : acc * 10 + (c.toNat - '0'.toNat) < UInt64.size
      · rw [if_pos hsmall, ih hsmall]
        simp only [hc, true_and]
      · rw [if_neg hsmall]
        refine ⟨fun h => absurd h (by simp), fun h => ?_⟩
        have := le_ofDigitChars cs (acc * 10 + (c.toNat - '0'.toNat))
        omega

/-- The value of a numeral is the number. -/
theorem ofDigitChars_numeral (zeros : Nat) (n : UInt64) :
    Nat.ofDigitChars 10 (numeral zeros n) 0 = n.toNat := by
  rw [numeral, Nat.ofDigitChars_append, Nat.ofDigitChars_replicate_zero, Nat.mul_zero,
    Nat.ofDigitChars_ten_toDigits]

/-! ### Digits of one value -/

/-- A digit is the numeral of its value. -/
theorem toDigits_of_isDigit {c : Char} (h : c.isDigit = true) :
    Nat.toDigits 10 (c.toNat - '0'.toNat) = [c] := by
  obtain ⟨hlow, hhigh⟩ := Char.isDigit_iff_toNat.1 h
  have hlt : c.toNat - '0'.toNat < 10 := by
    have : '9'.toNat = '0'.toNat + 9 := rfl
    omega
  rw [Nat.toDigits_of_lt_base hlt]
  congr 1
  apply Char.toNat_inj.1
  rw [Nat.toNat_digitChar_of_lt_ten hlt]
  have : '0'.toNat = 48 := rfl
  omega

/-- Digits that follow a number without zeros before it make one. -/
theorem toDigits_append {cs : List Char} (hcs : ∀ c ∈ cs, c.isDigit = true) {acc : Nat}
    (hacc : 0 < acc) : Nat.toDigits 10 acc ++ cs = Nat.toDigits 10 (Nat.ofDigitChars 10 cs acc) := by
  induction cs generalizing acc with
  | nil => simp
  | cons c cs ih =>
    obtain ⟨hc, hcs⟩ := List.forall_mem_cons.1 hcs
    have hlt : c.toNat - '0'.toNat < 10 := by
      have := (Char.isDigit_iff_toNat.1 hc).2
      have : '9'.toNat = '0'.toNat + 9 := rfl
      omega
    rw [Nat.ofDigitChars_cons, ← ih hcs (by omega),
      ← Nat.toDigits_append_toDigits (by decide) hacc hlt, toDigits_of_isDigit hc, List.append_assoc,
      List.singleton_append]

/-- **Digits are those of their value**, with zeros before them. -/
theorem eq_zeros_append_toDigits {cs : List Char} (hne : cs ≠ [])
    (hcs : ∀ c ∈ cs, c.isDigit = true) :
    ∃ zeros, cs = List.replicate zeros '0' ++ Nat.toDigits 10 (Nat.ofDigitChars 10 cs 0) := by
  induction cs with
  | nil => exact absurd rfl hne
  | cons c cs ih =>
    obtain ⟨hc, hrest⟩ := List.forall_mem_cons.1 hcs
    rw [Nat.ofDigitChars_cons, Nat.mul_zero, Nat.zero_add]
    by_cases hzero : c.toNat - '0'.toNat = 0
    · -- a zero at the start, which counts unless nothing follows
      obtain rfl : c = '0' := by
        have := toDigits_of_isDigit hc
        rw [hzero, Nat.toDigits_zero] at this
        exact (List.singleton_inj.1 this).symm
      by_cases hnil : cs = []
      · subst hnil
        exact ⟨0, by decide⟩
      · obtain ⟨zeros, hzeros⟩ := ih hnil hrest
        refine ⟨zeros + 1, ?_⟩
        rw [List.replicate_succ, List.cons_append, Nat.sub_self, ← hzeros]
    · refine ⟨0, ?_⟩
      rw [← toDigits_append hrest (by omega), toDigits_of_isDigit hc]
      rfl

/-- **The texts that are read as a number are its numerals.** -/
theorem readUInt64_eq_ok_iff {s : List Char} {n : UInt64} :
    readUInt64 s = .ok n ↔ ∃ zeros, s = numeral zeros n := by
  have hpos : 0 < UInt64.size := by decide
  constructor
  · intro h
    have hne : s ≠ [] := fun hnil => by simp [readUInt64, hnil] at h
    rw [readUInt64, if_neg (by simpa using hne)] at h
    cases hm : readDigits 0 s with
    | error fault => simp [hm, Except.map] at h
    | ok m =>
      obtain rfl : UInt64.ofNat m = n := by simpa [hm, Except.map] using h
      obtain ⟨hdigits, rfl, hlt⟩ := (readDigits_eq_ok_iff hpos).1 hm
      obtain ⟨zeros, hzeros⟩ := eq_zeros_append_toDigits hne hdigits
      refine ⟨zeros, ?_⟩
      rwa [numeral, UInt64.toNat_ofNat_of_lt' hlt]
  · rintro ⟨zeros, rfl⟩
    rw [readUInt64, if_neg (by simpa using numeral_ne_nil zeros n), (readDigits_eq_ok_iff hpos).2
      ⟨fun _ => isDigit_of_mem_numeral, (ofDigitChars_numeral zeros n).symm, n.toNat_lt⟩]
    show Except.ok (UInt64.ofNat n.toNat) = _
    rw [UInt64.ofNat_toNat]

/-- **What is read as a number** is a numeral of it, with any zeros before it. -/
theorem toOption_readUInt64_iff {s : List Char} {n : UInt64} :
    (readUInt64 s).toOption = some n ↔ ∃ zeros, s = numeral zeros n := by
  rw [← readUInt64_eq_ok_iff]
  cases readUInt64 s <;> simp [Except.toOption]

end Text
end Loadout
