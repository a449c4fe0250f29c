/-
# Reading predicates and printing them

A predicate is printed with ` || ` between its terms, and each term with its operator, but for the
exact one, which is printed as its version alone.  What is printed is cut back into the terms it was
made of (`Predicate.readTerms_toString`), so a predicate is read back just where each of its terms
is (`Predicate.printed_reads_back_iff`).

Semantic versions start with a digit and are no wildcard, so terms about them are read back.  A
verbatim version is in an exact term only, and there it is printed without the `=` that may have
stood before it.  Without it the text may be read as something else: `=^1` asks for the version
`^1` and is printed as `^1`, a range; `=*` is printed as `*`, which is every version.
-/

import Loadout.Proofs.Version.Grammar
import Loadout.Proofs.Version.Order
import Loadout.Version.Predicate

namespace Loadout
namespace Term

/-- Whether a text, read as a term, is read as a version: it is no star, no wildcard form, and
starts with no operator. -/
def IsBare (s : List Char) : Prop :=
  s ≠ ['*'] ∧ wildcard? s = none ∧ (splitOperator s).1 = none

/-- **The terms that are read back**: all but exact ones about a text that reads as another term. -/
def ReadsBack : Term → Prop
  | exact (.verbatim text) => IsBare text.toList
  | _ => True

/-- **The terms that some text is read as**: a star, an exact term about any version, and the terms
that the other operators make of semantic versions. -/
inductive WellFormed : Term → Prop
  | any : WellFormed .any
  | exact {v : Version} (hv : v.WellFormed) : WellFormed (.exact v)
  | ordered {op : Operator} (hop : op ≠ .equals) {v : SemanticVersion} (hv : v.WellFormed) :
      WellFormed (op.apply (.semantic v))

/-- A term is the same as itself. -/
@[simp] theorem sameAs_self (t : Term) : t.sameAs t = true := by
  cases t with
  | any => rfl
  | _ v => exact v.sameAs_self

end Term

namespace Predicate

/-- Predicates are the same where their terms are, one by one. -/
theorem sameAs_iff {p q : Predicate} :
    q.sameAs p = true ↔ List.Forall₂ (fun s t => s.sameAs t = true) q.terms p.terms := by
  rw [sameAs, Bool.and_eq_true, beq_iff_eq, List.all_eq_true, List.forall₂_iff_zip]
  simp

/-- A predicate is the same as itself. -/
@[simp] theorem sameAs_self (p : Predicate) : p.sameAs p = true :=
  sameAs_iff.2 (List.forall₂_same.2 fun t _ => t.sameAs_self)

end Predicate

namespace Term

/-! ### Reading a term -/

/-- A text without an operator is left as it is. -/
theorem splitOperator_eq_none {s : List Char} (h : (splitOperator s).1 = none) :
    splitOperator s = (none, s) := by
  unfold splitOperator at h ⊢
  split <;> simp_all

/-- **A wildcard form** is made of numbers, at least one, and of a star after them. -/
theorem parts_of_wildcard? {s : List Char} {w : List Char × Option (List Char)}
    (h : wildcard? s = some w) : ∃ major rest star, s.splitOn '.' = major :: (rest ++ [star]) ∧
      (∀ n ∈ major :: rest, n ≠ [] ∧ ∀ c ∈ n, Text.isDigit c = true) ∧
      (star = ['x'] ∨ star = ['X'] ∨ star = ['*']) := by
  have hdigits : ∀ n, wildcard?.digits n = true → n ≠ [] ∧ ∀ c ∈ n, Text.isDigit c = true := by
    intro n hn
    simpa [wildcard?.digits] using hn
  have hstar : ∀ star, wildcard?.isStar star = true → star = ['x'] ∨ star = ['X'] ∨ star = ['*'] := by
    intro star hs
    simpa [wildcard?.isStar, or_assoc] using hs
  unfold wildcard? at h
  split at h
  · rename_i major star hsplit
    split at h
    · rename_i hform
      rw [Bool.and_eq_true] at hform
      exact ⟨major, [], star, hsplit, by simpa using hdigits major hform.1, hstar star hform.2⟩
    · cases h
  · rename_i major minor star hsplit
    split at h
    · rename_i hform
      rw [Bool.and_eq_true, Bool.and_eq_true] at hform
      refine ⟨major, [minor], star, hsplit, ?_, hstar star hform.2⟩
      simpa using And.intro (hdigits major hform.1.1) (hdigits minor hform.1.2)
    · cases h
  · cases h

/-- A wildcard form starts with a digit. -/
theorem isDigit_head_of_wildcard? {s : List Char} {w : List Char × Option (List Char)}
    (h : wildcard? s = some w) : ∃ c, s.head? = some c ∧ Text.isDigit c = true := by
  obtain ⟨major, rest, star, hsplit, hdigits, -⟩ := parts_of_wildcard? h
  obtain ⟨hne, hmajor⟩ := hdigits major (List.mem_cons_self ..)
  obtain ⟨c, major, rfl⟩ := List.exists_cons_of_ne_nil hne
  refine ⟨c, ?_, hmajor c (List.mem_cons_self ..)⟩
  have hs : ['.'].intercalate (s.splitOn '.') = s := List.intercalate_splitOn '.'
  rw [← hs, hsplit, List.intercalate_cons_cons_left]
  rfl

/-- **A wildcard form is no version**: it is all numbers, but its star is none. -/
theorem ofChars?_of_wildcard? {s : List Char} {w : List Char × Option (List Char)}
    (h : wildcard? s = some w) : SemanticVersion.ofChars? s = none := by
  obtain ⟨major, rest, star, hsplit, hdigits, hstar⟩ := parts_of_wildcard? h
  have hchars : ∀ c ∈ s, (c != '-' && c != '+') = true := by
    intro c hc
    rw [Bool.and_eq_true, bne_iff_ne, bne_iff_ne]
    have hs : ['.'].intercalate (s.splitOn '.') = s := List.intercalate_splitOn '.'
    rw [← hs, hsplit] at hc
    have hin : c = '.' ∨ Text.isDigit c = true ∨ c ∈ star := by
      rcases Text.mem_intercalate hc with hdot | ⟨part, hpart, hcpart⟩
      · exact Or.inl (List.mem_singleton.1 hdot)
      · rw [← List.cons_append, List.mem_append, List.mem_singleton] at hpart
        rcases hpart with hnumber | rfl
        · exact Or.inr (Or.inl ((hdigits part hnumber).2 c hcpart))
        · exact Or.inr (Or.inr hcpart)
    constructor <;> rintro rfl <;> rcases hstar with rfl | rfl | rfl <;>
      exact absurd hin (by decide +kernel)
  have hnone : SemanticVersion.numbers? s = none := by
    rw [Option.eq_none_iff_forall_ne_some]
    intro ns hns
    rw [SemanticVersion.numbers?, Text.mapM_eq_some_iff, hsplit] at hns
    obtain ⟨n, hn⟩ := Text.exists_of_forall₂ hns (x := star) (by simp)
    obtain ⟨zeros, rfl⟩ := Text.toOption_readUInt64_iff.1 hn
    have hdigit : ∀ c ∈ Text.numeral zeros n, c.isDigit = true := fun _ => Text.isDigit_of_mem_numeral
    rcases hstar with hx | hx | hx <;> rw [hx] at hdigit <;>
      exact absurd (hdigit _ (List.mem_singleton_self _)) (by decide)
  rw [SemanticVersion.ofChars?_eq, List.takeWhile_eq_self_iff.2 hchars, hnone]
  rfl

/-- The text of an operator. -/
def Operator.text : Operator → List Char
  | caret => ['^']
  | tilde => ['~']
  | greaterOrEqual => ['>', '=']
  | lessOrEqual => ['<', '=']
  | greater => ['>']
  | less => ['<']
  | equals => ['=']

/-- What an operator is split from begins with its text. -/
theorem eq_append_of_splitOperator {s rest : List Char} {op : Operator}
    (h : splitOperator s = (some op, rest)) : s = op.text ++ rest := by
  unfold splitOperator at h
  split at h <;> cases h <;> rfl

/-- An operator is split off, unless what follows makes another one of it. -/
theorem splitOperator_append (op : Operator) {rest : List Char} (h : rest.head? ≠ some '=') :
    splitOperator (op.text ++ rest) = (some op, rest) := by
  have hne : ∀ tail, rest = '=' :: tail → False := fun tail htail => h (htail ▸ rfl)
  cases op with
  | greater => exact splitOperator.eq_5 rest hne
  | less => exact splitOperator.eq_6 rest hne
  | _ => rfl

/-- Where the error is changed, the result is not. -/
theorem mapError_eq_ok_iff {α ε ε' : Type} {f : ε → ε'} {x : Except ε α} {a : α} :
    x.mapError f = .ok a ↔ x = .ok a := by
  cases x <;> simp [Except.mapError]

/-- A wildcard is a line of numbers, major or minor. -/
theorem ofWildcard_eq_ok {major : List Char} {minor : Option (List Char)} {t : Term}
    (h : ofWildcard major minor = .ok t) :
    ∃ ns, ns ≠ [] ∧ (t = .sameMajor (.ofComponents ns) ∨ t = .sameMinor (.ofComponents ns)) := by
  unfold ofWildcard at h
  cases hfirst : Text.readUInt64 major with
  | error fault => simp [hfirst, bind, Except.bind] at h
  | ok first =>
    cases minor with
    | none =>
      rw [hfirst] at h
      exact ⟨[first], by simp, Or.inl (Except.ok.inj h).symm⟩
    | some digits =>
      cases hsecond : Text.readUInt64 digits with
      | error fault => simp [hfirst, hsecond, bind, Except.bind] at h
      | ok second =>
        rw [hfirst] at h
        simp only [bind, Except.bind, hsecond] at h
        exact ⟨[first, second], by simp, Or.inr (Except.ok.inj h).symm⟩

/-- An operand is a version, which stands alone or is taken by an operator; a verbatim one is taken
by `=` only. -/
theorem ofOperand_eq_ok {operator : Option Operator} {rest : List Char} {t : Term}
    (h : ofOperand operator rest = .ok t) : ∃ v, Version.ofTrimmed (Text.trim rest) = .ok v ∧
      ((operator = none ∧ t = .exact v) ∨
        ∃ op, operator = some op ∧ (v.isSemantic = true ∨ op = .equals) ∧ t = op.apply v) := by
  unfold ofOperand at h
  split at h
  · cases h
  · rename_i v hv
    refine ⟨v, hv, ?_⟩
    split at h
    · exact Or.inl ⟨rfl, (Except.ok.inj h).symm⟩
    · rename_i op
      split at h
      · rename_i hfits
        refine Or.inr ⟨op, rfl, by simpa using hfits, (Except.ok.inj h).symm⟩
      · cases h

/-- **What a term can be read from**: a star, a wildcard form, a bare version, or an operator and a
version after it. -/
theorem ofTrimmed_eq_ok {s : List Char} {t : Term} (h : ofTrimmed s = .ok t) :
    t = .any ∨
    (∃ ns, ns ≠ [] ∧ (t = .sameMajor (.ofComponents ns) ∨ t = .sameMinor (.ofComponents ns))) ∨
    (∃ v, IsBare s ∧ Version.ofTrimmed (Text.trim s) = .ok v ∧ t = .exact v) ∨
    ∃ (op : Operator) (rest : List Char) (v : Version), s = op.text ++ rest ∧
      Version.ofTrimmed (Text.trim rest) = .ok v ∧ (v.isSemantic = true ∨ op = .equals) ∧
      t = op.apply v := by
  unfold ofTrimmed at h
  split at h
  · cases h
  split at h
  · exact Or.inl (Except.ok.inj h).symm
  rename_i hstar
  split at h
  · exact Or.inr (Or.inl (ofWildcard_eq_ok (mapError_eq_ok_iff.1 h)))
  rename_i hwildcard
  change ofOperand (splitOperator s).1 (splitOperator s).2 = .ok t at h
  obtain ⟨v, hv, ⟨hnone, rfl⟩ | ⟨op, hop, hfits, rfl⟩⟩ := ofOperand_eq_ok h
  · have hrest := splitOperator_eq_none hnone
    rw [hrest] at hv
    exact Or.inr (Or.inr (Or.inl ⟨v, ⟨hstar, hwildcard, hnone⟩, hv, rfl⟩))
  · exact Or.inr (Or.inr (Or.inr ⟨op, _, v, eq_append_of_splitOperator (Prod.ext hop rfl), hv, hfits,
      rfl⟩))

/-- **What is read is well-formed.** -/
theorem wellFormed_of_ofTrimmed {s : List Char} {t : Term} (h : ofTrimmed s = .ok t) :
    t.WellFormed := by
  have hrelease : ∀ ns, ns ≠ [] → (SemanticVersion.ofComponents ns).WellFormed := fun ns hns =>
    ⟨hns, by simp [SemanticVersion.ofComponents], by simp [SemanticVersion.ofComponents]⟩
  rcases ofTrimmed_eq_ok h with rfl | ⟨ns, hns, rfl | rfl⟩ | ⟨v, -, hv, rfl⟩ |
    ⟨op, rest, v, -, hv, hfits, rfl⟩
  · exact .any
  · exact .ordered (show Operator.caret ≠ .equals by decide) (hrelease ns hns)
  · exact .ordered (show Operator.tilde ≠ .equals by decide) (hrelease ns hns)
  · exact .exact (Version.wellFormed_of_ofTrimmed hv)
  · have hwell := Version.wellFormed_of_ofTrimmed hv
    by_cases hop : op = .equals
    · subst hop
      exact .exact hwell
    · cases v with
      | semantic v => exact .ordered hop hwell
      | verbatim text => exact absurd (hfits.resolve_right hop) (by simp [Version.isSemantic, Version.semantic?])

/-! ### Printing a term -/

/-- A term is printed as its operator and its version, unless it is exact. -/
theorem toList_toString_apply {op : Operator} (hop : op ≠ .equals) (v : Version) :
    (op.apply v).toString.toList = op.text ++ v.toString.toList := by
  cases op with
  | equals => exact absurd rfl hop
  | _ => exact String.toList_append

/-- A printed semantic version is bare. -/
theorem isBare_toString {v : SemanticVersion} (h : v.WellFormed) : IsBare v.toString.toList := by
  obtain ⟨c, hc, hdigit⟩ := SemanticVersion.isDigit_head_toString h
  refine ⟨fun hstar => ?_, ?_, ?_⟩
  · rw [hstar] at hc
    obtain rfl := Option.some.inj hc
    exact absurd hdigit (by decide)
  · rw [Option.eq_none_iff_forall_ne_some]
    intro w hw
    have hread := SemanticVersion.parse?_toString h
    rw [SemanticVersion.parse?, ofChars?_of_wildcard? hw] at hread
    cases hread
  · rw [Option.eq_none_iff_forall_ne_some]
    intro op hop
    rw [eq_append_of_splitOperator (Prod.ext hop rfl)] at hc
    cases op <;> obtain rfl := Option.some.inj hc <;> exact absurd hdigit (by decide)

/-- A bare text is read as the version that it is. -/
theorem ofTrimmed_of_isBare {s : List Char} (hne : s ≠ []) (h : IsBare s) {v : Version}
    (hv : Version.ofTrimmed (Text.trim s) = .ok v) : ofTrimmed s = .ok (.exact v) := by
  rw [ofTrimmed, if_neg (by simpa using hne), if_neg h.1, h.2.1, splitOperator_eq_none h.2.2]
  dsimp only
  rw [ofOperand, hv]

/-- A printed term with an operator is read back. -/
theorem ofTrimmed_apply {op : Operator} (hop : op ≠ .equals) {v : SemanticVersion}
    (h : v.WellFormed) :
    ofTrimmed (op.text ++ v.toString.toList) = .ok (op.apply (.semantic v)) := by
  obtain ⟨c, hc, hdigit⟩ := SemanticVersion.isDigit_head_toString h
  have hsplit : splitOperator (op.text ++ v.toString.toList) = (some op, v.toString.toList) := by
    refine splitOperator_append op fun heq => ?_
    rw [hc] at heq
    obtain rfl := Option.some.inj heq
    exact absurd hdigit (by decide)
  have hoperand : ofOperand (some op) v.toString.toList = .ok (op.apply (.semantic v)) := by
    have hw : Version.WellFormed (.semantic v) := h
    have htrim := Version.trim_toString hw
    have hread := Version.ofTrimmed_toString hw
    rw [Version.toString] at htrim hread
    rw [ofOperand, htrim, hread]
    exact if_pos rfl
  have hwildcard : wildcard? (op.text ++ v.toString.toList) = none := by
    rw [Option.eq_none_iff_forall_ne_some]
    intro w hw
    obtain ⟨d, hd, hisDigit⟩ := isDigit_head_of_wildcard? hw
    cases op <;> obtain rfl := Option.some.inj hd <;> exact absurd hisDigit (by decide)
  have hne : ¬ (op.text ++ v.toString.toList).isEmpty = true := by cases op <;> simp [Operator.text]
  have hstar : op.text ++ v.toString.toList ≠ ['*'] := by cases op <;> simp [Operator.text]
  rw [ofTrimmed, if_neg hne, if_neg hstar, hwildcard, hsplit]
  exact hoperand

/-- **A term is read back** where it is no exact one about a text that reads as another term. -/
theorem ofTrimmed_toString {t : Term} (h : t.WellFormed) (hback : t.ReadsBack) :
    ofTrimmed t.toString.toList = .ok t := by
  cases h with
  | any => decide +kernel
  | ordered hop hv =>
    rw [toList_toString_apply hop]
    exact ofTrimmed_apply hop hv
  | @exact v hv =>
    have hbare : IsBare v.toString.toList := by
      cases v with
      | semantic v => exact isBare_toString hv
      | verbatim text => exact hback
    have hread := Version.ofTrimmed_toString hv
    refine ofTrimmed_of_isBare (fun hnil => ?_) hbare ?_
    · rw [hnil] at hread
      cases hread
    · rwa [Version.trim_toString hv]

/-- **No other term is**: it is read as a different one, if as any. -/
theorem readsBack_of_sameAs {t t' : Term} (hread : ofTrimmed t.toString.toList = .ok t')
    (hsame : t'.sameAs t = true) : t.ReadsBack := by
  fun_cases ReadsBack t with
  | case2 => trivial
  | case1 text =>
    change ofTrimmed text.toList = .ok t' at hread
    rcases ofTrimmed_eq_ok hread with rfl | ⟨ns, -, rfl | rfl⟩ | ⟨v, hbare, -, rfl⟩ |
      ⟨op, rest, v, htext, hv, hfits, rfl⟩
    · cases hsame
    · cases hsame
    · cases hsame
    · exact hbare
    · -- only `=` makes an exact term, and the text after it is shorter
      obtain rfl : op = .equals := by cases op <;> first | rfl | cases hsame
      change v.sameAs (.verbatim text) = true at hsame
      obtain ⟨-, ⟨v, -, rfl⟩ | ⟨-, rfl⟩⟩ := Version.ofTrimmed_eq_ok hv
      · cases hsame
      · have hshort := (Text.isInfix_trim rest).length_le
        rw [Version.sameAs, beq_iff_eq] at hsame
        rw [← hsame, String.toList_ofList] at htext
        have hlength := congrArg List.length htext
        simp only [Operator.text, List.cons_append, List.nil_append, List.length_cons] at hlength
        omega

/-- **A term that is read without a `=` in front is read back.** -/
theorem readsBack_of_head {s : List Char} {t : Term} (h : ofTrimmed (Text.trim s) = .ok t)
    (hequals : (Text.trim s).head? ≠ some '=') : t.ReadsBack := by
  rcases ofTrimmed_eq_ok h with rfl | ⟨ns, -, rfl | rfl⟩ | ⟨v, hbare, hv, rfl⟩ |
    ⟨op, rest, v, hs, hv, hfits, rfl⟩
  · trivial
  · trivial
  · trivial
  · rw [Text.trim_trim] at hv
    obtain ⟨-, ⟨v, -, rfl⟩ | ⟨-, rfl⟩⟩ := Version.ofTrimmed_eq_ok hv
    · trivial
    · rwa [ReadsBack, String.toList_ofList]
  · cases op with
    | equals => exact absurd (congrArg List.head? hs) hequals
    | _ => trivial

/-! ### Blanks and bars -/

/-- No operator has blanks or bars. -/
theorem Operator.char_of_mem_text (op : Operator) :
    ∀ c ∈ op.text, Text.isBlank c = false ∧ c ≠ '|' := by
  have hall : op.text.all (fun c => !Text.isBlank c && c != '|') = true := by
    cases op <;> decide +kernel
  intro c hc
  simpa using List.all_eq_true.1 hall c hc

/-- A printed term has no blanks at its ends. -/
theorem trim_toString {t : Term} (h : t.WellFormed) :
    Text.trim t.toString.toList = t.toString.toList := by
  cases h with
  | any => decide +kernel
  | exact hv => exact Version.trim_toString hv
  | @ordered op hop v hv =>
    rw [toList_toString_apply hop]
    refine Text.trim_eq_self fun c hc => ?_
    rcases List.mem_append.1 hc with hmark | hversion
    · exact (op.char_of_mem_text c hmark).1
    · exact SemanticVersion.isBlank_of_isWritten (SemanticVersion.isWritten_of_mem_toString hv hversion)

/-- A version that is read from a text without two bars in a row is printed without them. -/
theorem noBars_version {s : List Char} (hs : Text.NoBars s) {v : Version}
    (h : Version.ofTrimmed (Text.trim s) = .ok v) : Text.NoBars v.toString.toList := by
  have hwell := Version.wellFormed_of_ofTrimmed h
  obtain ⟨-, ⟨v, -, rfl⟩ | ⟨-, rfl⟩⟩ := Version.ofTrimmed_eq_ok h
  · exact Text.noBars_of_not_mem fun hbar =>
      SemanticVersion.ne_bar_of_isWritten (SemanticVersion.isWritten_of_mem_toString hwell hbar) rfl
  · rw [Version.toString, String.toList_ofList]
    exact hs.of_isInfix (Text.isInfix_trim s)

/-- **So is a term.** -/
theorem noBars_toString {s : List Char} (hs : Text.NoBars s) {t : Term} (h : ofTrimmed s = .ok t) :
    Text.NoBars t.toString.toList := by
  have hwell := wellFormed_of_ofTrimmed h
  cases hwell with
  | any => exact Text.noBars_of_not_mem (by decide +kernel)
  | @ordered op hop v hv =>
    rw [toList_toString_apply hop]
    refine Text.noBars_of_not_mem fun hbar => ?_
    rcases List.mem_append.1 hbar with hmark | hversion
    · exact (op.char_of_mem_text _ hmark).2 rfl
    · exact SemanticVersion.ne_bar_of_isWritten
        (SemanticVersion.isWritten_of_mem_toString hv hversion) rfl
  | @exact v hv =>
    show Text.NoBars v.toString.toList
    rcases ofTrimmed_eq_ok h with heq | ⟨ns, -, heq | heq⟩ | ⟨w, -, hw, heq⟩ |
      ⟨op, rest, w, rfl, hw, -, heq⟩
    · cases heq
    · cases heq
    · cases heq
    · cases heq
      exact noBars_version hs hw
    · obtain rfl : v = w := by cases op <;> cases heq; rfl
      exact noBars_version (hs.of_isInfix (List.suffix_append op.text rest).isInfix) hw

end Term

namespace Predicate

/-! ### Predicates -/

/-- A predicate is read as its terms are. -/
theorem parse_eq_ok_iff {s : String} {p : Predicate} :
    parse s = .ok p ↔ readTerms s.toList = .ok p.terms := by
  obtain ⟨terms⟩ := p
  unfold parse
  cases readTerms s.toList <;> simp [Except.mapError, Except.map]

/-- **The terms that a predicate is read with**: at least one, each read from a piece of the text. -/
theorem exists_of_readTerms {s : List Char} {terms : List Term} (h : readTerms s = .ok terms) :
    terms ≠ [] ∧ ∀ t ∈ terms, ∃ part ∈ Text.splitAlternatives s,
      Term.ofTrimmed (Text.trim part) = .ok t := by
  rw [readTerms, Text.mapM_eq_ok_iff] at h
  refine ⟨?_, fun t ht => ?_⟩
  · rintro rfl
    exact Text.splitAlternatives_ne_nil s (List.forall₂_nil_right_iff.1 h)
  · obtain ⟨i, hi, rfl⟩ := List.getElem_of_mem ht
    have hi' : i < (Text.splitAlternatives s).length := h.length_eq ▸ hi
    exact ⟨_, List.getElem_mem hi', h.get hi' hi⟩

/-- **What is printed is cut back into the terms that it was made of.** -/
theorem readTerms_toString {s : List Char} {p : Predicate} (h : readTerms s = .ok p.terms) :
    readTerms p.toString.toList = p.terms.mapM fun t => Term.ofTrimmed t.toString.toList := by
  obtain ⟨hne, hparts⟩ := exists_of_readTerms h
  have htrim : (p.terms.map fun t => t.toString.toList).map Text.trim =
      p.terms.map fun t => t.toString.toList := by
    rw [List.map_map]
    refine List.map_congr_left fun t ht => ?_
    obtain ⟨part, -, hread⟩ := hparts t ht
    exact Term.trim_toString (Term.wellFormed_of_ofTrimmed hread)
  have hbars : ∀ part ∈ p.terms.map (fun t => t.toString.toList), Text.NoBars part := by
    rw [List.forall_mem_map]
    intro t ht
    obtain ⟨part, hpart, hread⟩ := hparts t ht
    exact Term.noBars_toString ((Text.noBars_of_mem_split part hpart).of_isInfix (Text.isInfix_trim part))
      hread
  have hprinted : p.toString.toList =
      [' ', '|', '|', ' '].intercalate (p.terms.map fun t => t.toString.toList) := by
    rw [Predicate.toString, String.toList_intercalate, List.map_map]
    rfl
  have hcut := Text.map_trim_splitAlternatives (by simpa using hne) hbars
  calc readTerms p.toString.toList
      = ((Text.splitAlternatives p.toString.toList).map Text.trim).mapM Term.ofTrimmed := by
        rw [List.mapM_map]
        rfl
    _ = (p.terms.map fun t => t.toString.toList).mapM Term.ofTrimmed := by
        rw [hprinted, hcut, htrim]
    _ = p.terms.mapM fun t => Term.ofTrimmed t.toString.toList := by
        rw [List.mapM_map]
        rfl

/-- **A predicate is read back when its terms are.** -/
theorem parse_toString {s : String} {p : Predicate} (h : parse s = .ok p)
    (hback : ∀ t ∈ p.terms, t.ReadsBack) : parse p.toString = .ok p := by
  have hread := parse_eq_ok_iff.1 h
  rw [parse_eq_ok_iff, readTerms_toString hread, Text.mapM_eq_ok_iff, List.forall₂_same]
  intro t ht
  obtain ⟨part, -, hpart⟩ := (exists_of_readTerms hread).2 t ht
  exact Term.ofTrimmed_toString (Term.wellFormed_of_ofTrimmed hpart) (hback t ht)

/-- **And not otherwise**, not even as the same one. -/
theorem readsBack_of_parse_toString {s : String} {p q : Predicate} (h : parse s = .ok p)
    (hq : parse p.toString = .ok q) (hsame : q.sameAs p = true) : ∀ t ∈ p.terms, t.ReadsBack := by
  rw [parse_eq_ok_iff, readTerms_toString (parse_eq_ok_iff.1 h), Text.mapM_eq_ok_iff] at hq
  intro t ht
  obtain ⟨i, hi, rfl⟩ := List.getElem_of_mem ht
  have hi' : i < q.terms.length := hq.length_eq ▸ hi
  exact Term.readsBack_of_sameAs (hq.get hi hi') ((sameAs_iff.1 hsame).get hi' hi)

/-- **A predicate that was read is read back from what is printed, unless it has an exact term whose
text reads as another term.**  Without such a term it is read back as it was.  With one it is not
read at all, or as another predicate, though with as many terms.  Such a term was written with a
`=` in front: where no alternative starts with `=`, every predicate is read back. -/
theorem printed_reads_back_iff {s : String} {p : Predicate} (h : parse s = .ok p) :
    (parse p.toString = .ok p ↔ ∀ t ∈ p.terms, t.ReadsBack) ∧
    ((∃ q, parse p.toString = .ok q ∧ q.sameAs p = true) ↔ ∀ t ∈ p.terms, t.ReadsBack) ∧
    (∀ q, parse p.toString = .ok q → q.terms.length = p.terms.length) ∧
    ((∀ part ∈ Text.splitAlternatives s.toList, (Text.trim part).head? ≠ some '=') →
      ∀ t ∈ p.terms, t.ReadsBack) := by
  refine ⟨⟨fun hp => readsBack_of_parse_toString h hp p.sameAs_self, parse_toString h⟩, ⟨?_, ?_⟩, ?_, ?_⟩
  · rintro ⟨q, hq, hsame⟩
    exact readsBack_of_parse_toString h hq hsame
  · exact fun hback => ⟨p, parse_toString h hback, p.sameAs_self⟩
  · intro q hq
    rw [parse_eq_ok_iff, readTerms_toString (parse_eq_ok_iff.1 h), Text.mapM_eq_ok_iff] at hq
    exact hq.length_eq.symm
  · intro hequals t ht
    obtain ⟨part, hpart, hread⟩ := (exists_of_readTerms (parse_eq_ok_iff.1 h)).2 t ht
    exact Term.readsBack_of_head hread (hequals part hpart)

/-- One version with the text of a range, and all versions from another one on. -/
def exactRangeText : Predicate := ⟨[.exact (.verbatim "^1"), .greaterOrEqual (.ofComponents [2, 0])]⟩

/-- The exact term about a text that reads as a range is printed as that range, and read back as it.
-/
theorem printed_reads_back_iff_exactRangeText :
    parse "=^1 || >= 2.0" = .ok exactRangeText ∧ exactRangeText.toString = "^1 || >=2.0" ∧
    parse "^1 || >=2.0" =
      .ok ⟨[.sameMajor (.ofComponents [1]), .greaterOrEqual (.ofComponents [2, 0])]⟩ ∧
    ¬ ∃ q, parse exactRangeText.toString = .ok q ∧ q.sameAs exactRangeText = true := by
  have hread : parse "=^1 || >= 2.0" = .ok exactRangeText := by decide +kernel
  obtain ⟨-, hiff, -, -⟩ := printed_reads_back_iff hread
  refine ⟨hread, by decide +kernel, by decide +kernel, fun hq => ?_⟩
  have hbare : Term.IsBare "^1".toList := hiff.1 hq _ (List.mem_cons_self ..)
  exact absurd hbare.2.2 (by decide)

end Predicate
end Loadout
