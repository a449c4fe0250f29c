/-
# Alternatives in a list and in one text

The alternatives of a predicate are given as a list, each perhaps with bars of its own, or as one
text with ` || ` between them.  The text is cut where the alternatives are, however many bars and
blanks they start and end with (`Text.map_trim_splitAlternatives_intercalate`), so it has their
terms (`Predicate.readTerms_joined`), and where one of them cannot be read neither can the text, for
the same reason (`Predicate.listed_and_joined_alike`).
-/

import Loadout.Proofs.Version.Predicate

namespace Loadout
namespace Predicate

/-- The alternatives of a list in one text. -/
def joined (alternatives : List String) : String := String.intercalate " || " alternatives

/-- **The terms of the one text** are those of the alternatives, one after the other. -/
theorem readTerms_joined {alternatives : List String} (h : alternatives ≠ []) :
    readTerms (joined alternatives).toList =
      (alternatives.mapM fun alternative => readTerms alternative.toList).map List.flatten := by
  have htext : (joined alternatives).toList =
      [' ', '|', '|', ' '].intercalate (alternatives.map String.toList) := by
    rw [joined, String.toList_intercalate]
    rfl
  have hcut := Text.map_trim_splitAlternatives_intercalate
    (show alternatives.map String.toList ≠ [] by simpa using h)
  calc readTerms (joined alternatives).toList
      = ((Text.splitAlternatives (joined alternatives).toList).map Text.trim).mapM Term.ofTrimmed := by
        rw [List.mapM_map]
        rfl
    _ = (alternatives.flatMap fun alternative =>
          (Text.splitAlternatives alternative.toList).map Text.trim).mapM Term.ofTrimmed := by
        rw [htext, hcut, List.flatMap_map]
    _ = (alternatives.mapM fun alternative => readTerms alternative.toList).map List.flatten := by
        rw [Text.mapM_flatMap]
        simp only [List.mapM_map]
        rfl

/-- A text may be cut at its bars or at its separators with the blanks around them. -/
theorem readTerms_eq_mapM_splitSeparators (s : List Char) :
    readTerms s = (Text.splitSeparators (Text.trim s)).mapM fun piece =>
      Term.ofTrimmed (Text.trim piece) := by
  have hcut := congrArg (·.mapM Term.ofTrimmed) (Text.map_trim_splitSeparators s)
  simp only [List.mapM_map] at hcut
  exact hcut.symm

/-- Alternatives are read when their terms are. -/
theorem mapM_parse_of_ok {alternatives : List String} {termLists : List (List Term)}
    (h : (alternatives.mapM fun alternative => readTerms alternative.toList) = .ok termLists) :
    alternatives.mapM parse = .ok (termLists.map Predicate.mk) := by
  rw [Text.mapM_eq_ok_iff] at h ⊢
  rw [List.forall₂_map_right_iff]
  exact h.imp fun alternative terms hterms => parse_eq_ok_iff.2 hterms

/-- The first alternative with terms that cannot be read is the first that cannot. -/
theorem mapM_parse_of_error {alternatives : List String} {fault : TermFault}
    (h : (alternatives.mapM fun alternative => readTerms alternative.toList) = .error fault) :
    ∃ text ∈ alternatives, alternatives.mapM parse = .error (.invalidPredicate text fault) := by
  induction alternatives with
  | nil => cases h
  | cons alternative rest ih =>
    rw [List.mapM_cons] at h
    cases hterms : readTerms alternative.toList with
    | error other =>
      rw [hterms] at h
      obtain rfl : other = fault := Except.error.inj h
      exact ⟨alternative, List.mem_cons_self .., by rw [List.mapM_cons, parse, hterms]; rfl⟩
    | ok terms =>
      rw [hterms] at h
      cases hrest : rest.mapM fun alternative => readTerms alternative.toList with
      | ok termLists => rw [hrest] at h; cases h
      | error other =>
        rw [hrest] at h
        obtain rfl : other = fault := Except.error.inj h
        obtain ⟨text, htext, hparse⟩ := ih hrest
        refine ⟨text, List.mem_cons_of_mem _ htext, ?_⟩
        rw [List.mapM_cons, hparse, parse_eq_ok_iff.2 hterms]
        rfl

/-- **A list of alternatives is read when the one text is**, with the same terms; else both fail, the
list at one of its alternatives. -/
theorem parseAll_eq {alternatives : List String} (h : alternatives ≠ []) :
    (∃ p, parseAll alternatives = .ok p ∧ parse (joined alternatives) = .ok p) ∨
      ∃ fault, (∃ text ∈ alternatives,
        parseAll alternatives = .error (.invalidPredicate text fault)) ∧
        parse (joined alternatives) = .error (.invalidPredicate (joined alternatives) fault) := by
  have hjoined := readTerms_joined h
  cases hterms : alternatives.mapM fun alternative => readTerms alternative.toList with
  | error fault =>
    rw [hterms] at hjoined
    obtain ⟨text, htext, hparse⟩ := mapM_parse_of_error hterms
    refine .inr ⟨fault, ⟨text, htext, ?_⟩, ?_⟩
    · rw [parseAll, hparse]
      rfl
    · rw [parse, hjoined]
      rfl
  | ok termLists =>
    rw [hterms] at hjoined
    have hread : readTerms (joined alternatives).toList = .ok termLists.flatten := hjoined
    have hne : termLists.flatten.isEmpty = false :=
      List.isEmpty_eq_false_iff.2 (exists_of_readTerms hread).1
    refine .inl ⟨⟨termLists.flatten⟩, ?_, parse_eq_ok_iff.2 hread⟩
    rw [parseAll, mapM_parse_of_ok hterms]
    change ofTerms ((termLists.map Predicate.mk).flatMap Predicate.terms) = _
    rw [List.flatMap_map, List.flatMap_id', ofTerms, hne]
    rfl

/-- **The two notations agree.**  Alternatives are read as a list just where they are as one text with
` || ` between them, and as the same terms in the same order; where they are not, the fault is the
same, though each error names the text that was being read.  Here the one text may as well be cut
at its separators together with the blanks around them. -/
theorem listed_and_joined_alike {alternatives : List String} (h : alternatives ≠ []) :
    (∀ p, parseAll alternatives = .ok p ↔ parse (joined alternatives) = .ok p) ∧
    (∀ fault, (∃ text ∈ alternatives,
        parseAll alternatives = .error (.invalidPredicate text fault)) ↔
      parse (joined alternatives) = .error (.invalidPredicate (joined alternatives) fault)) ∧
    readTerms (joined alternatives).toList =
      (Text.splitSeparators (Text.trim (joined alternatives).toList)).mapM fun piece =>
        Term.ofTrimmed (Text.trim piece) := by
  refine ⟨fun p => ?_, fun fault => ?_, ?_⟩
  · rcases parseAll_eq h with ⟨q, hlist, htext⟩ | ⟨fault, ⟨_, -, hlist⟩, htext⟩ <;> simp [hlist, htext]
  · rcases parseAll_eq h with ⟨q, hlist, htext⟩ | ⟨other, ⟨text, hin, hlist⟩, htext⟩ <;>
      simp only [hlist, htext, reduceCtorEq, and_false, exists_false, Except.error.injEq,
        VersionError.invalidPredicate.injEq, true_and]
    exact ⟨fun ⟨_, _, _, hfault⟩ => hfault, fun hfault => ⟨text, hin, rfl, hfault⟩⟩
  · exact readTerms_eq_mapM_splitSeparators _

/-- Alternatives with bars and blanks at their ends, one of them with bars of its own. -/
def barredAlternatives : List String := ["1.0||| ", "\t~1.2 ", "| "]

/-- Bars and blanks at the ends of alternatives leave the same terms and the same error. -/
theorem listed_and_joined_alike_barredAlternatives :
    barredAlternatives ≠ [] ∧ joined barredAlternatives = "1.0|||  || \t~1.2  || | " ∧
    parse (joined barredAlternatives) = .ok ⟨[.exact (.ofComponents [1, 0]), .exact (.verbatim "|"),
      .sameMinor (.ofComponents [1, 2]), .exact (.verbatim "|")]⟩ ∧
    ["1.0||", "2.0"] ≠ [] ∧
    parse "1.0|| || 2.0" = .error (.invalidPredicate "1.0|| || 2.0" .emptyTerm) := by
  obtain ⟨hread, -, -⟩ := listed_and_joined_alike (show barredAlternatives ≠ [] by decide)
  obtain ⟨-, hfault, -⟩ := listed_and_joined_alike (show ["1.0||", "2.0"] ≠ [] by decide)
  refine ⟨by decide, by decide +kernel, (hread _).1 (by decide +kernel), by decide, ?_⟩
  exact (hfault .emptyTerm).1 ⟨"1.0||", List.mem_cons_self .., by decide +kernel⟩

end Predicate
end Loadout
