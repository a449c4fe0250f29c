/-
# Exceptions

To explain a failure dependencies may be waived, and to repair mods stand-ins may be added and
roots removed (`Choice.isException`).  An instance that allows for this has more rules, or rules
with more literals.  But where no exception is made it says what every other instance over the same
candidates says: choices that obey one obey the others, once every recommended target is given up
(`Instance.Obeys.plain`).
-/

import Loadout.Proofs.Selection.Choices

namespace Loadout

/-- Whether a choice makes an exception: it waives a dependency, adds a stand-in or removes a
root. -/
def Choice.isException : Choice → Bool
  | .candidate _ | .unmet _ => false
  | .waived _ _ | .added _ | .removed _ => true

namespace Instance

variable {i : Instance} {w : Choice → Bool} {made : List Choice}

/-- **Which exceptions come up**: none for selecting, waivers for explaining, and additions and
removals for repairing. -/
theorem Occurs.isException_cases {c : Choice} (h : i.Occurs c) (hexception : c.isException = true) :
    (i.purpose = .explain ∧ ∃ source index, c = .waived source index) ∨
      (i.purpose.isRepair = true ∧ ((∃ n, c = .added n) ∨ ∃ id, c = .removed id)) := by
  cases c with
  | candidate id => exact absurd hexception Bool.false_ne_true
  | unmet target => exact absurd hexception Bool.false_ne_true
  | waived source index => exact Or.inl ⟨h.1, source, index, rfl⟩
  | added n =>
      refine Or.inr ⟨?_, Or.inl ⟨n, rfl⟩⟩
      have hlt : n < i.standIns.length := h
      rw [standIns] at hlt
      split at hlt
      · rename_i hpurpose
        rw [hpurpose]
        rfl
      · exact absurd hlt (Nat.not_lt_zero n)
  | removed id => exact Or.inr ⟨h.1, Or.inr ⟨id, rfl⟩⟩

/-- The same candidates, with every target given up and no exception made. -/
def plain (w : Choice → Bool) : Choice → Bool
  | .candidate id => w (.candidate id)
  | .unmet _ => true
  | .waived _ _ | .added _ | .removed _ => false

/-- Where no stand-in is added, what is taken are candidates. -/
theorem mem_records_of_taken (hnone : ∀ n, w (.added n) = false) {o : Offer} (ho : o ∈ i.offers)
    (hw : w o.choice = true) : ∃ c ∈ i.store.records, Offer.ofCandidate c = o := by
  rcases mem_offers.1 ho with hc | ⟨a, n, -, rfl⟩
  · exact hc
  · exact absurd ((hnone n).symm.trans hw) Bool.false_ne_true

/-- **Choices without exceptions obey every instance** over the same candidates that they obey one
of, once every target is given up. -/
theorem Obeys.plain (h : i.Obeys w) (hnone : ∀ c, c.isException = true → w c = false)
    (purpose : Purpose) : ({ i with purpose } : Instance).Obeys (plain w) := by
  have hwaives : ∀ source index, ¬i.Waives w source index := fun source index hw =>
    absurd ((hnone (.waived source index) rfl).symm.trans hw.2) Bool.false_ne_true
  have hdrops : ∀ c, ¬i.Drops w c := fun c hdrop =>
    absurd ((hnone (.removed c.id) rfl).symm.trans hdrop.2.2) Bool.false_ne_true
  -- an offer that is taken is one of any instance, and is taken there
  have htaken : ∀ {P : Offer → Prop}, (∃ o ∈ i.offers, P o ∧ w o.choice = true) →
      ∃ o ∈ ({ i with purpose } : Instance).offers, P o ∧ Instance.plain w o.choice = true := by
    rintro P ⟨o, ho, hP, hw⟩
    obtain ⟨c, hc, rfl⟩ := mem_records_of_taken (fun n => hnone (.added n) rfl) ho hw
    exact ⟨_, ofCandidate_mem_offers hc, hP, hw⟩
  have hprovided : ∀ {key : String}, (∃ o ∈ i.offers, w o.choice = true ∧ o.provides key = true) →
      ∃ o ∈ ({ i with purpose } : Instance).offers,
        Instance.plain w o.choice = true ∧ o.provides key = true := by
    rintro key ⟨o, ho, hw, hp⟩
    obtain ⟨o, ho, hp, hw⟩ := htaken (P := fun o => o.provides key = true) ⟨o, ho, hp, hw⟩
    exact ⟨o, ho, hw, hp⟩
  have hback : ∀ {o : Offer}, o ∈ ({ i with purpose } : Instance).offers →
      Instance.plain w o.choice = true → o ∈ i.offers ∧ w o.choice = true := by
    intro o ho hw
    obtain ⟨c, hc, rfl⟩ := mem_records_of_taken (fun _ => rfl) ho hw
    exact ⟨ofCandidate_mem_offers hc, hw⟩
  exact {
    depends := fun c hc hs d index hd hr =>
      Or.inl (htaken ((h.depends c hc hs d index hd hr).resolve_right (hwaives _ _)))
    recommends := fun _ _ _ _ _ _ _ => Or.inr rfl
    breaks := fun c hc hs d index hd hr o ho hod hne hw =>
      absurd (h.breaks c hc hs d index hd hr o (hback ho hw).1 hod hne (hback ho hw).2)
        (hwaives _ _)
    single := fun a ha b hb haw hbw =>
      h.single a (hback ha haw).1 b (hback hb hbw).1 (hback ha haw).2 (hback hb hbw).2
    contained := h.contained
    root := fun c hc hr hl => Or.inl (hprovided ((h.root c hc hr hl).resolve_right (hdrops c)))
    dropped := fun _ _ _ _ hdrop => absurd hdrop.2.2 Bool.false_ne_true
    nested := fun c hc hr hl p hp hs => hprovided (h.nested c hc hr hl p hp hs)
    preselected := h.preselected }

/-- **So do choices that are made**, where none of them is an exception. -/
theorem Obeys.plain_contains (h : i.Obeys made.contains)
    (hnone : ∀ c ∈ made, c.isException = false) (purpose : Purpose) :
    ({ i with purpose } : Instance).Obeys (Instance.plain made.contains) := by
  refine h.plain (fun c hc => ?_) purpose
  rw [List.contains_eq_mem, decide_eq_false_iff_not]
  exact fun hmem => Bool.false_ne_true ((hnone c hmem).symm.trans hc)

end Instance
end Loadout
