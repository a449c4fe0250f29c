/-
# Discovery as tasks

The walk of discovery is made of two kinds of *tasks*: to make one visit, and to unpack one mod.  A
task that is done leads to others, which can be done at any time later.  What a target is read as
does not depend on what has been found (`Discovery.mod?`), and neither does what a mod has in it
(`FoundMod.inner`); a visit changes the store by one insert at most, and only a mod that got a
number of its own is to be unpacked (`Discovery.Visited`).

Errors and what is skipped only become more, so where there are none in the end, each task went
well (`Findings.Clean`).
-/

import Loadout.Discovery.Outcome
import Mathlib.Data.List.Basic

namespace Loadout

/-- No errors, and nothing that was passed over. -/
def Findings.Clean (f : Findings) : Prop := f.errors = [] ∧ f.skipped = []

/-- The keys of places that were visited, with that of a visit to what a source yields. -/
def Visit.mark (v : Visit) (seen : List String) : List String :=
  if v.parent?.isNone then v.target.key :: seen else seen

namespace Discovery

/-- The target that an entry of a container is, if it can be read. -/
def Setting.target? (w : Setting) (c : Container) (entry : String) : Option Target :=
  match w.nestedBytes c entry with
  | .error _ => none
  | .ok bytes =>
    let hash := ContentHash.ofBytes bytes
    some (.nested (ArchiveStore.nameFor (Path.fileName entry) hash) entry hash bytes)

/-- What a target is read as, if it is a mod. -/
def mod? (w : Setting) (t : Target) : Option FoundMod := (read w {} t).2

/-- The targets in a mod that can be read. -/
def inner (w : Setting) (m : FoundMod) : List Target :=
  match m.container? with
  | none => []
  | some c => m.descriptor.nested.filterMap (w.target? c)

/-- Something to be done. -/
inductive Task where
  | visit (v : Visit)
  | unpack (o : Opened)

/-- Does one thing, and yields what is to be done next. -/
def Task.run (w : Setting) (f : Findings) : Task → Findings × List Task
  | .visit v => (Discovery.visit w f v).map id fun o => o.toList.map .unpack
  | .unpack o => (Discovery.unpack w f o).map id (·.map .visit)

/-! ### Reading -/

/-- **Findings that differ in what went wrong only**, of which there is no less. -/
structure Keeps (f g : Findings) : Prop where
  store : g.store = f.store
  seen : g.seen = f.seen
  clean : g.Clean → f.Clean

/-- Findings that did not change are kept. -/
theorem Keeps.refl (f : Findings) : Keeps f f := ⟨rfl, rfl, id⟩

/-- What is kept twice is kept. -/
theorem Keeps.trans {f g h : Findings} (hfg : Keeps f g) (hgh : Keeps g h) : Keeps f h :=
  ⟨hgh.store.trans hfg.store, hgh.seen.trans hfg.seen, hfg.clean ∘ hgh.clean⟩

/-- Passing a place over keeps the store and the places that were seen. -/
theorem keeps_skip (f : Findings) (location reason : String) : Keeps f (f.skip location reason) :=
  ⟨rfl, rfl, fun h => absurd h.2 (by simp [Findings.skip])⟩

/-- Findings with a place that was passed over are not clean. -/
theorem not_clean_skip (f : Findings) (location reason : String) :
    ¬ (f.skip location reason).Clean := fun h => absurd h.2 (by simp [Findings.skip])

/-- Findings with an error are not clean. -/
theorem not_clean_fail (f : Findings) (e : ConfigError) : ¬ (f.fail e).Clean := fun h =>
  absurd h.1 (by simp [Findings.fail])

/-- Further errors do not make findings clean. -/
theorem not_clean_foldl_fail : ∀ (errors : List ConfigError) {f : Findings}, ¬ f.Clean →
    ¬ (errors.foldl Findings.fail f).Clean
  | [], _, h => h
  | e :: errors, f, _ => not_clean_foldl_fail errors (not_clean_fail f e)

/-- What loading yields as a mod does not depend on the findings that take note of it. -/
theorem record_snd (f g : Findings) (place : String) (locate : Container → Location)
    (loaded : Except LoadError Loaded) :
    (record f place locate loaded).2 = (record g place locate loaded).2 := by
  rcases loaded with (_ | _) | (_ | _ | _) <;> rfl

/-- Taking note of what loading yields keeps the store and the places that were seen. -/
theorem keeps_record (f : Findings) (place : String) (locate : Container → Location)
    (loaded : Except LoadError Loaded) : Keeps f (record f place locate loaded).1 := by
  rcases loaded with (_ | _) | (_ | _ | _)
  · exact keeps_skip f _ _
  · exact ⟨rfl, rfl, fun h => absurd h (not_clean_fail f _)⟩
  · exact Keeps.refl f
  · exact ⟨rfl, rfl, id⟩
  · exact ⟨rfl, rfl, id⟩

/-- **What a target is read as does not depend on what has been found.** -/
theorem read_snd (w : Setting) (f : Findings) (t : Target) : (read w f t).2 = mod? w t := by
  cases t with
  | builtin d => rfl
  | path p => exact record_snd ..
  | nested name entry hash bytes => exact record_snd ..

/-- Reading a target keeps the store and the places that were seen. -/
theorem keeps_read (w : Setting) (f : Findings) (t : Target) : Keeps f (read w f t).1 := by
  cases t with
  | builtin d => exact Keeps.refl f
  | path p => exact keeps_record ..
  | nested name entry hash bytes => exact keeps_record ..

/-! ### Visits -/

section Visits

variable {w : Setting} {f : Findings} {v : Visit} {m : FoundMod} {outcome : Outcome} {o : Opened}

/-- The mod that is to be unpacked once a visit has led to an outcome. -/
def opened? (v : Visit) (m : FoundMod) : Outcome → Option Opened
  | .inserted id => m.container?.bind fun container =>
      if m.descriptor.nested.isEmpty then none
      else some { id, container, location := m.location.toString, nested := m.descriptor.nested,
                  chain := v.ancestors ++ [v.target.key], remap := v.remap }
  | _ => none

/-- What is to be unpacked has a number of its own, and is the container that was read. -/
theorem of_opened? (h : opened? v m outcome = some o) : outcome = .inserted o.id ∧
    m.container? = some o.container ∧ o.nested = m.descriptor.nested := by
  cases outcome with
  | inserted id =>
      obtain ⟨container, hcontainer, ho⟩ := Option.bind_eq_some_iff.1 h
      split at ho
      · exact absurd ho (by simp)
      · obtain rfl := Option.some.inj ho
        exact ⟨rfl, hcontainer, rfl⟩
  | replaced id => exact absurd h (by simp [opened?])
  | duplicate id => exact absurd h (by simp [opened?])

/-- A new mod that is not to be unpacked has nothing in it. -/
theorem inner_of_opened?_eq_none (h : opened? v m outcome = none) (hnew : outcome.isInserted = true) :
    inner w m = [] := by
  cases outcome with
  | inserted id =>
      rw [inner]
      cases hcontainer : m.container? with
      | none => rfl
      | some container =>
          rw [opened?, hcontainer, Option.bind_some] at h
          split at h
          · rename_i hempty
            rw [List.isEmpty_iff.1 hempty]
            rfl
          · exact absurd h (by simp)
  | replaced id => exact absurd hnew (by simp [Outcome.isInserted])
  | duplicate id => exact absurd hnew (by simp [Outcome.isInserted])

/-- Taking in a valid mod that the store admits changes the store alone. -/
theorem take_eq {store : Store} (hvalid : m.descriptor.identifierErrors m.location.toString = [])
    (hinsert : f.store.insert ⟨m.descriptor, m.location, v.parent?, v.remap⟩ = .ok (store, outcome)) :
    take f v m = ({ f with store }, opened? v m outcome) := by
  simp only [take, hvalid, hinsert]
  cases outcome with
  | inserted id =>
      cases hcontainer : m.container? with
      | none => simp [opened?, hcontainer]
      | some container => by_cases hempty : m.descriptor.nested.isEmpty <;>
          simp [opened?, hcontainer, hempty]
  | replaced id => rfl
  | duplicate id => rfl

/-- If all is well after a mod was taken in, it was before, and there was an insert. -/
theorem take_of_clean (h : (take f v m).1.Clean) : f.Clean ∧ ∃ store outcome,
    f.store.insert ⟨m.descriptor, m.location, v.parent?, v.remap⟩ = .ok (store, outcome) ∧
    take f v m = ({ f with store }, opened? v m outcome) := by
  cases hvalid : m.descriptor.identifierErrors m.location.toString with
  | cons e errors =>
      simp only [take, hvalid, List.foldl_cons] at h
      exact absurd h (not_clean_foldl_fail errors (not_clean_fail f e))
  | nil =>
      cases hinsert : f.store.insert ⟨m.descriptor, m.location, v.parent?, v.remap⟩ with
      | error e =>
          simp only [take, hvalid, hinsert] at h
          exact absurd h (not_clean_fail f e)
      | ok r =>
          rw [take_eq hvalid hinsert] at h
          exact ⟨h, r.1, r.2, rfl, take_eq hvalid hinsert⟩

/-- What is to be unpacked after a mod was taken in is that mod. -/
theorem of_take (h : (take f v m).2 = some o) :
    m.container? = some o.container ∧ o.nested = m.descriptor.nested := by
  cases hvalid : m.descriptor.identifierErrors m.location.toString with
  | cons e errors => simp [take, hvalid] at h
  | nil =>
      cases hinsert : f.store.insert ⟨m.descriptor, m.location, v.parent?, v.remap⟩ with
      | error e => simp [take, hvalid, hinsert] at h
      | ok r =>
          rw [take_eq hvalid hinsert] at h
          exact (of_opened? h).2

/-- **What a visit can do**, if it goes well. -/
inductive Visited (w : Setting) (f : Findings) (v : Visit) : Findings → Option Opened → Prop where
  /-- A source has yielded the place before. -/
  | again (source : v.parent? = none) (seen : v.target.key ∈ f.seen) : Visited w f v f none
  /-- The target is no mod. -/
  | noMod {g : Findings} (noMod : mod? w v.target = none) (store : g.store = f.store)
      (seen : g.seen = v.mark f.seen) : Visited w f v g none
  /-- The mod is taken into the store, and is to be unpacked if it got a number of its own. -/
  | took {g : Findings} {m : FoundMod} {outcome : Outcome} (isMod : mod? w v.target = some m)
      (insert : f.store.insert ⟨m.descriptor, m.location, v.parent?, v.remap⟩ =
        .ok (g.store, outcome))
      (seen : g.seen = v.mark f.seen) : Visited w f v g (opened? v m outcome)

/-- Reads the target of a visit and takes in what it is read as. -/
def enter (w : Setting) (f : Findings) (v : Visit) : Findings × Option Opened :=
  match mod? w v.target with
  | none => ((read w f v.target).1, none)
  | some m => take (read w f v.target).1 v m

/-- A visit is cut short by an archive that contains itself and by a place that was seen. -/
theorem visit_eq (w : Setting) (f : Findings) (v : Visit) : visit w f v =
    if v.ancestors.contains v.target.key then (f.skip v.target.key "archive contains itself", none)
    else if v.parent?.isNone && f.seen.contains v.target.key then (f, none)
    else enter w { f with seen := v.mark f.seen } v := by
  have hmark : (if v.parent?.isNone then { f with seen := v.target.key :: f.seen } else f) =
      { f with seen := v.mark f.seen } := by
    rw [Visit.mark]
    split <;> rfl
  simp only [visit, hmark, enter, ← read_snd w { f with seen := v.mark f.seen }]
  rcases read w { f with seen := v.mark f.seen } v.target with ⟨g, _ | m⟩ <;> rfl

/-- **A visit that goes well** is one of the three kinds. -/
theorem visited_of_clean (h : (visit w f v).1.Clean) :
    f.Clean ∧ Visited w f v (visit w f v).1 (visit w f v).2 := by
  rw [visit_eq] at h ⊢
  split at h
  · exact absurd h (not_clean_skip f _ _)
  rename_i hancestor
  rw [if_neg hancestor]
  split at h
  · rename_i hagain
    rw [if_pos hagain]
    simp only [Bool.and_eq_true, Option.isNone_iff_eq_none, List.contains_iff_mem] at hagain
    exact ⟨h, .again hagain.1 hagain.2⟩
  rename_i hagain
  rw [if_neg hagain]
  have hread := keeps_read w { f with seen := v.mark f.seen } v.target
  cases hmod : mod? w v.target with
  | none =>
      simp only [enter, hmod] at h ⊢
      exact ⟨hread.clean h, .noMod hmod hread.store hread.seen⟩
  | some m =>
      simp only [enter, hmod] at h ⊢
      obtain ⟨hclean, store, outcome, hinsert, heq⟩ := take_of_clean h
      rw [heq]
      rw [hread.store] at hinsert
      exact ⟨hread.clean hclean, .took hmod hinsert hread.seen⟩

end Visits

/-! ### Unpacking -/

section Unpacking

variable {w : Setting} {f : Findings} {o : Opened}

/-- The first step over a list, and then the others. -/
theorem through_cons {σ α β : Type} (step : σ → α → σ × List β) (a : α) (l : List α) (s : σ) :
    through step s (a :: l) = ((through step (step s a).1 l).1,
      (step s a).2 ++ (through step (step s a).1 l).2) := rfl

/-- Where what a step leads to does not depend on the state, neither does what all of them lead to.
-/
theorem through_snd {σ α β : Type} {step : σ → α → σ × List β} {out : α → List β}
    (h : ∀ s a, (step s a).2 = out a) : ∀ (l : List α) (s : σ), (through step s l).2 = l.flatMap out
  | [], _ => rfl
  | a :: l, s => by rw [through_cons, List.flatMap_cons, ← h s a, ← through_snd h l]

/-- Steps that keep the findings keep them over a list. -/
theorem keeps_through {α β : Type} {step : Findings → α → Findings × List β}
    (h : ∀ f a, Keeps f (step f a).1) : ∀ (l : List α) (f : Findings), Keeps f (through step f l).1
  | [], f => Keeps.refl f
  | a :: l, f => (h f a).trans (keeps_through h l _)

/-- The visit to an entry of a mod. -/
def visitTo (o : Opened) (t : Target) : Visit :=
  { target := t, parent? := some o.id, ancestors := o.chain, remap := o.remap }

/-- What unpacking an entry leads to is a visit to the target that the entry is. -/
theorem unpackEntry_snd (w : Setting) (o : Opened) (f : Findings) (entry : String) :
    (unpackEntry w o f entry).2 = (w.target? o.container entry).map (visitTo o) := by
  rw [unpackEntry, Setting.target?]
  cases w.nestedBytes o.container entry <;> rfl

/-- Unpacking an entry keeps the store and the places that were seen. -/
theorem keeps_unpackEntry (w : Setting) (o : Opened) (f : Findings) (entry : String) :
    Keeps f (unpackEntry w o f entry).1 := by
  rw [unpackEntry]
  cases w.nestedBytes o.container entry with
  | error fault => exact keeps_skip f _ _
  | ok bytes => exact ⟨rfl, rfl, id⟩

/-- **What is in a mod does not depend on what has been found.** -/
theorem unpack_snd (w : Setting) (f : Findings) (o : Opened) :
    (unpack w f o).2 = (o.nested.filterMap (w.target? o.container)).map (visitTo o) := by
  rw [unpack, through_snd (fun f entry => congrArg Option.toList (unpackEntry_snd w o f entry)),
    List.map_filterMap, List.filterMap_eq_flatMap_toList]

/-- Unpacking a mod keeps the store and the places that were seen. -/
theorem keeps_unpack (w : Setting) (f : Findings) (o : Opened) : Keeps f (unpack w f o).1 :=
  keeps_through (fun f entry => keeps_unpackEntry w o f entry) _ _

end Unpacking

end Discovery
end Loadout
