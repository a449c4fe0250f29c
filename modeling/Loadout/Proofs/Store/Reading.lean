/-
# Reading ends, and the cache does not show

Content that is in no file and not in the archive store is read from what contains the candidate,
whose own content is read the same way, and all that is read on the way is cached.  `Store.Reads`
tells what reading comes to by a rule for each case, with no bound on the way up: there is a
reading where the way has an end.  In a store that inserts build it always has
(`Store.Ranked.reads_readContent`), as containers have smaller ranks; that the number of candidates
bounds the way in the program is never noticed.

The rules leave open what becomes of what was read.  The program keeps it, and where nothing is kept
they tell what an answer has to be (`Store.Yields`).  A cache that holds nothing but such answers
leads to nothing but such answers, and none but such are added to it (`Store.Reads.yields`), a fault
on the way included.  So however often content was read, evicted or cleared before, each answer is
the one that an empty cache leads to (`Store.cache_transparent`).
-/

import Loadout.Archive.Zip
import Loadout.Proofs.Store.Keep
import Loadout.Store.Content

namespace Loadout

/-- What is to be read: the content of a candidate, or an entry of the first one of some containers
that leads to anything. -/
inductive Wanted where
  | content (id : CandidateId)
  | entry (name : String) (containers : List Candidate)

/-- What is done with a cache: content is read by way of it, the bytes of one candidate are dropped,
or all are. -/
inductive CacheUse where
  | read (id : CandidateId)
  | evict (id : CandidateId)
  | clear
  deriving DecidableEq, Repr

/-- The candidate whose content is read. -/
def CacheUse.read? : CacheUse → Option CandidateId
  | read id => some id
  | evict _ | clear => none

/-- Keeping what was read does not change it. -/
theorem Reading.keep_fst (id : CandidateId) (r : Reading) : (r.keep id).1 = r.1 := by
  rcases r with ⟨_ | _ | _, _⟩ <;> rfl

namespace Store

variable {s : Store} {sh : Shelves} {hold : CandidateId → Reading → Reading} {wanted : Wanted}
  {cache : ByteCache} {r r' : Reading} {id : CandidateId} {entry : String}

/-- **Reading that comes to an end**, from a cache, with what it yields and the cache that is left.
`hold` is what becomes of what was read of a candidate. -/
inductive Reads (s : Store) (sh : Shelves) (hold : CandidateId → Reading → Reading) :
    Wanted → ByteCache → Reading → Prop
  | cached {id : CandidateId} {cache : ByteCache} {bytes : ByteArray}
    (hit : cache.get? id = some bytes) : Reads s sh hold (.content id) cache (.ok (some bytes), cache)
  | absent {id : CandidateId} {cache : ByteCache} (miss : cache.get? id = none)
    (hget : s.get? id = none) : Reads s sh hold (.content id) cache (.ok none, cache)
  | file {id : CandidateId} {cache : ByteCache} {c : Candidate} {path : String}
    (miss : cache.get? id = none) (hget : s.get? id = some c) (hc : c.location = .file path) :
    Reads s sh hold (.content id) cache (hold id ((sh.readFile path).map some, cache))
  | directory {id : CandidateId} {cache : ByteCache} {c : Candidate} {path : String}
    (miss : cache.get? id = none) (hget : s.get? id = some c) (hc : c.location = .directory path) :
    Reads s sh hold (.content id) cache (.ok none, cache)
  | builtin {id : CandidateId} {cache : ByteCache} {c : Candidate} {name : String}
    (miss : cache.get? id = none) (hget : s.get? id = some c) (hc : c.location = .builtin name) :
    Reads s sh hold (.content id) cache (.ok none, cache)
  | shelved {id : CandidateId} {cache : ByteCache} {c : Candidate} {name entry : String}
    {hash : ContentHash} {bytes : ByteArray} (miss : cache.get? id = none)
    (hget : s.get? id = some c) (hc : c.location = .stored name entry hash)
    (hin : sh.archives.get? name = some bytes) :
    Reads s sh hold (.content id) cache (hold id (.ok (some bytes), cache))
  /-- what is in no other place is read from what is around -/
  | inside {id : CandidateId} {cache : ByteCache} {c : Candidate} {name entry : String}
    {hash : ContentHash} {r : Reading} (miss : cache.get? id = none)
    (hget : s.get? id = some c) (hc : c.location = .stored name entry hash)
    (hout : sh.archives.get? name = none)
    (around : Reads s sh hold (.entry entry (s.containers c)) cache r) :
    Reads s sh hold (.content id) cache (hold id r)
  | nowhere {entry : String} {cache : ByteCache} :
    Reads s sh hold (.entry entry []) cache (.ok none, cache)
  | unpacked {entry : String} {cache : ByteCache} {c : Candidate} {rest : List Candidate}
    {path : String} (hc : c.location = .directory path)
    (hfile : sh.isFile (Path.join path entry) = true) :
    Reads s sh hold (.entry entry (c :: rest)) cache
      ((sh.readFile (Path.join path entry)).map some, cache)
  | unpackedWithout {entry : String} {cache : ByteCache} {c : Candidate} {rest : List Candidate}
    {path : String} {r : Reading} (hc : c.location = .directory path)
    (hfile : sh.isFile (Path.join path entry) = false)
    (others : Reads s sh hold (.entry entry rest) cache r) :
    Reads s sh hold (.entry entry (c :: rest)) cache r
  | opened {entry : String} {cache cache' : ByteCache} {c : Candidate} {rest : List Candidate}
    {archive : ByteArray} (hc : ∀ path, c.location ≠ .directory path)
    (container : Reads s sh hold (.content c.id) cache (.ok (some archive), cache')) :
    Reads s sh hold (.entry entry (c :: rest)) cache (sh.readEntry archive entry, cache')
  | without {entry : String} {cache cache' : ByteCache} {c : Candidate} {rest : List Candidate}
    {r : Reading} (hc : ∀ path, c.location ≠ .directory path)
    (container : Reads s sh hold (.content c.id) cache (.ok none, cache'))
    (others : Reads s sh hold (.entry entry rest) cache' r) :
    Reads s sh hold (.entry entry (c :: rest)) cache r
  | fault {entry : String} {cache cache' : ByteCache} {c : Candidate} {rest : List Candidate}
    {e : ReadFault} (hc : ∀ path, c.location ≠ .directory path)
    (container : Reads s sh hold (.content c.id) cache (.error e, cache')) :
    Reads s sh hold (.entry entry (c :: rest)) cache (.error e, cache')

/-- **Reading has one outcome.** -/
theorem Reads.unique (h : s.Reads sh hold wanted cache r) (h' : s.Reads sh hold wanted cache r') :
    r = r' := by
  induction h generalizing r' with
  | cached | absent | file | directory | builtin | shelved => cases h' <;> simp_all
  | inside miss hget hc hout _ ih =>
      cases h' with
      | inside _ hget' hc' _ around =>
          cases hget.symm.trans hget'
          cases hc.symm.trans hc'
          rw [ih around]
      | _ => simp_all
  | nowhere => cases h'; rfl
  | unpacked hc hfile => cases h' <;> simp_all
  | unpackedWithout hc hfile _ ih =>
      cases h' with
      | unpackedWithout _ _ others => exact ih others
      | _ => simp_all
  | opened hc _ ih =>
      cases h' with
      | unpacked hdir | unpackedWithout hdir => exact absurd hdir (hc _)
      | opened _ container => cases ih container; rfl
      | without _ container | fault _ container => cases ih container
  | without hc _ _ ih ihothers =>
      cases h' with
      | unpacked hdir | unpackedWithout hdir => exact absurd hdir (hc _)
      | without _ container others => cases ih container; exact ihothers others
      | opened _ container | fault _ container => cases ih container
  | fault hc _ ih =>
      cases h' with
      | unpacked hdir | unpackedWithout hdir => exact absurd hdir (hc _)
      | fault _ container => cases ih container; rfl
      | opened _ container | without _ container => cases ih container

/-! ### Reading ends -/

/-- Around a candidate are candidates of the store. -/
theorem mem_containers {c p : Candidate} (h : p ∈ s.containers c) :
    p ∈ s.records ∧ p.id ∈ c.parents :=
  mem_getAll (List.mem_mergeSort.1 h)

/-- Reading from containers follows the rules where reading each of them does. -/
theorem reads_readFrom {read : CandidateId → ByteCache → Reading} :
    ∀ {containers : List Candidate}, (∀ c ∈ containers, ∀ cache,
      s.Reads sh hold (.content c.id) cache (read c.id cache)) → ∀ cache,
        s.Reads sh hold (.entry entry containers) cache (readFrom sh entry read containers cache)
  | [], _, _ => .nowhere
  | c :: rest, hread, cache => by
      have hc := hread c List.mem_cons_self cache
      have hothers := reads_readFrom fun p hp => hread p (List.mem_cons_of_mem c hp)
      rw [readFrom]
      split
      · rename_i path hdir
        split
        · exact .unpacked hdir ‹_›
        · exact .unpackedWithout hdir (Bool.eq_false_iff.2 ‹_›) (hothers cache)
      · rename_i hpacked
        rcases hr : read c.id cache with ⟨e | _ | archive, cache'⟩ <;> rw [hr] at hc
        · exact .fault hpacked hc
        · exact .without hpacked hc (hothers cache')
        · exact .opened hpacked hc

/-- **Reading ends before the fuel does.**  The candidates on the way up are there once each, as
ranks get smaller. -/
theorem reads_readWithin {rank : CandidateId → Nat}
    (hrank : ∀ c ∈ s.records, ∀ p ∈ c.parents, rank p < rank c.id) :
    ∀ (fuel : Nat) (inside : List CandidateId) (id : CandidateId) (cache : ByteCache),
      inside.Nodup → inside ⊆ s.ids → (∀ x ∈ inside, rank id < rank x) →
      s.size < fuel + inside.length →
        s.Reads sh Reading.keep (.content id) cache (s.readWithin sh fuel id cache)
  | 0, inside, _, _, hnodup, hsub, _, hfuel => by
      have hlength := length_le_size hnodup hsub
      omega
  | fuel + 1, inside, id, cache, hnodup, hsub, hbelow, hfuel => by
      rw [readWithin]
      split
      · exact .cached ‹_›
      · exact .absent ‹_› ‹_›
      · rename_i c miss hget
        split
        · exact .file miss hget ‹_›
        · exact .directory miss hget ‹_›
        · exact .builtin miss hget ‹_›
        · rename_i name entry hash hc
          split
          · exact .shelved miss hget hc ‹_›
          · -- the candidate joins those on the way up, and what contains it ranks below them all
            obtain ⟨hmem, rfl⟩ := mem_of_get? hget
            have hout : c.id ∉ inside := fun hin => Nat.lt_irrefl _ (hbelow c.id hin)
            refine .inside miss hget hc ‹_› (reads_readFrom (fun p hp cache' => ?_) cache)
            have hlt := hrank c hmem p.id (mem_containers hp).2
            refine reads_readWithin hrank fuel (c.id :: inside) p.id cache'
              (List.nodup_cons.2 ⟨hout, hnodup⟩)
              (List.cons_subset.2 ⟨mem_ids.2 ⟨c, hmem, rfl⟩, hsub⟩) (fun x hx => ?_) ?_
            · rcases List.mem_cons.1 hx with rfl | hx
              · exact hlt
              · exact Nat.lt_trans hlt (hbelow x hx)
            · rw [List.length_cons]
              omega

/-- **Reading always ends** where containment has no cycles, with what the program reads. -/
theorem Ranked.reads_readContent (h : s.Ranked) (sh : Shelves) (id : CandidateId)
    (cache : ByteCache) : s.Reads sh Reading.keep (.content id) cache (s.readContent sh id cache) := by
  obtain ⟨rank, hrank⟩ := h
  exact reads_readWithin (fun c hc p hp => (hrank c hc p hp).2) _ [] id cache List.nodup_nil
    (List.nil_subset _) (fun x hx => absurd hx List.not_mem_nil) (Nat.lt_succ_self _)

/-! ### The cache does not show -/

/-- **What there is to read**: what reading comes to where nothing is kept. -/
def Yields (s : Store) (sh : Shelves) (wanted : Wanted) (answer : Except ReadFault (Option ByteArray)) :
    Prop :=
  s.Reads sh (fun _ r => r) wanted .empty (answer, .empty)

/-- A cache holds nothing but what there is to read. -/
def Faithful (s : Store) (sh : Shelves) (cache : ByteCache) : Prop :=
  ∀ id bytes, cache.get? id = some bytes → s.Yields sh (.content id) (.ok (some bytes))

/-- An empty cache is faithful. -/
theorem faithful_empty : s.Faithful sh .empty := fun _ _ hget => nomatch hget

/-- A faithful cache stays so when something is evicted. -/
theorem Faithful.evict (h : s.Faithful sh cache) (id : CandidateId) :
    s.Faithful sh (cache.evict id) := by
  intro other bytes hget
  rw [ByteCache.get?_evict_eq] at hget
  split at hget
  · exact nomatch hget
  · exact h other bytes hget

/-- A faithful cache stays so when the content of a candidate is inserted. -/
theorem Faithful.insert (h : s.Faithful sh cache) {bytes : ByteArray}
    (hyields : s.Yields sh (.content id) (.ok (some bytes))) :
    s.Faithful sh (cache.insert id bytes) := by
  intro other bytes' hget
  rw [ByteCache.get?_insert_eq] at hget
  split at hget
  · rename_i hother
    rwa [hother, ← Option.some.inj hget]
  · exact h other bytes' hget

/-- Keeping what there is to read changes no answer and leaves the cache faithful. -/
theorem Faithful.keep (h : s.Faithful sh r.2) (hyields : s.Yields sh (.content id) r.1) :
    s.Yields sh (.content id) (r.keep id).1 ∧ s.Faithful sh (r.keep id).2 := by
  refine ⟨by rwa [Reading.keep_fst], ?_⟩
  rcases r with ⟨e | _ | bytes, cache⟩
  · exact h
  · exact h
  · exact h.insert hyields

/-- **A faithful cache leads to what there is to read**, and stays faithful, whatever is read on the
way. -/
theorem Reads.yields (h : s.Reads sh Reading.keep wanted cache r) (hcache : s.Faithful sh cache) :
    s.Yields sh wanted r.1 ∧ s.Faithful sh r.2 := by
  induction h with
  | cached hit => exact ⟨hcache _ _ hit, hcache⟩
  | absent _ hget => exact ⟨.absent rfl hget, hcache⟩
  | file _ hget hc => exact Faithful.keep hcache (.file rfl hget hc)
  | directory _ hget hc => exact ⟨.directory rfl hget hc, hcache⟩
  | builtin _ hget hc => exact ⟨.builtin rfl hget hc, hcache⟩
  | shelved _ hget hc hin => exact Faithful.keep hcache (.shelved rfl hget hc hin)
  | inside _ hget hc hout _ ih =>
      obtain ⟨hyields, hfaithful⟩ := ih hcache
      exact hfaithful.keep (.inside rfl hget hc hout hyields)
  | nowhere => exact ⟨.nowhere, hcache⟩
  | unpacked hc hfile => exact ⟨.unpacked hc hfile, hcache⟩
  | unpackedWithout hc hfile _ ih =>
      obtain ⟨hyields, hfaithful⟩ := ih hcache
      exact ⟨.unpackedWithout hc hfile hyields, hfaithful⟩
  | opened hc _ ih =>
      obtain ⟨hyields, hfaithful⟩ := ih hcache
      exact ⟨.opened hc hyields, hfaithful⟩
  | without hc _ _ ih ihothers =>
      obtain ⟨hyields, hfaithful⟩ := ih hcache
      obtain ⟨hothers, hfaithful'⟩ := ihothers hfaithful
      exact ⟨.without hc hyields hothers, hfaithful'⟩
  | fault hc _ ih =>
      obtain ⟨hyields, hfaithful⟩ := ih hcache
      exact ⟨.fault hc hyields, hfaithful⟩

/-- **An answer by way of a faithful cache** is the one that an empty cache leads to. -/
theorem Ranked.readContent_fst (h : s.Ranked) (hcache : s.Faithful sh cache) (id : CandidateId) :
    (s.readContent sh id cache).1 = (s.readContent sh id .empty).1 := by
  have hyields := ((h.reads_readContent sh id cache).yields hcache).1
  have hafresh := ((h.reads_readContent sh id .empty).yields faithful_empty).1
  exact (Prod.mk.inj (hyields.unique hafresh)).1

/-- What comes of uses of a cache: an answer for each time that content is read. -/
def answers (s : Store) (sh : Shelves) :
    ByteCache → List CacheUse → List (Except ReadFault (Option ByteArray))
  | _, [] => []
  | cache, .read id :: uses =>
    (s.readContent sh id cache).1 :: s.answers sh (s.readContent sh id cache).2 uses
  | cache, .evict id :: uses => s.answers sh (cache.evict id) uses
  | _, .clear :: uses => s.answers sh .empty uses

/-- **A faithful cache answers as if nothing were kept.** -/
theorem Ranked.answers_eq (h : s.Ranked) : ∀ {uses : List CacheUse} {cache : ByteCache},
    s.Faithful sh cache → s.answers sh cache uses =
      (uses.filterMap CacheUse.read?).map fun id => (s.readContent sh id .empty).1
  | [], _, _ => rfl
  | .read id :: uses, cache, hcache => by
      have hleft := ((h.reads_readContent sh id cache).yields hcache).2
      rw [answers, h.readContent_fst hcache, h.answers_eq hleft]
      rfl
  | .evict id :: uses, cache, hcache => by
      rw [answers]
      exact h.answers_eq (hcache.evict id)
  | .clear :: uses, cache, _ => by
      rw [answers]
      exact h.answers_eq faithful_empty

/-- **The cache does not show, and reading ends**, whatever files and entries of archives are read as.
In a store that inserts build, with or without its depths computed anew, reading content comes to an
end from any cache, and to one end only; and however content is read, evicted and cleared, each
answer is the one that an empty cache leads to, be it bytes, nothing or a fault. -/
theorem cache_transparent (h : s.Prepared) (sh : Shelves) :
    (∀ id cache r, s.Reads sh Reading.keep (.content id) cache r ↔ r = s.readContent sh id cache) ∧
    ∀ uses, s.answers sh .empty uses =
      (uses.filterMap CacheUse.read?).map fun id => (s.readContent sh id .empty).1 := by
  refine ⟨fun id cache r => ⟨fun hr => ?_, ?_⟩, fun uses => h.ranked.answers_eq faithful_empty⟩
  · exact hr.unique (h.ranked.reads_readContent sh id cache)
  · rintro rfl
    exact h.ranked.reads_readContent sh id cache

/-- An archive with one entry `in.jar`, which is no archive. -/
def outerBytes : ByteArray := ⟨#[
  80, 75, 3, 4, 20, 0, 0, 0, 0, 0, 0, 0, 33, 0, 78, 142, 236, 95, 2, 0, 0, 0, 2, 0, 0, 0, 6, 0, 0,
  0, 105, 110, 46, 106, 97, 114, 105, 110, 80, 75, 1, 2, 20, 3, 20, 0, 0, 0, 0, 0, 0, 0, 33, 0, 78,
  142, 236, 95, 2, 0, 0, 0, 2, 0, 0, 0, 6, 0, 0, 0, 0, 0, 0, 0, 0, 0, 0, 0, 128, 1, 0, 0, 0, 0, 105,
  110, 46, 106, 97, 114, 80, 75, 5, 6, 0, 0, 0, 0, 1, 0, 1, 0, 52, 0, 0, 0, 38, 0, 0, 0, 0, 0]⟩

/-- Mods inside each other, none of them in the archive store, and one whose file is gone. -/
def oneInsideOther : List NewCandidate :=
  let new (id : String) (location : Location) (parent? : Option CandidateId) : NewCandidate :=
    { descriptor := { id, version := .ofComponents [1] }, location, parent?, remap := false }
  [new "out" (.file "/out.jar") none, new "in" (.stored "in" "in.jar" ⟨2, []⟩) (some 0),
    new "deep" (.stored "deep" "deep.jar" ⟨2, []⟩) (some 1), new "gone" (.file "/gone.jar") none]

/-- The outermost mod alone. -/
def outerShelves : Shelves := .of ⟨[(["out.jar"], .file outerBytes)]⟩ Zip.reader .empty

/-- The innermost mod cannot be read, and what is around it is cached on the way. -/
theorem cache_transparent_oneInsideOther :
    (oneInsideOther.foldl inserted empty).Prepared ∧
    ((oneInsideOther.foldl inserted empty).answers outerShelves .empty
        [.read 2, .read 1, .evict 0, .read 0, .read 3, .clear, .read 1, .read 9]).map
          (Except.mapError ReadFault.kind) =
      [.error "InvalidData", .ok (some ⟨#[105, 110]⟩), .ok (some outerBytes),
        .error "NotFound", .ok (some ⟨#[105, 110]⟩), .ok none] ∧
    (oneInsideOther.foldl inserted empty).answers outerShelves .empty
        [.read 2, .read 1, .evict 0, .read 0, .read 3, .clear, .read 1, .read 9] =
      [2, 1, 0, 3, 1, 9].map fun id =>
        ((oneInsideOther.foldl inserted empty).readContent outerShelves id .empty).1 := by
  have hprepared : (oneInsideOther.foldl inserted empty).Prepared :=
    .built (Built.empty.foldl oneInsideOther)
  exact ⟨hprepared, by decide +kernel, (cache_transparent hprepared outerShelves).2 _⟩

end Store
end Loadout
