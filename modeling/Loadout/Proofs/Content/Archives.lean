/-
# Archives stored under generated names

An insert under a name that is taken keeps the old bytes, so an entry holds the bytes of the
first insert of its name (`ArchiveStore.get?_after`).  That later inserts get their own bytes
back rests on the names: whatever the file is called, the digits of the hash are the last
sixteen characters before the last dot of the generated name (`ArchiveStore.hashPart_nameFor`),
since an extension has no dot and the digits of a hash have a fixed length.  So a name stands
for one hash, and where inserted byte arrays differ in their hashes, for one byte array
(`ArchiveStore.stored_for_good`).
-/

import Loadout.Content.Store
import Loadout.Proofs.Text.Cut

namespace Loadout
namespace ArchiveStore

/-! ### Names -/

/-- A text with something before its last dot is cut there. -/
theorem splitExtension?_append {stem extension : List Char} (hstem : stem ≠ [])
    (hdot : '.' ∉ extension) :
    splitExtension? (stem ++ '.' :: extension) = some (stem, extension) := by
  have hspan : (stem ++ '.' :: extension).reverse.span (· != '.') =
      (extension.reverse, '.' :: stem.reverse) := by
    rw [List.reverse_append, List.reverse_cons, List.append_assoc, List.singleton_append]
    refine Text.span_append (fun c hc => ?_) fun c hc => ?_
    · rw [bne_iff_ne]
      rintro rfl
      exact hdot (List.mem_reverse.1 hc)
    · obtain rfl := Option.some.inj hc
      exact bne_self_eq_false _
  rw [splitExtension?, hspan]
  simp [hstem]

/-- No extension has a dot. -/
theorem not_mem_extension {file stem extension : List Char}
    (h : splitExtension? file = some (stem, extension)) : '.' ∉ extension := by
  have hall := List.all_takeWhile (p := (· != '.')) (l := file.reverse)
  rw [splitExtension?, List.span_eq_takeWhile_dropWhile] at h
  split at h
  · simp at h
  · rename_i before c after heq
    obtain ⟨rfl, -⟩ := Prod.mk.inj heq
    split at h
    · simp at h
    · obtain ⟨-, rfl⟩ := Prod.mk.inj (Option.some.inj h)
      intro hdot
      simpa using List.all_eq_true.1 hall '.' (List.mem_reverse.1 hdot)

/-- **Every generated name** is a text, a hyphen, the digits of the hash, a dot and an extension
without dots. -/
theorem exists_toList_nameFor (file : String) (hash : ContentHash) : ∃ stem extension,
    (nameFor file hash).toList = (stem ++ '-' :: hash.hexDigits.take 16) ++ '.' :: extension ∧
      '.' ∉ extension := by
  cases hcut : splitExtension? file.toList with
  | none =>
      refine ⟨file.toList, "jar".toList, ?_, by decide⟩
      simp [nameFor, hcut, ContentHash.shortHex, String.toList_append]
  | some parts =>
      obtain ⟨stem, extension⟩ := parts
      refine ⟨stem, extension, ?_, not_mem_extension hcut⟩
      simp [nameFor, hcut, ContentHash.shortHex, String.toList_append]

/-- There are as many digits as a name takes of a hash. -/
theorem length_hexDigits_take (bytes : ByteArray) :
    ((ContentHash.ofBytes bytes).hexDigits.take 16).length = 16 := by
  have h : (ContentHash.ofBytes bytes).hexDigits.length = 64 := by
    simp [ContentHash.hexDigits, ContentHash.ofBytes, List.length_flatMap, Sha256.length_hash]
  rw [List.length_take, h]
  rfl

/-- The sixteen characters before the last dot of a name, if there is one. -/
def hashPart (name : String) : Option (List Char) :=
  (splitExtension? name.toList).map fun parts => parts.1.drop (parts.1.length - 16)

/-- **A generated name tells the hash that it was made of**, whatever the file is called. -/
theorem hashPart_nameFor (file : String) (bytes : ByteArray) :
    hashPart (nameFor file (.ofBytes bytes)) =
      some ((ContentHash.ofBytes bytes).hexDigits.take 16) := by
  obtain ⟨stem, extension, hname, hdot⟩ := exists_toList_nameFor file (.ofBytes bytes)
  have hlen := length_hexDigits_take bytes
  generalize (ContentHash.ofBytes bytes).hexDigits.take 16 = digits at hname hlen
  have hcut : splitExtension? (nameFor file (.ofBytes bytes)).toList =
      some (stem ++ '-' :: digits, extension) := by
    rw [hname]
    exact splitExtension?_append (by simp) hdot
  have hshape : stem ++ '-' :: digits = (stem ++ ['-']) ++ digits := List.append_cons ..
  rw [hashPart, hcut, Option.map_some, hshape, List.length_append, hlen, Nat.add_sub_cancel,
    List.drop_left]

/-- **Files of one generated name have the same hash digits.** -/
theorem shortHex_eq_of_nameFor_eq {file file' : String} {bytes bytes' : ByteArray}
    (h : nameFor file (.ofBytes bytes) = nameFor file' (.ofBytes bytes')) :
    (ContentHash.ofBytes bytes).shortHex = (ContentHash.ofBytes bytes').shortHex := by
  have hparts := congrArg hashPart h
  rw [hashPart_nameFor, hashPart_nameFor] at hparts
  exact congrArg String.ofList (Option.some.inj hparts)

/-! ### Entries -/

/-- The store after a list of inserts, each of a file name with bytes. -/
def after (files : List (String × ByteArray)) : ArchiveStore :=
  files.foldl (fun s f => (s.insert f.1 f.2).1) empty

/-- The name that an insert returns says nothing about the store. -/
theorem insert_name (s : ArchiveStore) (file : String) (bytes : ByteArray) :
    (s.insert file bytes).2.1 = nameFor file (.ofBytes bytes) := rfl

/-- **An insert keeps what is there** and adds an entry only under a name that is free. -/
theorem get?_insert (s : ArchiveStore) (file : String) (bytes : ByteArray) (name : String) :
    (s.insert file bytes).1.get? name = (s.get? name).or
      (if nameFor file (.ofBytes bytes) = name then some bytes else none) := by
  rw [insert]
  split
  · rename_i hin
    by_cases hname : nameFor file (.ofBytes bytes) = name
    · obtain ⟨old, hold⟩ := Option.isSome_iff_exists.1 hin
      rw [hname] at hold
      simp [hold]
    · simp [hname]
  · rw [get?, List.find?_append, Option.map_or, ← get?]
    by_cases hname : nameFor file (.ofBytes bytes) = name <;> simp [hname]

/-- **An entry holds the bytes of the first insert of its name.** -/
theorem get?_after (files : List (String × ByteArray)) (name : String) : (after files).get? name =
    (files.find? fun f => nameFor f.1 (.ofBytes f.2) = name).map (·.2) := by
  induction files using List.reverseRecOn with
  | nil => simp [after, get?, empty]
  | append_singleton files f ih =>
      rw [after, List.foldl_concat, ← after, get?_insert, ih, List.find?_append, Option.map_or]
      by_cases hname : nameFor f.1 (.ofBytes f.2) = name <;> simp [hname]

/-- Byte arrays that differ have hashes that differ within the digits used in names. -/
def ApartByHash (files : List (String × ByteArray)) : Prop :=
  ∀ f ∈ files, ∀ g ∈ files,
    (ContentHash.ofBytes f.2).shortHex = (ContentHash.ofBytes g.2).shortHex → f.2 = g.2

instance (files : List (String × ByteArray)) : Decidable (ApartByHash files) :=
  inferInstanceAs (Decidable (∀ f ∈ files, ∀ g ∈ files,
    (ContentHash.ofBytes f.2).shortHex = (ContentHash.ofBytes g.2).shortHex → f.2 = g.2))

/-- Files of one generated name have the same bytes. -/
theorem ApartByHash.bytes_eq {files : List (String × ByteArray)} (h : ApartByHash files)
    {f g : String × ByteArray} (hf : f ∈ files) (hg : g ∈ files)
    (hname : nameFor f.1 (.ofBytes f.2) = nameFor g.1 (.ofBytes g.2)) : f.2 = g.2 :=
  h f hf g hg (shortHex_eq_of_nameFor_eq hname)

/-- **Archives are stored for good and found by their content.**  Where the byte arrays of a list
of inserts are told apart by their hashes, the name that an insert returns leads to the bytes that
it was given, right after it and after all inserts that follow, whatever the files are called; and
two inserts return one name only for the same bytes. -/
theorem stored_for_good (files : List (String × ByteArray)) (h : ApartByHash files) :
    (∀ i file bytes, files[i]? = some (file, bytes) → ∀ k, i < k →
      (after (files.take k)).get? ((after (files.take i)).insert file bytes).2.1 = some bytes) ∧
    ∀ i file bytes, files[i]? = some (file, bytes) →
      ∀ j file' bytes', files[j]? = some (file', bytes') →
        ((after (files.take i)).insert file bytes).2.1 =
          ((after (files.take j)).insert file' bytes').2.1 → bytes = bytes' := by
  refine ⟨fun i file bytes hi k hk => ?_, fun i file bytes hi j file' bytes' hj hname => ?_⟩
  · have hmem : (file, bytes) ∈ files.take k :=
      List.mem_of_getElem? (i := i) (by rw [List.getElem?_take_of_lt hk, hi])
    rw [insert_name, get?_after]
    -- the first insert of the name may have been an earlier one
    cases hfind : (files.take k).find? fun f =>
        nameFor f.1 (.ofBytes f.2) = nameFor file (.ofBytes bytes) with
    | none => simpa using List.find?_eq_none.1 hfind _ hmem
    | some f =>
        have hname : nameFor f.1 (.ofBytes f.2) = nameFor file (.ofBytes bytes) := by
          simpa using List.find?_some hfind
        have hf : f ∈ files := List.mem_of_mem_take (List.mem_of_find?_eq_some hfind)
        rw [Option.map_some, h.bytes_eq hf (List.mem_of_getElem? hi) hname]
  · rw [insert_name, insert_name] at hname
    exact h.bytes_eq (List.mem_of_getElem? hi) (List.mem_of_getElem? hj) hname

/-- Two archives under one file name, and the first of them once more under a name that looks
generated. -/
def alikeNamed : List (String × ByteArray) :=
  [(".jar", ⟨#[1]⟩), (".jar", ⟨#[2]⟩), ("lib-4bf5122f344554c5.tar.gz", ⟨#[1]⟩)]

/-- Both archives of one file name are found by the names that their inserts returned. -/
theorem stored_for_good_alikeNamed : ApartByHash alikeNamed ∧
    (after alikeNamed).get? ((after (alikeNamed.take 1)).insert ".jar" ⟨#[2]⟩).2.1 =
      some ⟨#[2]⟩ := by
  have hapart : ApartByHash alikeNamed := by decide +kernel
  exact ⟨hapart, (stored_for_good alikeNamed hapart).1 1 ".jar" ⟨#[2]⟩ rfl 3 (by decide)⟩

end ArchiveStore
end Loadout
