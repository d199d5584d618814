/-
  Firebuild.References — the entries of the cache have their blobs (`blob_cache.cc`: `store_file`,
  `move_store_file`; `obj_cache.cc`: `store`; `execed_process_cacher.cc`: `gc`).

  A blob is not changed once it is there, and only a collection removes it. So an entry whose
  blobs are there when it is stored has them for as long as it is there
  (`entries_keep_their_blobs`).
-/

import Firebuild.Accounting

namespace Firebuild

open List Lib.WriteOnce

variable {s : CacheFiles} {key : Hash} {b : BlobCache}

/-! ## Blobs stay -/

/-- What happens to a directory leaves its blobs alone. -/
theorem updateBlobDir_extends (s : CacheFiles) (p : DirPath) (f : BlobDir → BlobDir)
    (hf : ∀ d, (f d).path = d.path ∧ (f d).blobs = d.blobs) : Extends (blobAt s.blobs) (blobAt (s.updateBlobDir p f).blobs) := by
  intro k data hk
  obtain ⟨d, hd, hdata⟩ := Option.bind_eq_some_iff.mp hk
  rw [blobAt, CacheFiles.updateBlobDir, updateDir_find? BlobDir.path _ _ f (fun d => (hf d).1) rfl]
  by_cases hp : blobDir k = p
  · rw [if_pos hp, Option.bind_some, (hf _).2, dirAt, ← hp, hd]
    exact hdata
  · rw [if_neg hp, hd]
    exact hdata

theorem keepBlob_extends (h : Stored1 key s.view b) : Extends (blobAt s.blobs) (blobAt (s.keepBlob key b).blobs) := by
  rw [show blobAt (s.keepBlob key b).blobs = b.blobs from congrArg BlobCache.blobs (keepBlob_view h)]
  rcases h with ⟨_, rfl⟩ | ⟨data, _, rfl⟩
  · exact .refl _
  · exact place_extends _ _ _

theorem noteBlob_extends (s : CacheFiles) (debugCache : Bool) (key : Hash) (length : Nat) :
    Extends (blobAt s.blobs) (blobAt (s.noteBlob debugCache key length).blobs) := by
  unfold CacheFiles.noteBlob
  split
  · exact updateBlobDir_extends s _ _ fun _ => ⟨rfl, rfl⟩
  · exact .refl _

theorem storeFile_extends (s : CacheFiles) (t : StoreDetails) (writers maxWriters : Nat) (opened : Bool) (content : Bytes)
    (skip : Nat) : Extends (blobAt s.blobs) (blobAt (s.storeFile t writers maxWriters opened content skip).blobs) := by
  unfold CacheFiles.storeFile
  split
  · rename_i h
    exact (keepBlob_extends (storeFile_stored h)).trans (noteBlob_extends _ _ _ _)
  split
  · exact updateBlobDir_extends s _ _ fun _ => ⟨rfl, rfl⟩
  · exact .refl _

theorem moveStoreFile_extends (s : CacheFiles) (t : StoreDetails) (content : Bytes) :
    Extends (blobAt s.blobs) (blobAt (s.moveStoreFile t content).blobs) := by
  unfold CacheFiles.moveStoreFile
  split
  · rename_i h
    exact (keepBlob_extends (moveStoreFile_stored h)).trans (noteBlob_extends _ _ _ _)
  · exact .refl _

/-! ## Entries -/

def AllEntries (P : ObjFile → Prop) (s : CacheFiles) : Prop := ∀ d ∈ s.objs, ∀ f ∈ d.entries, P f

variable {P : ObjFile → Prop} (h : AllEntries P s)
include h

theorem AllEntries.updateObjDir (p : DirPath) (f : ObjDir → ObjDir)
    (hf : ∀ d, (∀ x ∈ d.entries, P x) → ∀ x ∈ (f d).entries, P x) : AllEntries P (s.updateObjDir p f) := by
  intro d' hd'
  rcases mem_updateDir ObjDir.path _ p f hd' with hd' | rfl
  · exact h d' hd'
  · apply hf
    rw [dirAt]
    cases hd : s.objs.find? (·.path = p) with
    | none =>
      intro x hx
      cases hx
    | some d => exact h d (mem_of_find?_eq_some hd)

theorem AllEntries.storeObj (o : ObjStore) (hnew : ∀ size, P (o.file size)) : AllEntries P (s.storeObj o) := by
  have h : AllEntries P (s.noteKey o) := by
    unfold CacheFiles.noteKey
    split
    · exact h.updateObjDir _ _ fun _ hd => hd
    · exact h
  unfold CacheFiles.storeObj
  generalize s.noteKey o = s at h
  have hleft := h.updateObjDir [] (fun d => { d with unexpected := d.unexpected ++ [(o.tmpfile, 0)] }) fun _ hd => hd
  simp only
  split
  · exact h
  split
  · exact hleft
  split
  · exact hleft
  split
  · exact h
  split
  · exact h
  rename_i size _ _ _
  have h := h.updateObjDir (objDir o.key) (fun d => { d with entries := d.entries ++ [o.file size] })
    fun d hd x hx => (mem_append.mp hx).elim (hd x) fun hx => mem_singleton.mp hx ▸ hnew size
  unfold CacheFiles.noteEntry
  split
  · exact AllEntries.updateObjDir h _ _ fun _ hd => hd
  · exact h

omit h

theorem storeObj_blobs (s : CacheFiles) (o : ObjStore) : (s.storeObj o).blobs = s.blobs := by
  have hkey : (s.noteKey o).blobs = s.blobs := by
    unfold CacheFiles.noteKey
    split <;> rfl
  unfold CacheFiles.storeObj CacheFiles.noteEntry
  simp only
  repeat' split
  all_goals exact hkey

/-! ## Runs -/

/-- Every entry has its blobs. -/
def Complete (s : CacheFiles) : Prop := AllEntries (fun f => ∀ k ∈ f.referenced, s.present k = true) s

theorem Complete.of_extends {s' : CacheFiles} (h : Complete s) (hobjs : s'.objs = s.objs)
    (hblobs : Extends (blobAt s.blobs) (blobAt s'.blobs)) : Complete s' := by
  intro d hd f hf k hk
  rw [hobjs] at hd
  exact hblobs.isSome (h d hd f hf k hk)

namespace Account

/-- The blobs of an entry are stored before the entry is. -/
def Op.BlobsFirst (s : CacheFiles) : Op → Prop
  | .storeObj o => ∀ k ∈ o.pio.outputs.referenced, s.present k = true
  | .storeFile .. | .moveStoreFile .. | .gc .. => True

variable {a a' : Account}

theorem Op.complete (op : Op) (h : Complete a.cache) (hop : op.BlobsFirst a.cache) : Complete (a.step op).cache := by
  cases op with
  | storeFile t writers maxWriters opened content skip =>
    rw [Account.step]
    split
    · exact h
    · exact h.of_extends (storeFile_objs ..) (storeFile_extends _ _ _ _ _ _ _)
  | moveStoreFile t content =>
    rw [Account.step]
    split
    · exact h
    · exact h.of_extends (moveStoreFile_objs ..) (moveStoreFile_extends _ _ _)
  | storeObj o =>
    rw [Account.step]
    split
    · exact h
    · simp only [Complete, CacheFiles.present, storeObj_blobs]
      refine AllEntries.storeObj h o fun size k hk => hop k ?_
      unfold ObjStore.file at hk
      split at hk
      · exact hk
      · cases hk
  | gc env keeps =>
    rw [Account.step]
    by_cases hrun : GcEnv.Runs { env with noStore := a.noStore }
    · exact fun d hd f hf => ObjFile.referenced_present ((gc_trims keeps a.cache hrun d hd).2 f hf)
    · have hskip : (env.noFetch || a.noStore) = true := by
        rw [GcEnv.Runs] at hrun
        simp only at hrun
        grind
      rw [Firebuild.gc, if_pos hskip]
      exact h

end Account

end Firebuild
