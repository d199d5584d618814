/-
  Firebuild.Accounting — the size of the cache, as it is counted (`execed_process_cacher.cc`:
  `update_cached_bytes`, `get_stored_bytes_from_cache`, `fix_stored_bytes`,
  `read_stored_cached_bytes`, `update_stored_bytes`; `obj_cache.cc`: `store`; `blob_cache.cc`:
  `store_file`, `move_store_file`, on the files of the cache).

  The size file has the size of the cache at the end of the last run that updated it. While a
  run stores and collects, it counts what it adds and removes in `this_runs_cached_bytes_`.
  The sum of the two is to be the size of all entries, blobs and debugging files. At its end
  the run writes the sum to the size file; its own count is not reset, and the sum of the two
  is not looked at again.

  A store that fails may leave a file behind, under a name that is none of the cache's. An entry
  that is not written whole is counted whole (`a_short_write_is_counted`).

  Proved: `cache_size_is_accounted_for`; `a_size_update_counts_the_run_twice`.
-/

import Mathlib.Algebra.Order.BigOperators.Group.List
import Firebuild.Gc

namespace Firebuild

open Lib.Collect Lib.WriteOnce
open List

/-! ## Sizes -/

/-- All regular files: `recursive_total_file_size` of both directories. -/
def CacheFiles.totalFileSize (s : CacheFiles) : Int :=
  s.bytes + (s.objs.map fun d => sizes d.unexpected).sum + (s.blobs.map fun d => sizes d.unexpected).sum

/-! ## Storing -/

section UpdateDir

variable {δ : Type} (path : δ → DirPath) (new : δ)

/-- A file is created or changed in a directory, which is created if need be. -/
def updateDir (p : DirPath) (f : δ → δ) : List δ → List δ
  | [] => [f new]
  | d :: ds => if path d = p then f d :: ds else d :: updateDir p f ds

def dirAt (p : DirPath) (ds : List δ) : δ := (ds.find? (path · = p)).getD new

end UpdateDir

def CacheFiles.updateObjDir (s : CacheFiles) (p : DirPath) (f : ObjDir → ObjDir) : CacheFiles :=
  { s with objs := updateDir ObjDir.path { path := p } p f s.objs }

def CacheFiles.objDirAt (s : CacheFiles) (p : DirPath) : ObjDir := dirAt ObjDir.path { path := p } p s.objs

def CacheFiles.updateBlobDir (s : CacheFiles) (p : DirPath) (f : BlobDir → BlobDir) : CacheFiles :=
  { s with blobs := updateDir BlobDir.path { path := p } p f s.blobs }

def CacheFiles.updateCachedBytes (s : CacheFiles) (bytes : Int) : CacheFiles := { s with thisRuns := s.thisRuns + bytes }

/-- The blob cache without its files. -/
def CacheFiles.view (s : CacheFiles) : BlobCache := ⟨blobAt s.blobs, s.thisRuns⟩

def BlobDir.addBlob (key : Hash) (data : Bytes) (d : BlobDir) : BlobDir := { d with blobs := d.blobs ++ [(key, data)] }

/-- A line is appended to the debugging file: this counts as another file of the blob. -/
def BlobDir.addNote (key : Hash) (length : Nat) (d : BlobDir) : BlobDir := { d with debug := d.debug ++ [(key, length)] }

/-- What is on disk after a content was stored, for the blob cache after it. -/
def CacheFiles.keepBlob (s : CacheFiles) (key : Hash) (b : BlobCache) : CacheFiles :=
  match blobAt s.blobs key, b.blobs key with
  | none, some data => { s.updateBlobDir (blobDir key) (·.addBlob key data) with thisRuns := b.cachedBytes }
  | _, _ => { s with thisRuns := b.cachedBytes }

/-- "Place meta info in the cache, for easier debugging." -/
def CacheFiles.noteBlob (s : CacheFiles) (debugCache : Bool) (key : Hash) (length : Nat) : CacheFiles :=
  if debugCache then (s.updateBlobDir (blobDir key) (·.addNote key length)).updateCachedBytes length else s

/-- What is given to a store besides the content: the temporary name and the length of the
    note. -/
structure StoreDetails where
  debugCache : Bool
  codec : Codec
  cfg : CacheConfig
  fail : Option StoreFailure
  tmpfile : String
  noteLength : Nat

/-- `store_file`. Only where the last rename() fails the temporary file is not removed. -/
def CacheFiles.storeFile (s : CacheFiles) (t : StoreDetails) (writers maxWriters : Nat) (opened : Bool) (content : Bytes)
    (skip : Nat) : CacheFiles :=
  match Firebuild.storeFile t.codec t.cfg t.fail writers maxWriters opened content skip s.view with
  | some (key, b) => (s.keepBlob key b).noteBlob t.debugCache key t.noteLength
  | none =>
    if writers ≤ maxWriters ∧ t.fail = some .rename then
      s.updateBlobDir [] fun d =>
        { d with unexpected := d.unexpected ++ [(t.tmpfile, (t.cfg.encode t.codec (content.drop skip)).length)] }
    else s

def CacheFiles.moveStoreFile (s : CacheFiles) (t : StoreDetails) (content : Bytes) : CacheFiles :=
  match Firebuild.moveStoreFile t.codec t.cfg t.fail content s.view with
  | some (key, b) => (s.keepBlob key b).noteBlob t.debugCache key t.noteLength
  | none => s

structure ObjStore where
  debugCache : Bool
  cfg : CacheConfig
  key : Hash
  subkey : Subkey
  mtime : Nat
  pio : ProcessInputsOutputs
  /-- `entry->measure()` -/
  len : Nat
  storedBlobBytes : Nat
  /-- The length of the compressed entry; none if this fails. -/
  compressed : Option Nat
  /-- The length of the fingerprint as text, if it is there, and of the entry. -/
  debugKey : Option Nat
  debugEntry : Nat
  mkstempFails : Bool
  /-- How much fb_write() can write; what it returns is not looked at. -/
  writable : Nat
  renameFails : Bool
  tmpfile : String

/-- "Place a human-readable version of the key in the cache", if there is none. -/
def CacheFiles.noteKey (s : CacheFiles) (o : ObjStore) : CacheFiles :=
  match o.debugCache, o.debugKey, (s.objDirAt (objDir o.key)).dirDebug with
  | true, some length, none =>
    (s.updateObjDir (objDir o.key) fun d => { d with dirDebug := some length }).updateCachedBytes length
  | _, _, _ => s

/-- "Place a human-readable version of the value in the cache", if there is none. -/
def CacheFiles.noteEntry (s : CacheFiles) (o : ObjStore) : CacheFiles :=
  if o.debugCache = true ∧ (s.objDirAt (objDir o.key)).debug.any (·.1 == o.subkey) = false then
    (s.updateObjDir (objDir o.key) fun d => { d with debug := d.debug ++ [(o.subkey, o.debugEntry)] }).updateCachedBytes
      o.debugEntry
  else s

def ObjStore.finalSize (o : ObjStore) : Option Nat :=
  if o.cfg.compressCache then o.compressed else some (o.len + kMagicHeader.length)

/-- The file that is written. One that is cut short can't be retrieved. -/
def ObjStore.file (o : ObjStore) (size : Nat) : ObjFile :=
  if size ≤ o.writable then ⟨o.subkey, .entry o.pio, size, o.mtime⟩ else ⟨o.subkey, .unretrievable, o.writable, o.mtime⟩

/-- `ObjCache::store`. Where it gives up before the entry is written, an empty file is left. -/
def CacheFiles.storeObj (s : CacheFiles) (o : ObjStore) : CacheFiles :=
  let s := s.noteKey o
  let leftBehind := s.updateObjDir [] fun d => { d with unexpected := d.unexpected ++ [(o.tmpfile, 0)] }
  if o.mkstempFails then s
  else if o.storedBlobBytes + o.len > o.cfg.maxEntrySize then leftBehind
  else
    match o.finalSize with
    | none => leftBehind
    | some size =>
      if o.renameFails then s
      -- EEXIST: "cache object is already stored"
      else if (s.objDirAt (objDir o.key)).entries.any (·.subkey == o.subkey) then s
      else
        ((s.updateObjDir (objDir o.key) fun d =>
          { d with entries := d.entries ++ [o.file size] }).updateCachedBytes size).noteEntry o

/-! ## The size file -/

structure Account where
  cache : CacheFiles
  /-- "cachedir/size"; a file without a number is as one with a negative number. -/
  sizeFile : Option Int
  noStore : Bool

namespace Account

def fixStoredBytes (a : Account) : Int := a.cache.totalFileSize - a.cache.thisRuns

/-- `get_stored_bytes_from_cache`, with the size file after it. -/
def getStoredBytesFromCache (a : Account) : Int × Account :=
  match a.sizeFile with
  | none => (0, a)
  | some bytes =>
    if bytes < 0 then (a.fixStoredBytes, { a with sizeFile := some a.fixStoredBytes }) else (bytes, a)

def storedBytes (a : Account) : Int := a.getStoredBytesFromCache.1

def readStoredCachedBytes (a : Account) : Account :=
  let (bytes, a) := a.getStoredBytesFromCache
  { a with cache := { a.cache with stored := bytes } }

def updateStoredBytes (a : Account) : Account :=
  if a.noStore then a else { a with sizeFile := some (a.cache.thisRuns + a.cache.stored) }

inductive Op where
  | storeFile (t : StoreDetails) (writers maxWriters : Nat) (opened : Bool) (content : Bytes) (skip : Nat)
  | moveStoreFile (t : StoreDetails) (content : Bytes)
  | storeObj (o : ObjStore)
  | gc (env : GcEnv) (keeps : List Nat)

/-- Nothing is stored in read-only mode. -/
def step (a : Account) : Op → Account
  | .storeFile t writers maxWriters opened content skip =>
    if a.noStore then a else { a with cache := a.cache.storeFile t writers maxWriters opened content skip }
  | .moveStoreFile t content => if a.noStore then a else { a with cache := a.cache.moveStoreFile t content }
  | .storeObj o => if a.noStore then a else { a with cache := a.cache.storeObj o }
  | .gc env keeps => { a with cache := gc { env with noStore := a.noStore } keeps a.cache }

/-- The end of a build: "Read, update with current run, then save". -/
def readUpdateSave (a : Account) : Account := a.readStoredCachedBytes.updateStoredBytes

def restart (a : Account) (noStore : Bool) : Account := { a with cache := { a.cache with thisRuns := 0, stored := 0 }, noStore }

end Account

/-! ## Sums -/

variable {α : Type}

section UpdateDir

variable {δ : Type} (path : δ → DirPath) (new : δ) (p : DirPath) (f : δ → δ)

theorem dirAt_cons_of_ne (h : path d ≠ p) (ds : List δ) : dirAt path new p (d :: ds) = dirAt path new p ds := by
  simp [dirAt, h]

/-- What a change in one directory adds. -/
theorem updateDir_sum (bytes : δ → Int) (hnew : bytes new = 0) (ds : List δ) :
    ((updateDir path new p f ds).map bytes).sum =
      (ds.map bytes).sum + (bytes (f (dirAt path new p ds)) - bytes (dirAt path new p ds)) := by
  induction ds with
  | nil => simp [updateDir, dirAt, hnew]
  | cons d ds ih =>
    by_cases h : path d = p
    · simp only [updateDir, dirAt, h, if_true, map_cons, sum_cons, List.find?_cons, decide_true, Option.getD_some]
      omega
    · simp only [updateDir, h, if_false, map_cons, sum_cons, dirAt_cons_of_ne path new p h]
      omega

theorem updateDir_find? (hpath : ∀ d, path (f d) = path d) (hnew : path new = p) (ds : List δ) (q : DirPath) :
    (updateDir path new p f ds).find? (path · = q) =
      if q = p then some (f (dirAt path new p ds)) else ds.find? (path · = q) := by
  induction ds with
  | nil =>
    by_cases hq : q = p
    · subst hq
      simp [updateDir, dirAt, hpath, hnew]
    · simp [updateDir, hpath, hnew, Ne.symm hq, hq]
  | cons d ds ih =>
    by_cases h : path d = p
    · by_cases hq : q = p
      · subst hq
        simp [updateDir, dirAt, h, hpath]
      · simp [updateDir, h, hpath, hq, Ne.symm hq]
    · rw [updateDir, if_neg h, List.find?_cons, List.find?_cons, ih, dirAt_cons_of_ne path new p h]
      by_cases hq : q = p
      · subst hq
        simp [h]
      · simp only [if_neg hq]

end UpdateDir

/-! ## Stores -/

variable {s : CacheFiles} {key : Hash} {b : BlobCache} {fail : Option StoreFailure} {cfg : CacheConfig}
  {content : Bytes} {b' : BlobCache}

/-- What storing a content does to a blob cache. -/
def Stored1 (key : Hash) (b b' : BlobCache) : Prop :=
  ((b.blobs key).isSome = true ∧ b' = b) ∨
    ∃ data : Bytes, b.blobs key = none ∧ b' = ⟨place b.blobs key data, b.cachedBytes + data.length⟩

variable {c : Codec}

theorem storeContent_stored (h : storeContent c cfg fail content b = some (key, b')) : Stored1 key b b' := by
  unfold storeContent at h
  split at h
  · cases h
  split at h
  · cases h
  split at h
  · cases h
  dsimp only at h
  split at h
  · rename_i x hx
    cases h
    exact .inl ⟨by rw [hx]; rfl, rfl⟩
  rename_i hx
  cases h
  exact .inr ⟨_, hx, rfl⟩

theorem storeFile_stored
    (h : storeFile c cfg fail writers maxWriters opened content skip b = some (key, b')) : Stored1 key b b' := by
  unfold storeFile at h
  split at h
  · cases h
  split at h
  · cases h
  split at h
  · cases h
  exact storeContent_stored h

theorem moveStoreFile_stored (h : moveStoreFile c cfg fail content b = some (key, b')) : Stored1 key b b' := by
  unfold moveStoreFile at h
  split at h
  · cases h
  exact storeContent_stored h

/-- A file is added to a directory of the object cache, and counted. -/
theorem updateObjDir_before (s : CacheFiles) (p : DirPath) (f : ObjDir → ObjDir) (added : Int)
    (hf : (f (s.objDirAt p)).bytes = (s.objDirAt p).bytes + added) :
    ((s.updateObjDir p f).updateCachedBytes added).before = s.before := by
  have hsum := updateDir_sum ObjDir.path { path := p } p f ObjDir.bytes rfl s.objs
  unfold CacheFiles.objDirAt at hf
  simp only [CacheFiles.before, CacheFiles.bytes, CacheFiles.updateObjDir, CacheFiles.updateCachedBytes]
  omega

theorem updateBlobDir_before (s : CacheFiles) (p : DirPath) (f : BlobDir → BlobDir) (added : Int)
    (hf : ∀ d, (f d).bytes = d.bytes + added) : ((s.updateBlobDir p f).updateCachedBytes added).before = s.before := by
  have hsum := updateDir_sum BlobDir.path { path := p } p f BlobDir.bytes rfl s.blobs
  simp only [CacheFiles.before, CacheFiles.bytes, CacheFiles.updateBlobDir, CacheFiles.updateCachedBytes, hsum, hf]
  omega

theorem updateCachedBytes_zero (s : CacheFiles) : s.updateCachedBytes 0 = s := by
  rw [CacheFiles.updateCachedBytes, Int.add_zero]

theorem addBlob_blobAt (blobs : List BlobDir) (key : Hash) (data : Bytes) (hnone : blobAt blobs key = none) :
    blobAt (updateDir BlobDir.path { path := blobDir key } (blobDir key) (·.addBlob key data) blobs) =
      place (blobAt blobs) key data := by
  have hat : ∀ j, blobDir j = blobDir key →
      (dirAt BlobDir.path { path := blobDir key } (blobDir key) blobs).blobs.lookup j = blobAt blobs j := by
    intro j hj
    rw [dirAt, blobAt, hj]
    cases blobs.find? (·.path = blobDir key) <;> rfl
  funext j
  rw [blobAt, updateDir_find? BlobDir.path _ _ (·.addBlob key data) (fun _ => rfl) rfl]
  by_cases hj : blobDir j = blobDir key
  · rw [if_pos hj, Option.bind_some, BlobDir.addBlob, lookup_append, hat j hj]
    by_cases hjk : j = key
    · subst hjk
      rw [place]
      simp
    have hne : (j == key) = false := by simpa using hjk
    rw [place, Function.update_of_ne hjk, lookup_cons, hne]
    simp
  · have hjk : j ≠ key := fun h => hj (by rw [h])
    rw [if_neg hj, place, Function.update_of_ne hjk, blobAt]

variable {data : Bytes} {δ : Type}

theorem keepBlob_known (hat : blobAt s.blobs key = some data) (b : BlobCache) :
    s.keepBlob key b = { s with thisRuns := b.cachedBytes } := by
  rw [CacheFiles.keepBlob, hat]

theorem keepBlob_new (hat : blobAt s.blobs key = none) (hb : b.blobs key = some data) :
    s.keepBlob key b = { s.updateBlobDir (blobDir key) (·.addBlob key data) with thisRuns := b.cachedBytes } := by
  rw [CacheFiles.keepBlob, hat, hb]

theorem place_new (h : blobs key = none) : place blobs key data key = some data := by
  rw [place, Function.update_self, h]
  rfl

/-- The files on disk are those of the blob cache. -/
theorem keepBlob_view (h : Stored1 key s.view b) : (s.keepBlob key b).view = b := by
  rcases h with ⟨hsome, rfl⟩ | ⟨data, hnone, rfl⟩
  · obtain ⟨data, hdata⟩ := Option.isSome_iff_exists.mp hsome
    rw [keepBlob_known hdata]
    rfl
  · rw [keepBlob_new hnone (place_new hnone)]
    exact congrArg (BlobCache.mk · _) (addBlob_blobAt s.blobs key data hnone)

theorem addBlob_bytes (key : Hash) (data : Bytes) (d : BlobDir) : (d.addBlob key data).bytes = d.bytes + data.length := by
  simp only [BlobDir.bytes, BlobDir.addBlob, dataSizes, map_append, sum_append, map_cons, map_nil, sum_cons, sum_nil]
  omega

theorem addNote_bytes (key : Hash) (length : Nat) (d : BlobDir) : (d.addNote key length).bytes = d.bytes + length := by
  simp only [BlobDir.bytes, BlobDir.addNote, sizes, map_append, sum_append, map_cons, map_nil, sum_cons, sum_nil]
  omega

/-- A new blob counts with its size, a blob that is there does not count again. -/
theorem keepBlob_before (h : Stored1 key s.view b) : (s.keepBlob key b).before = s.before := by
  rcases h with ⟨hsome, rfl⟩ | ⟨data, hnone, rfl⟩
  · obtain ⟨data, hdata⟩ := Option.isSome_iff_exists.mp hsome
    rw [keepBlob_known hdata]
    rfl
  · rw [keepBlob_new hnone (place_new hnone)]
    exact updateBlobDir_before s _ _ _ (addBlob_bytes key data)

theorem noteBlob_before (s : CacheFiles) (debugCache : Bool) (key : Hash) (length : Nat) :
    (s.noteBlob debugCache key length).before = s.before := by
  unfold CacheFiles.noteBlob
  split
  · exact updateBlobDir_before s _ _ _ (addNote_bytes key length)
  · rfl

theorem storeFile_before (s : CacheFiles) (t : StoreDetails) (writers maxWriters : Nat) (opened : Bool) (content : Bytes)
    (skip : Nat) : (s.storeFile t writers maxWriters opened content skip).before = s.before := by
  unfold CacheFiles.storeFile
  split
  · rename_i key b h
    rw [noteBlob_before, keepBlob_before (storeFile_stored h)]
  split
  · -- the file that is left over has no valid name
    rw [← updateCachedBytes_zero (CacheFiles.updateBlobDir _ _ _)]
    exact updateBlobDir_before s _ _ 0 fun d => (Int.add_zero _).symm
  · rfl

theorem moveStoreFile_before (s : CacheFiles) (t : StoreDetails) (content : Bytes) :
    (s.moveStoreFile t content).before = s.before := by
  unfold CacheFiles.moveStoreFile
  split
  · rename_i key b h
    rw [noteBlob_before, keepBlob_before (moveStoreFile_stored h)]
  · rfl

theorem noteKey_before (s : CacheFiles) (o : ObjStore) : (s.noteKey o).before = s.before := by
  unfold CacheFiles.noteKey
  split
  · rename_i length _ _ hnone
    refine updateObjDir_before s _ _ _ ?_
    simp only [ObjDir.bytes, hnone, Option.getD_some, Option.getD_none]
    omega
  · rfl

theorem noteEntry_before (s : CacheFiles) (o : ObjStore) : (s.noteEntry o).before = s.before := by
  unfold CacheFiles.noteEntry
  split
  · refine updateObjDir_before s _ _ _ ?_
    simp only [ObjDir.bytes, sizes, map_append, sum_append, map_cons, map_nil, sum_cons, sum_nil]
    omega
  · rfl

/-- The entry is written whole. -/
def ObjStore.WritesAll (o : ObjStore) : Prop := ∀ size ∈ o.finalSize, size ≤ o.writable

theorem storeObj_before (s : CacheFiles) (o : ObjStore) (hw : o.WritesAll) : (s.storeObj o).before = s.before := by
  rw [← noteKey_before s o]
  unfold CacheFiles.storeObj
  generalize s.noteKey o = s
  have hleft : (s.updateObjDir [] fun d => { d with unexpected := d.unexpected ++ [(o.tmpfile, 0)] }).before = s.before := by
    rw [← updateCachedBytes_zero (CacheFiles.updateObjDir _ _ _)]
    exact updateObjDir_before s _ _ 0 (Int.add_zero _).symm
  simp only
  split
  · rfl
  split
  · exact hleft
  split
  · exact hleft
  next size hsize =>
  split
  · rfl
  split
  · rfl
  rw [noteEntry_before, ObjStore.file, if_pos (hw size hsize)]
  refine updateObjDir_before s _ _ _ ?_
  simp only [ObjDir.bytes, entrySizes, map_append, sum_append, map_cons, map_nil, sum_cons, sum_nil]
  omega

/-! ## Rounds -/

def objFiles (objs : List ObjDir) : List ObjTimestampSize :=
  objs.flatMap fun d => d.entries.map fun f => ⟨d.path, f.subkey, f.mtime, f.size⟩

def ObjTimestampSize.name (o : ObjTimestampSize) : DirPath × Subkey := (o.path, o.subkey)

/-- No two directories and no two entries of a directory have the same name. -/
structure Distinct (objs : List ObjDir) : Prop where
  paths : (objs.map ObjDir.path).Nodup
  subkeys : ∀ d ∈ objs, (d.entries.map (·.subkey)).Nodup

theorem objFiles_cons (d : ObjDir) (objs : List ObjDir) :
    objFiles (d :: objs) = (d.entries.map fun f => ⟨d.path, f.subkey, f.mtime, f.size⟩) ++ objFiles objs := rfl

variable {objs : List ObjDir} {os : List ObjTimestampSize} {before stored : Int} {o : ObjTimestampSize}

theorem mem_objFiles : o ∈ objFiles objs ↔ ∃ d ∈ objs, ∃ f ∈ d.entries, o = ⟨d.path, f.subkey, f.mtime, f.size⟩ := by
  simp only [objFiles, mem_flatMap, mem_map, eq_comm]

theorem objFiles_unlink (objs : List ObjDir) (o : ObjTimestampSize) :
    objFiles (objs.map (·.unlink o)) = (objFiles objs).filter fun x => decide (x.name ≠ o.name) := by
  induction objs with
  | nil => rfl
  | cons d objs ih =>
    rw [map_cons, objFiles_cons, objFiles_cons, filter_append, filter_map]
    congr 1
    unfold ObjDir.unlink
    split
    · rename_i hp
      congr 1
      refine filter_congr fun f _ => ?_
      simp [ObjTimestampSize.name, hp]
    · rename_i hp
      congr 1
      refine (filter_eq_self.mpr fun f _ => ?_).symm
      simp [ObjTimestampSize.name, hp]

theorem Distinct.names (h : Distinct objs) : ((objFiles objs).map (·.name)).Nodup := by
  obtain ⟨hpaths, hsubkeys⟩ := h
  induction objs with
  | nil => exact nodup_nil
  | cons d objs ih =>
    rw [map_cons, nodup_cons] at hpaths
    rw [objFiles_cons, map_append, nodup_append]
    refine ⟨?_, ih hpaths.2 fun d' hd' => hsubkeys d' (mem_cons_of_mem _ hd'), ?_⟩
    · rw [map_map]
      have hd := hsubkeys d (mem_cons_self ..)
      refine List.Nodup.of_map Prod.snd ?_
      rwa [map_map]
    · intro x hx y hy hxy
      -- another directory has another path
      obtain ⟨o, ho, rfl⟩ := mem_map.mp hx
      obtain ⟨o', ho', rfl⟩ := mem_map.mp hy
      obtain ⟨f, _, rfl⟩ := mem_map.mp ho
      obtain ⟨d', hd', f', _, rfl⟩ := mem_objFiles.mp ho'
      have hp : d.path = d'.path := congrArg Prod.fst hxy
      exact hpaths.1 (hp ▸ mem_map_of_mem hd')

theorem Distinct.unlink (h : Distinct objs) (o : ObjTimestampSize) : Distinct (objs.map (·.unlink o)) := by
  have hpath : ∀ d : ObjDir, (d.unlink o).path = d.path := by
    intro d
    unfold ObjDir.unlink
    split <;> rfl
  refine ⟨?_, fun d' hd' => ?_⟩
  · rw [map_map, show ObjDir.path ∘ (·.unlink o) = ObjDir.path from funext hpath]
    exact h.paths
  obtain ⟨d, hd, rfl⟩ := mem_map.mp hd'
  have hd := h.subkeys d hd
  unfold ObjDir.unlink
  split
  · exact hd.sublist (filter_sublist.map _)
  · exact hd

variable {env : GcEnv}

theorem gcPass_objs (h : d' ∈ (gcPass env s).1.objs) :
    ∃ d ∈ s.objs, d'.path = d.path ∧ ∃ left, left.Sublist (listSubkeysInternal env.debugCache d.entries) ∧ d'.entries = left := by
  obtain ⟨d, hd, hpath, hentries⟩ := (gcObjCacheDir_visits env s.present).source Marked.nil h
  exact ⟨d, hd, hpath, _, keepFirst_sublist, hentries⟩

theorem Distinct.gcPass (h : Distinct s.objs) (env : GcEnv) : Distinct (gcPass env s).1.objs := by
  refine ⟨?_, fun d' hd' => ?_⟩
  · let I := fun (seen done : List ObjDir) (n : GcState) => Marked s.present n.referenced ∧
      (done.map ObjDir.path).Sublist (seen.map ObjDir.path)
    have hstart : I [] [] { thisRuns := s.thisRuns } := ⟨Marked.nil, List.Sublist.refl _⟩
    refine h.paths.sublist (walk_inv I ?_ s.objs [] hstart).2
    rintro seen done d n ⟨hm, hsub⟩
    refine ⟨(gcObjCacheDir_visits env s.present).keeps done d n hm, ?_⟩
    rw [map_append, map_append]
    refine hsub.append ?_
    cases hv : (gcObjCacheDir env s.present done d n).1 with
    | none => exact nil_sublist _
    | some d' =>
      have hp := ((gcObjCacheDir_visits env s.present).leaves done d n d' hm hv).1
      simp [hp]
  · obtain ⟨d, hd, _, left, hsub, hentries⟩ := gcPass_objs hd'
    rw [hentries]
    have hperm := (perm_insertionSort (TriedBefore env.debugCache) d.entries).map (·.subkey)
    exact (hperm.nodup_iff.mpr (h.subkeys d hd)).sublist (hsub.map _)

theorem objFiles_gcPass (env : GcEnv) (s : CacheFiles) : objFiles (gcPass env s).1.objs ⊆ objFiles s.objs := by
  intro o ho
  obtain ⟨d', hd', f, hf, rfl⟩ := mem_objFiles.mp ho
  obtain ⟨d, hd, hpath, left, hsub, hentries⟩ := gcPass_objs hd'
  rw [hentries] at hf
  exact mem_objFiles.mpr ⟨d, hd, f, mem_listSubkeysInternal.mp (hsub.subset hf), by rw [hpath]⟩

theorem sum_filter_ne [DecidableEq κ] (name : α → κ) (size : α → Int) {l : List α} (h : (l.map name).Nodup)
    (hx : x ∈ l) : ((l.filter fun a => decide (name a ≠ name x)).map size).sum + size x = (l.map size).sum := by
  induction l with
  | nil => cases hx
  | cons a l ih =>
    rw [map_cons, nodup_cons] at h
    rcases mem_cons.mp hx with rfl | hx
    · have hself : (l.filter fun a => decide (name a ≠ name x)) = l := by
        refine filter_eq_self.mpr fun b hb => ?_
        have hne : name b ≠ name x := fun he => h.1 (he ▸ mem_map_of_mem hb)
        simpa using hne
      rw [filter_cons_of_neg (by simp), hself, map_cons, sum_cons]
      omega
    · have hne : name a ≠ name x := fun he => h.1 (he ▸ mem_map_of_mem hx)
      rw [filter_cons_of_pos (by simpa using hne), map_cons, map_cons, sum_cons, sum_cons, ← ih h.2 hx]
      omega

theorem objBytes_eq (objs : List ObjDir) : (objs.map ObjDir.bytes).sum =
      ((objFiles objs).map fun o => (o.size : Int)).sum +
        (objs.map fun d => sizes d.debug + (d.dirDebug.getD 0 : Nat)).sum := by
  induction objs with
  | nil => rfl
  | cons d objs ih =>
    have hd : ((d.entries.map fun f => (⟨d.path, f.subkey, f.mtime, f.size⟩ : ObjTimestampSize)).map
        fun o => (o.size : Int)).sum = entrySizes d.entries := by
      rw [map_map]
      rfl
    rw [map_cons, sum_cons, objFiles_cons, map_append, sum_append, map_cons, sum_cons, ObjDir.bytes]
    omega

/-- The sizes on the list for the rounds are those of the files that are there. -/
def SizesKnown (os : List ObjTimestampSize) (objs : List ObjDir) : Prop :=
  ∀ o ∈ os, ∀ x ∈ objFiles objs, x.name = o.name → x.size = o.size

theorem unlink_before (h : Distinct s.objs)
    (hsize : ∀ x ∈ objFiles s.objs, x.name = o.name → x.size = o.size) : (s.unlink o).before = s.before := by
  unfold CacheFiles.unlink
  split
  · rename_i hthere
    -- the file that is unlinked
    obtain ⟨x, hx, hname⟩ : ∃ x ∈ objFiles s.objs, x.name = o.name := by
      obtain ⟨d, hd, hthere⟩ := any_eq_true.mp hthere
      simp only [Bool.and_eq_true, decide_eq_true_eq, any_eq_true, beq_iff_eq] at hthere
      obtain ⟨hpath, f, hf, hsub⟩ := hthere
      exact ⟨_, mem_objFiles.mpr ⟨d, hd, f, hf, rfl⟩, by simp [ObjTimestampSize.name, hpath, hsub]⟩
    have hsum := sum_filter_ne (·.name) (fun o : ObjTimestampSize => (o.size : Int)) h.names hx
    rw [hname, ← objFiles_unlink, hsize x hx hname] at hsum
    have hrest : (s.objs.map (·.unlink o)).map (fun d => sizes d.debug + (d.dirDebug.getD 0 : Nat)) =
        s.objs.map fun d => sizes d.debug + (d.dirDebug.getD 0 : Nat) := by
      rw [map_map]
      refine map_congr_left fun d _ => ?_
      simp only [Function.comp, ObjDir.unlink]
      split <;> rfl
    simp only [CacheFiles.before, CacheFiles.bytes, objBytes_eq, hrest]
    omega
  · rfl

structure RoundsKeep (before stored : Int) (s : CacheFiles) : Prop where
  before : s.before = before
  stored : s.stored = stored
  distinct : Distinct s.objs

theorem RoundsKeep.unlink (h : RoundsKeep before stored s) (hk : SizesKnown (o :: os) s.objs) :
    RoundsKeep before stored (s.unlink o) ∧ objFiles (s.unlink o).objs ⊆ objFiles s.objs := by
  have hbefore := (unlink_before h.distinct (hk o (mem_cons_self ..))).trans h.before
  revert hbefore
  unfold CacheFiles.unlink
  split
  · refine fun hbefore => ⟨⟨hbefore, h.stored, h.distinct.unlink o⟩, fun x hx => ?_⟩
    rw [objFiles_unlink] at hx
    exact (mem_filter.mp hx).1
  · exact fun _ => ⟨h, fun _ hx => hx⟩

theorem SizesKnown.mono (h : SizesKnown os objs)
    (hsub : objFiles objs' ⊆ objFiles objs) : SizesKnown os objs' :=
  fun o ho x hx hname => h o ho x (hsub hx) hname

theorem RoundsKeep.unlinks (h : RoundsKeep before stored s) (hk : SizesKnown os s.objs) :
    RoundsKeep before stored (os.foldl CacheFiles.unlink s) ∧ objFiles (os.foldl CacheFiles.unlink s).objs ⊆ objFiles s.objs := by
  induction os generalizing s with
  | nil => exact ⟨h, fun _ hx => hx⟩
  | cons o os ih =>
    obtain ⟨h', hsub⟩ := h.unlink hk
    have hk' : SizesKnown os (s.unlink o).objs := fun o' ho' x hx => hk o' (mem_cons_of_mem _ ho') x (hsub hx)
    obtain ⟨h'', hsub'⟩ := ih h' hk'
    exact ⟨h'', fun _ hx => hsub (hsub' hx)⟩

theorem RoundsKeep.gcPass (h : RoundsKeep before stored s) (env : GcEnv) : RoundsKeep before stored (gcPass env s).1 :=
  ⟨(gcPass_before env s).1.trans h.before, h.stored, h.distinct.gcPass env⟩

theorem RoundsKeep.gcRounds (env : GcEnv) (target : Int) (keeps : List Nat)
    (h : RoundsKeep before stored s) (hk : SizesKnown os s.objs) :
    RoundsKeep before stored (gcRounds env target keeps os s) := by
  induction keeps generalizing os s with
  | nil => exact h
  | cons keep keeps ih =>
    rw [Firebuild.gcRounds]
    split
    · have hdrop : SizesKnown (os.drop keep) s.objs := fun o ho => hk o (mem_of_mem_drop ho)
      have htake : SizesKnown (os.take keep) s.objs := fun o ho => hk o (mem_of_mem_take ho)
      obtain ⟨h', hsub⟩ := h.unlinks hdrop
      exact ih (h'.gcPass env) ((htake.mono hsub).mono (objFiles_gcPass env _))
    · exact h

theorem Distinct.sizesKnown (h : Distinct objs) : SizesKnown (gcCollectSortedObjTimestampSizes objs) objs := by
  intro o ho x hx hname
  have ho : o ∈ objFiles objs := (perm_insertionSort _ _).mem_iff.mp ho
  exact congrArg (·.size) (inj_on_of_nodup_map h.names hx ho hname)

/-- `gc()` counts what it removes. If it is not skipped it also corrects the stored size. -/
theorem gc_accounted (env : GcEnv) (keeps : List Nat) (h : Distinct s.objs) :
    (gc env keeps s).before = s.before ∧ Distinct (gc env keeps s).objs ∧
      (env.Runs → (gc env keeps s).stored = s.before) := by
  unfold gc
  split
  · rename_i hskip
    refine ⟨rfl, h, fun hrun => ?_⟩
    rw [hrun.1, hrun.2] at hskip
    cases hskip
  · obtain ⟨hbefore, hfound⟩ := gcPass_before env s
    have hdistinct := h.gcPass env
    have hruns : (gcPass env s).1.thisRuns = (gcPass env s).2.thisRuns := rfl
    generalize Firebuild.gcPass env s = r at hbefore hfound hdistinct hruns
    obtain ⟨s1, n⟩ := r
    simp only at hbefore hfound hdistinct hruns ⊢
    have hstart : RoundsKeep s.before s.before { s1 with stored := n.cacheBytes + n.debugBytes - n.thisRuns } := by
      refine ⟨hbefore, ?_, hdistinct⟩
      rw [← hbefore, CacheFiles.before]
      simp only
      omega
    split
    · have hend := RoundsKeep.gcRounds env (env.targetSize - (n.cacheBytes + n.debugBytes - n.thisRuns)) keeps hstart
        hdistinct.sizesKnown
      exact ⟨hend.before, hend.distinct, fun _ => hend.stored⟩
    · exact ⟨hstart.before, hstart.distinct, fun _ => hstart.stored⟩

/-! ## Names stay distinct -/

section UpdateDir

variable {δ : Type} (path : δ → DirPath) (new : δ) (p : DirPath) (f : δ → δ)

theorem updateDir_paths (hpath : ∀ d, path (f d) = path d) (hnew : path new = p) (ds : List δ) :
    (updateDir path new p f ds).map path = ds.map path ++ if p ∈ ds.map path then [] else [p] := by
  induction ds with
  | nil => simp [updateDir, hpath, hnew]
  | cons d ds ih =>
    by_cases h : path d = p
    · simp [updateDir, h, hpath]
    · simp [updateDir, h, ih, Ne.symm h]

theorem mem_updateDir (h : d' ∈ updateDir path new p f ds) :
    d' ∈ ds ∨ d' = f (dirAt path new p ds) := by
  induction ds with
  | nil => exact .inr (by simpa [updateDir, dirAt] using h)
  | cons d ds ih =>
    by_cases hd : path d = p
    · have hat : dirAt path new p (d :: ds) = d := by simp [dirAt, hd]
      rw [updateDir, if_pos hd, mem_cons] at h
      rw [hat]
      tauto
    · rw [updateDir, if_neg hd, mem_cons] at h
      rw [dirAt_cons_of_ne path new p hd, mem_cons]
      tauto

end UpdateDir

section

variable (h : Distinct s.objs)
include h

theorem Distinct.objDirAt (p : DirPath) : ((s.objDirAt p).entries.map (·.subkey)).Nodup := by
  unfold CacheFiles.objDirAt dirAt
  cases hd : s.objs.find? (·.path = p) with
  | none => exact nodup_nil
  | some d => exact h.subkeys d (mem_of_find?_eq_some hd)

theorem Distinct.updateObjDir (p : DirPath) (f : ObjDir → ObjDir) (hpath : ∀ d, (f d).path = d.path)
    (hsub : ((f (s.objDirAt p)).entries.map (·.subkey)).Nodup) : Distinct (s.updateObjDir p f).objs := by
  refine ⟨?_, fun d' hd' => ?_⟩
  · rw [CacheFiles.updateObjDir, updateDir_paths ObjDir.path _ p f hpath rfl]
    split
    · rw [append_nil]
      exact h.paths
    rename_i hnew
    refine nodup_append.mpr ⟨h.paths, nodup_singleton p, fun x hx y hy hxy => ?_⟩
    rw [mem_singleton] at hy
    exact hnew (hy ▸ hxy ▸ hx)
  · rcases mem_updateDir ObjDir.path _ p f hd' with hd' | rfl
    · exact h.subkeys d' hd'
    · exact hsub

theorem Distinct.noteKey (o : ObjStore) : Distinct (s.noteKey o).objs := by
  unfold CacheFiles.noteKey
  split
  · exact h.updateObjDir _ _ (fun _ => rfl) (h.objDirAt _)
  · exact h

theorem Distinct.noteEntry (o : ObjStore) : Distinct (s.noteEntry o).objs := by
  unfold CacheFiles.noteEntry
  split
  · exact h.updateObjDir _ _ (fun _ => rfl) (h.objDirAt _)
  · exact h

omit h in
theorem ObjStore.file_subkey (o : ObjStore) (size : Nat) : (o.file size).subkey = o.subkey := by
  unfold ObjStore.file
  split <;> rfl

theorem Distinct.storeObj (o : ObjStore) : Distinct (s.storeObj o).objs := by
  have h := h.noteKey o
  unfold CacheFiles.storeObj
  generalize s.noteKey o = s at h
  simp only
  split
  · exact h
  split
  · exact h.updateObjDir _ _ (fun _ => rfl) (h.objDirAt _)
  split
  · exact h.updateObjDir _ _ (fun _ => rfl) (h.objDirAt _)
  split
  · exact h
  split
  · exact h
  -- the name is not taken
  rename_i hfree
  have hfree : o.subkey ∉ (s.objDirAt (objDir o.key)).entries.map (·.subkey) := by
    intro hmem
    obtain ⟨f, hf, hsub⟩ := mem_map.mp hmem
    exact hfree (any_eq_true.mpr ⟨f, hf, by simpa using hsub⟩)
  refine Distinct.noteEntry ?_ o
  refine h.updateObjDir _ _ (fun _ => rfl) ?_
  rw [map_append]
  refine nodup_append.mpr ⟨h.objDirAt _, nodup_singleton _, fun x hx y hy hxy => ?_⟩
  rw [map_singleton, mem_singleton, ObjStore.file_subkey] at hy
  rw [hxy, hy] at hx
  exact hfree hx

end

theorem storeFile_objs (s : CacheFiles) (t : StoreDetails) (writers maxWriters : Nat) (opened : Bool) (content : Bytes)
    (skip : Nat) : (s.storeFile t writers maxWriters opened content skip).objs = s.objs := by
  unfold CacheFiles.storeFile CacheFiles.keepBlob CacheFiles.noteBlob
  split
  · split <;> split <;> rfl
  · split <;> rfl

theorem moveStoreFile_objs (s : CacheFiles) (t : StoreDetails) (content : Bytes) :
    (s.moveStoreFile t content).objs = s.objs := by
  unfold CacheFiles.moveStoreFile CacheFiles.keepBlob CacheFiles.noteBlob
  split
  · split <;> split <;> rfl
  · rfl

/-! ## Runs -/

namespace Account

/-- The size file has a number that is the size of the cache without what this run did to it. -/
structure Right (a : Account) : Prop where
  sizeFile : a.sizeFile.getD 0 = a.cache.before ∧ 0 ≤ a.sizeFile.getD 0
  distinct : Distinct a.cache.objs
  readOnly : a.noStore = true → a.cache.thisRuns = 0

variable {a : Account} {s : CacheFiles}

theorem storedBytes_eq (h : 0 ≤ a.sizeFile.getD 0) : a.getStoredBytesFromCache = (a.sizeFile.getD 0, a) := by
  unfold getStoredBytesFromCache
  cases hf : a.sizeFile with
  | none => rfl
  | some bytes =>
    rw [hf, Option.getD_some] at h
    simp only [Option.getD_some]
    rw [if_neg (by omega)]

theorem Right.withCache (h : a.Right) (hbefore : s.before = a.cache.before)
    (hdistinct : Distinct s.objs) (hro : a.noStore = true → s.thisRuns = 0) : ({ a with cache := s } : Account).Right :=
  ⟨by simpa only [hbefore] using h.sizeFile, hdistinct, hro⟩

theorem Right.store (h : a.Right) (hbefore : s.before = a.cache.before)
    (hdistinct : Distinct s.objs) : (if a.noStore then a else { a with cache := s } : Account).Right := by
  split
  · exact h
  · rename_i hno
    exact h.withCache hbefore hdistinct fun h => absurd h hno

def Op.WritesAll : Op → Prop
  | .storeObj o => o.WritesAll
  | .storeFile .. | .moveStoreFile .. | .gc .. => True

theorem Right.step (h : a.Right) (op : Op) (hw : op.WritesAll) : (a.step op).Right := by
  cases op with
  | storeFile t writers maxWriters opened content skip =>
    refine h.store (storeFile_before ..) ?_
    rw [storeFile_objs]
    exact h.distinct
  | moveStoreFile t content =>
    refine h.store (moveStoreFile_before ..) ?_
    rw [moveStoreFile_objs]
    exact h.distinct
  | storeObj o => exact h.store (storeObj_before _ o hw) (h.distinct.storeObj o)
  | gc env keeps =>
    obtain ⟨hbefore, hdistinct, -⟩ := gc_accounted { env with noStore := a.noStore } keeps h.distinct
    refine h.withCache hbefore hdistinct fun hno => ?_
    rw [hno, gc, if_pos (by simp)]
    exact h.readOnly hno

/-- A run of a supervisor, and those after it: stores and collections, and in the end the size
    update, after which nothing is stored. -/
inductive Run (a₀ : Account) : Bool → Account → Prop where
  | start : Run a₀ false a₀
  | op {a : Account} (op : Op) (hw : op.WritesAll) : Run a₀ false a → Run a₀ false (a.step op)
  /-- The end of a build. -/
  | save {a : Account} : Run a₀ false a → Run a₀ true a.readUpdateSave
  /-- A run with --gc. If `no_fetch_` makes it skip the collection, it does not know the size. -/
  | collect {a : Account} (env : GcEnv) (keeps : List Nat) (hfetch : env.noFetch = false) :
      Run a₀ false a → Run a₀ true (a.step (.gc env keeps)).updateStoredBytes
  | restart {a : Account} (noStore : Bool) : Run a₀ true a → Run a₀ false (a.restart noStore)

/-- The size file has the size of the cache. -/
structure Updated (a : Account) : Prop where
  sizeFile : a.sizeFile.getD 0 = a.cache.bytes
  distinct : Distinct a.cache.objs

theorem Right.readUpdateSave (h : a.Right) : a.readUpdateSave.Updated := by
  have hread : a.readStoredCachedBytes = { a with cache := { a.cache with stored := a.sizeFile.getD 0 } } := by
    rw [readStoredCachedBytes, storedBytes_eq h.sizeFile.2]
  have hbefore : a.cache.before = a.cache.bytes - a.cache.thisRuns := rfl
  unfold Account.readUpdateSave updateStoredBytes
  rw [hread]
  split
  · rename_i hno
    have hruns := h.readOnly hno
    refine ⟨?_, h.distinct⟩
    show a.sizeFile.getD 0 = a.cache.bytes
    rw [h.sizeFile.1]
    omega
  · refine ⟨?_, h.distinct⟩
    show a.cache.thisRuns + a.sizeFile.getD 0 = a.cache.bytes
    rw [h.sizeFile.1]
    omega

theorem Right.collect (h : a.Right) (keeps : List Nat) (hfetch : env.noFetch = false) :
    (a.step (.gc env keeps)).updateStoredBytes.Updated := by
  obtain ⟨hbefore, hdistinct, hstored⟩ := gc_accounted { env with noStore := a.noStore } keeps h.distinct
  have hright := h.step (.gc env keeps) trivial
  have hmember : env.noFetch = false ∧ a.noStore = false → (a.step (.gc env keeps)).cache.stored =
      (a.step (.gc env keeps)).cache.before := fun hrun => (hstored hrun).trans hbefore.symm
  change _ ∧ (a.step (.gc env keeps)).noStore = false → _ at hmember
  generalize a.step (.gc env keeps) = a' at hright hmember
  have hunfold : a'.cache.before = a'.cache.bytes - a'.cache.thisRuns := rfl
  unfold updateStoredBytes
  split
  · rename_i hno
    have hruns := hright.readOnly hno
    refine ⟨?_, hright.distinct⟩
    rw [hright.sizeFile.1]
    omega
  · rename_i hno
    refine ⟨?_, hright.distinct⟩
    show a'.cache.thisRuns + a'.cache.stored = a'.cache.bytes
    have := hmember ⟨hfetch, Bool.not_eq_true _ ▸ hno⟩
    omega

theorem bytes_nonneg (s : CacheFiles) : 0 ≤ s.bytes := by
  have hsum : ∀ {α : Type} (bytes : α → Int) (l : List α), (∀ a, 0 ≤ bytes a) → 0 ≤ (l.map bytes).sum := by
    intro α bytes l h
    refine sum_nonneg fun x hx => ?_
    obtain ⟨a, -, rfl⟩ := mem_map.mp hx
    exact h a
  have hnat : ∀ {α : Type} (size : α → Nat) (l : List α), 0 ≤ (l.map fun a => (size a : Int)).sum :=
    fun size l => hsum _ l fun a => Int.natCast_nonneg _
  have hobjs := hsum ObjDir.bytes s.objs fun d => by
    have := hnat ObjFile.size d.entries
    have := hnat Prod.snd d.debug
    unfold ObjDir.bytes entrySizes sizes
    omega
  have hblobs := hsum BlobDir.bytes s.blobs fun d => by
    have := hnat (fun b : Hash × Bytes => b.2.length) d.blobs
    have := hnat Prod.snd d.debug
    unfold BlobDir.bytes dataSizes sizes
    omega
  unfold CacheFiles.bytes
  omega

theorem Updated.restart (h : a.Updated) (noStore : Bool) : (a.restart noStore).Right := by
  have hbytes : (a.restart noStore).cache.before = a.cache.bytes := Int.sub_zero _
  refine ⟨⟨?_, ?_⟩, h.distinct, fun _ => rfl⟩
  · rw [hbytes]
    exact h.sizeFile
  show 0 ≤ a.sizeFile.getD 0
  rw [h.sizeFile]
  exact bytes_nonneg _

theorem Run.inv (h : Run a0 saved a) (h0 : a0.Right) :
    (saved = false → a.Right) ∧ (saved = true → a.Updated) := by
  induction h with
  | start => exact ⟨fun _ => h0, nofun⟩
  | op op hw _ ih => exact ⟨fun _ => (ih.1 rfl).step op hw, nofun⟩
  | save _ ih => exact ⟨nofun, fun _ => (ih.1 rfl).readUpdateSave⟩
  | collect env keeps hfetch _ ih => exact ⟨nofun, fun _ => (ih.1 rfl).collect keeps hfetch⟩
  | restart noStore _ ih => exact ⟨fun _ => (ih.2 rfl).restart noStore, nofun⟩

def empty : Account := ⟨{}, none, false⟩

def storeOne : Op :=
  .storeFile { debugCache := false, codec := magicCodec, cfg := {}, fail := none, tmpfile := "new.XXXXXX", noteLength := 0 }
    0 0 true [1] 0

/-- The size file has the byte of this run, and the run has it, too. -/
theorem a_size_update_counts_the_run_twice :
    (empty.step storeOne).readUpdateSave.storedBytes + (empty.step storeOne).readUpdateSave.cache.thisRuns ≠
      (empty.step storeOne).readUpdateSave.cache.bytes := by
  decide

/-- The collection was skipped, and the stored size had not been read. -/
theorem a_skipped_collection_stores_no_size : let a : Account := (empty.step storeOne).readUpdateSave.restart false
    (a.step (.gc { shortcutTries := 20, noFetch := true } [])).updateStoredBytes.storedBytes = 0 ∧ a.cache.bytes = 1 := by
  decide

end Account

end Firebuild
