/-
  Firebuild.Gc — garbage collection of the cache (`execed_process_cacher.cc`:
  `is_entry_usable`, `blob_present`, `gc`; `obj_cache.cc`: `gc_obj_cache_dir`,
  `gc_collect_sorted_obj_timestamp_sizes`; `blob_cache.cc`: `gc_blob_cache_dir`,
  `delete_entries`).

  A pass goes through the object cache, keeps the first usable entries of every directory
  and collects the blobs they refer to, and then removes the other blobs. Passes are
  repeated with fewer and fewer objects while the cache is too big. How many objects a
  round keeps is computed in floating point; here it is any list of numbers, which ends
  where `kept_ratio` is not positive.

  Every unlink() succeeds and nobody else uses the cache.

  Proved: `gc_leaves_no_dangling_reference`; `gc_leaves_no_stray_blob`, with
  `a_blob_of_a_removed_entry_is_kept`.
-/

import Mathlib.Algebra.Order.BigOperators.Group.List
import Mathlib.Algebra.Ring.Int.Defs
import Mathlib.Data.List.TakeWhile
import Firebuild.CacheDirs
import Firebuild.Lib.Collect

namespace Firebuild

open Lib.Collect
open List

structure GcEnv where
  shortcutTries : Int
  /-- FB_DEBUG_CACHE -/
  debugCache : Bool := false
  noStore : Bool := false
  noFetch : Bool := false
  maxCacheSize : Int := 0
  /-- `max_cache_size * 0.8` -/
  targetSize : Int := 0
  isInReadOnlyLocation : FileName → Bool := fun _ => false
  fs : FileName → FsEntry := fun _ => .missing

structure GcState where
  referenced : List Hash := []
  cacheBytes : Int := 0
  debugBytes : Int := 0
  unexpectedFileBytes : Int := 0
  /-- `this_runs_cached_bytes_` -/
  thisRuns : Int
  deriving DecidableEq, Repr

def GcState.updateCachedBytes (n : GcState) (bytes : Int) : GcState := { n with thisRuns := n.thisRuns + bytes }

@[simp] theorem GcState.updateCachedBytes_referenced (n : GcState) (bytes : Int) :
    (n.updateCachedBytes bytes).referenced = n.referenced := rfl

def sizes {α : Type} (files : List (α × Nat)) : Int := (files.map fun f => (f.2 : Int)).sum

def dataSizes (blobs : List (Hash × Bytes)) : Int := (blobs.map fun b => (b.2.length : Int)).sum

def entrySizes (entries : List ObjFile) : Int := (entries.map fun f => (f.size : Int)).sum

/-! ## Usable entries -/

/-- The key of the blob an output file refers to; none if the data is inlined or there is no
    hash. -/
def SerializedFile.referenced (f : SerializedFile) : Option Hash :=
  if f.type = .isReg ∧ f.inlineData = [] ∧ (f.hash.isSome = true ∨ f.compressedHash.isSome = true) then
    some (BlobRef.ofHashes f.hash f.compressedHash).key
  else none

/-- The same for the data of an inherited fd. -/
def AppendToFd.referenced (r : AppendToFd) : Option Hash :=
  if r.inlineData = [] then some (BlobRef.ofHashes r.hash r.compressedHash).key else none

/-- In the order in which they are checked. -/
def ProcessOutputs.referenced (o : ProcessOutputs) : List Hash :=
  o.pathIsreg.filterMap (·.referenced) ++ o.appendToFd.filterMap (·.referenced)

/-- A regular system file that is there is not the one of the entry. -/
def systemFileChanged (env : GcEnv) (inputs : ProcessInputs) : Bool :=
  inputs.path.any fun f =>
    decide ((fileToFileInfo f).type = .isReg) && env.isInReadOnlyLocation f.path &&
      !fileInfoMatches (fileToFileInfo f) (env.fs f.path) && fileInfoMatches { type := .exist } (env.fs f.path)

/-- `is_entry_usable`: with `referenced_blobs` after it. What can't be retrieved is not
    asked about. -/
def isEntryUsable (env : GcEnv) (present : Hash → Bool) (content : ObjContent) (referenced : List Hash) :
    Bool × List Hash :=
  match content with
  | .unretrievable | .otherTag => (false, referenced)
  | .entry pio =>
    if systemFileChanged env pio.inputs then (false, referenced)
    -- each step is `blob_present()`
    else markAll present pio.outputs.referenced referenced

/-! ## The object cache -/

/-- The loop over the entries of a directory, with the number of usable ones so far: the
    entries that are kept. -/
def gcEntries (env : GcEnv) (present : Hash → Bool) : List ObjFile → Nat → GcState → List ObjFile × GcState
  | [], _, n => ([], n)
  | f :: fs, usable, n =>
    -- "This entry will never be tried."
    if (usable : Int) ≥ env.shortcutTries then gcEntries env present fs usable (n.updateCachedBytes (-f.size))
    else
      match isEntryUsable env present f.content n.referenced with
      | (true, referenced) =>
        let rest := gcEntries env present fs (usable + 1) { n with referenced, cacheBytes := n.cacheBytes + f.size }
        (f :: rest.1, rest.2)
      | (false, referenced) => gcEntries env present fs usable (({ n with referenced } : GcState).updateCachedBytes (-f.size))

/-- The debugging files of objects that are there, if they are kept at all. -/
def ObjDir.keptDebug (env : GcEnv) (d : ObjDir) : List (Subkey × Nat) :=
  if env.debugCache then d.debug.filter fun f => d.entries.any (·.subkey == f.1) else []

def ObjDir.deletedDebug (env : GcEnv) (d : ObjDir) : List (Subkey × Nat) :=
  if env.debugCache then d.debug.filter fun f => !d.entries.any (·.subkey == f.1) else d.debug

def ObjDir.keptDirDebug (env : GcEnv) (d : ObjDir) : Option Nat := if env.debugCache then d.dirDebug else none

def ObjDir.deletedDirDebug (env : GcEnv) (d : ObjDir) : Option Nat := if env.debugCache then none else d.dirDebug

/-- No files but "%_directory_debug.json". -/
def ObjDir.hasValidEntries (d : ObjDir) : Bool :=
  !(d.entries.isEmpty && d.debug.isEmpty && d.unexpected.isEmpty && d.special.isEmpty)

def DirPath.inside (path dir : DirPath) : Bool := dir.isPrefixOf path && path != dir

/-- `gc_obj_cache_dir` for one directory; what is left of the ones inside is among `done`. -/
def gcObjCacheDir (env : GcEnv) (present : Hash → Bool) (done : List ObjDir) (d : ObjDir) (n : GcState) :
    Option ObjDir × GcState :=
  let n := { n with
    debugBytes := n.debugBytes + sizes (d.keptDebug env) + (d.keptDirDebug env).getD 0
    unexpectedFileBytes := n.unexpectedFileBytes + sizes d.unexpected }
  -- delete_entries()
  let n := n.updateCachedBytes (-(sizes (d.deletedDebug env) + (d.deletedDirDebug env).getD 0))
  let (entries, n) := gcEntries env present (listSubkeysInternal env.debugCache d.entries) 0 n
  let d := { d with entries, debug := d.keptDebug env, dirDebug := d.keptDirDebug env }
  -- "Remove empty directory."
  if d.hasValidEntries = false ∧ done.any (·.path.inside d.path) = false ∧ d.path ≠ [] then
    (none, { n.updateCachedBytes (-(d.dirDebug.getD 0 : Nat)) with debugBytes := n.debugBytes - (d.dirDebug.getD 0 : Nat) })
  else (some d, n)

/-! ## The blob cache -/

def BlobDir.keptDebug (env : GcEnv) (d : BlobDir) : List (Hash × Nat) :=
  if env.debugCache then d.debug.filter fun f => d.blobs.any (·.1 == f.1) else []

def BlobDir.deletedDebug (env : GcEnv) (d : BlobDir) : List (Hash × Nat) :=
  if env.debugCache then d.debug.filter fun f => !d.blobs.any (·.1 == f.1) else d.debug

def BlobDir.isEmpty (d : BlobDir) : Bool :=
  d.blobs.isEmpty && d.debug.isEmpty && d.unexpected.isEmpty && d.special.isEmpty

def gcBlobCacheDir (env : GcEnv) (referenced : List Hash) (done : List BlobDir) (d : BlobDir) (n : GcState) :
    Option BlobDir × GcState :=
  let kept := d.blobs.filter fun b => referenced.contains b.1
  -- "Not referenced, can be cleaned up"
  let deleted := d.blobs.filter fun b => !referenced.contains b.1
  let n := { n with
    cacheBytes := n.cacheBytes + dataSizes kept
    debugBytes := n.debugBytes + sizes (d.keptDebug env)
    unexpectedFileBytes := n.unexpectedFileBytes + sizes d.unexpected }
  -- delete_entries(): with a blob goes its debugging file, which was counted above
  let deletedToo := (d.keptDebug env).filter fun f => deleted.any (·.1 == f.1)
  let n := n.updateCachedBytes (-(dataSizes deleted + sizes (d.deletedDebug env)))
  let n := { n.updateCachedBytes (-sizes deletedToo) with debugBytes := n.debugBytes - sizes deletedToo }
  let d : BlobDir := { d with blobs := kept, debug := (d.keptDebug env).filter fun f => !deleted.any (·.1 == f.1) }
  if d.isEmpty = true ∧ done.any (·.path.inside d.path) = false ∧ d.path ≠ [] then (none, n) else (some d, n)

/-! ## Passes and rounds -/

/-- The cache on disk, with what the supervisor knows about its size. -/
structure CacheFiles where
  objs : List ObjDir := []
  blobs : List BlobDir := []
  /-- `this_runs_cached_bytes_` -/
  thisRuns : Int := 0
  /-- `stored_cached_bytes_` -/
  stored : Int := 0
  deriving DecidableEq, Repr

def CacheFiles.present (s : CacheFiles) (key : Hash) : Bool := (blobAt s.blobs key).isSome

/-- `obj_cache->gc()`, then `blob_cache->gc()` with the blobs it has collected. -/
def gcPass (env : GcEnv) (s : CacheFiles) : CacheFiles × GcState :=
  let (objs, n) := walk (gcObjCacheDir env s.present) s.objs [] { thisRuns := s.thisRuns }
  let (blobs, n) := walk (gcBlobCacheDir env n.referenced) s.blobs [] n
  ({ s with objs, blobs, thisRuns := n.thisRuns }, n)

structure ObjTimestampSize where
  path : DirPath
  subkey : Subkey
  mtime : Nat
  size : Nat
  deriving DecidableEq, Repr

def gcCollectSortedObjTimestampSizes (objs : List ObjDir) : List ObjTimestampSize :=
  (objs.flatMap fun d => d.entries.map fun f => ⟨d.path, f.subkey, f.mtime, f.size⟩).insertionSort fun a b =>
    b.mtime ≤ a.mtime

def ObjDir.unlink (d : ObjDir) (o : ObjTimestampSize) : ObjDir :=
  if d.path = o.path then { d with entries := d.entries.filter (·.subkey ≠ o.subkey) } else d

/-- unlink() of an object, which fails if it is gone. -/
def CacheFiles.unlink (s : CacheFiles) (o : ObjTimestampSize) : CacheFiles :=
  if s.objs.any fun d => decide (d.path = o.path) && d.entries.any (·.subkey == o.subkey) then
    { s with objs := s.objs.map (·.unlink o), thisRuns := s.thisRuns - o.size }
  else s

def gcRounds (env : GcEnv) (target : Int) : List Nat → List ObjTimestampSize → CacheFiles → CacheFiles
  | [], _, s => s
  | keepObjectsCount :: keeps, objTsSizes, s =>
    if s.thisRuns > target then
      gcRounds env target keeps (objTsSizes.take keepObjectsCount)
        (gcPass env ((objTsSizes.drop keepObjectsCount).foldl CacheFiles.unlink s)).1
    else s

def gc (env : GcEnv) (keeps : List Nat) (s : CacheFiles) : CacheFiles :=
  if env.noFetch || env.noStore then s
  else
    let (s, n) := gcPass env s
    let s := { s with stored := n.cacheBytes + n.debugBytes - n.thisRuns }
    if s.stored + s.thisRuns > env.maxCacheSize then
      gcRounds env (env.targetSize - s.stored) keeps (gcCollectSortedObjTimestampSizes s.objs) s
    else s

/-! ## What a pass counts -/

def ObjDir.bytes (d : ObjDir) : Int := entrySizes d.entries + sizes d.debug + (d.dirDebug.getD 0 : Nat)

def BlobDir.bytes (d : BlobDir) : Int := dataSizes d.blobs + sizes d.debug

/-- The regular files with valid names. -/
def CacheFiles.bytes (s : CacheFiles) : Int := (s.objs.map ObjDir.bytes).sum + (s.blobs.map BlobDir.bytes).sum

/-- The size on disk that is not counted as this run's. -/
def CacheFiles.before (s : CacheFiles) : Int := s.bytes - s.thisRuns

section Counts

variable {α δ : Type} {bytes : δ → Int} {visit : List δ → δ → GcState → Option δ × GcState}

theorem sum_filter_add (p : α → Bool) (f : α → Int) (l : List α) :
    ((l.filter p).map f).sum + ((l.filter fun a => !p a).map f).sum = (l.map f).sum := by
  rw [← sum_append, ← map_append]
  exact ((filter_append_perm p l).map f).sum_eq

theorem sizes_filter_add (p : α × Nat → Bool) (l : List (α × Nat)) :
    sizes (l.filter p) + sizes (l.filter fun f => !p f) = sizes l :=
  sum_filter_add p _ l

theorem dataSizes_filter_add (p : Hash × Bytes → Bool) (l : List (Hash × Bytes)) :
    dataSizes (l.filter p) + dataSizes (l.filter fun b => !p b) = dataSizes l :=
  sum_filter_add p _ l

/-- What a pass removes of `before` bytes, and what it finds and keeps, when `after` bytes are
    left. -/
structure Counts (before after : Int) (n n' : GcState) : Prop where
  removed : n'.thisRuns = n.thisRuns - before + after
  found : n'.cacheBytes + n'.debugBytes = n.cacheBytes + n.debugBytes + after

theorem gcEntries_counts (env : GcEnv) (present : Hash → Bool) (fs : List ObjFile) (usable : Nat) (n : GcState) :
    Counts (entrySizes fs) (entrySizes (gcEntries env present fs usable n).1) n (gcEntries env present fs usable n).2 := by
  induction fs generalizing usable n with
  | nil => exact ⟨by simp [gcEntries], by simp [gcEntries, entrySizes]⟩
  | cons f fs ih =>
    have hcons : ∀ l, entrySizes (f :: l) = f.size + entrySizes l := fun l => by simp [entrySizes]
    -- the entry is removed
    have hremove : ∀ n' : GcState, n'.thisRuns = n.thisRuns - f.size → n'.cacheBytes = n.cacheBytes →
        n'.debugBytes = n.debugBytes → Counts (entrySizes (f :: fs)) (entrySizes (gcEntries env present fs usable n').1) n
          (gcEntries env present fs usable n').2 := by
      intro n' h1 h2 h3
      obtain ⟨hr, hf⟩ := ih usable n'
      exact ⟨by rw [hcons]; omega, by rw [hf]; omega⟩
    rw [gcEntries]
    split
    · exact hremove _ rfl rfl rfl
    split
    · rename_i referenced _
      obtain ⟨hr, hf⟩ := ih (usable + 1) { n with referenced, cacheBytes := n.cacheBytes + f.size }
      simp only [hcons]
      exact ⟨by rw [hr]; simp only; omega, by rw [hf]; simp only; omega⟩
    · exact hremove _ rfl rfl rfl

theorem debug_sizes (debugCache : Bool) (p : α × Nat → Bool) (l : List (α × Nat)) :
    sizes (if debugCache then l.filter p else []) + sizes (if debugCache then l.filter fun f => !p f else l) = sizes l := by
  split
  · exact sizes_filter_add p l
  · simp [sizes]

theorem ObjDir.dirDebug_sizes (env : GcEnv) (d : ObjDir) :
    (d.keptDirDebug env).getD 0 + (d.deletedDirDebug env).getD 0 = d.dirDebug.getD 0 := by
  unfold ObjDir.keptDirDebug ObjDir.deletedDirDebug
  split
  · rfl
  · simp

def leftBytes {δ : Type} (bytes : δ → Int) (left : Option δ) : Int := (left.toList.map bytes).sum

theorem leftBytes_none (bytes : δ → Int) : leftBytes bytes none = 0 := rfl

theorem leftBytes_some (bytes : δ → Int) (d : δ) : leftBytes bytes (some d) = bytes d := Int.add_zero _

theorem gcObjCacheDir_counts (env : GcEnv) (present : Hash → Bool) (done : List ObjDir) (d : ObjDir) (n : GcState) :
    Counts d.bytes (leftBytes ObjDir.bytes (gcObjCacheDir env present done d n).1) n
      (gcObjCacheDir env present done d n).2 := by
  have hdebug : sizes (d.keptDebug env) + sizes (d.deletedDebug env) = sizes d.debug := debug_sizes _ _ _
  have hdir := d.dirDebug_sizes env
  have hsort : entrySizes (listSubkeysInternal env.debugCache d.entries) = entrySizes d.entries :=
    ((perm_insertionSort _ d.entries).map _).sum_eq
  unfold gcObjCacheDir
  simp only
  have hentries := gcEntries_counts env present (listSubkeysInternal env.debugCache d.entries) 0 (({ n with
      debugBytes := n.debugBytes + sizes (d.keptDebug env) + (d.keptDirDebug env).getD 0
      unexpectedFileBytes := n.unexpectedFileBytes + sizes d.unexpected } : GcState).updateCachedBytes
      (-(sizes (d.deletedDebug env) + (d.deletedDirDebug env).getD 0)))
  generalize gcEntries env present (listSubkeysInternal env.debugCache d.entries) 0 _ = r at hentries
  obtain ⟨entries, n'⟩ := r
  obtain ⟨hr, hf⟩ := hentries
  simp only [GcState.updateCachedBytes] at hr hf ⊢
  split
  · -- the directory is removed, with its debugging file
    rename_i hempty
    have hnil := hempty.1
    simp only [ObjDir.hasValidEntries, Bool.not_eq_false', Bool.and_eq_true, List.isEmpty_iff] at hnil
    obtain ⟨⟨⟨rfl, hnodebug⟩, -⟩, -⟩ := hnil
    have hzero : sizes (d.keptDebug env) = 0 := by rw [hnodebug]; rfl
    have hnone : entrySizes [] = 0 := rfl
    refine ⟨?_, ?_⟩
    · simp only [leftBytes_none, ObjDir.bytes]
      omega
    · simp only [leftBytes_none]
      omega
  · refine ⟨?_, ?_⟩
    · simp only [leftBytes_some, ObjDir.bytes]
      omega
    · simp only [leftBytes_some, ObjDir.bytes]
      omega

theorem gcBlobCacheDir_counts (env : GcEnv) (referenced : List Hash) (done : List BlobDir) (d : BlobDir) (n : GcState) :
    Counts d.bytes (leftBytes BlobDir.bytes (gcBlobCacheDir env referenced done d n).1) n
      (gcBlobCacheDir env referenced done d n).2 := by
  have hdebug : sizes (d.keptDebug env) + sizes (d.deletedDebug env) = sizes d.debug := debug_sizes _ _ _
  have hblobs := dataSizes_filter_add (fun b => referenced.contains b.1) d.blobs
  have htoo := sizes_filter_add
    (fun f => (d.blobs.filter fun b => !referenced.contains b.1).any (·.1 == f.1)) (d.keptDebug env)
  unfold gcBlobCacheDir
  simp only [GcState.updateCachedBytes]
  split
  · rename_i hempty
    have hnil := hempty.1
    simp only [BlobDir.isEmpty, Bool.and_eq_true, List.isEmpty_iff] at hnil
    obtain ⟨⟨⟨hkept, hnodebug⟩, -⟩, -⟩ := hnil
    have hzero : dataSizes (d.blobs.filter fun b => referenced.contains b.1) = 0 := by rw [hkept]; rfl
    have hnotes : sizes ((d.keptDebug env).filter fun f =>
        !(d.blobs.filter fun b => !referenced.contains b.1).any (·.1 == f.1)) = 0 := by rw [hnodebug]; rfl
    refine ⟨?_, ?_⟩
    · simp only [leftBytes_none, BlobDir.bytes]
      omega
    · simp only [leftBytes_none]
      omega
  · refine ⟨?_, ?_⟩
    · simp only [leftBytes_some, BlobDir.bytes]
      omega
    · simp only [leftBytes_some, BlobDir.bytes]
      omega

theorem walk_counts
    (hv : ∀ done d n, Counts (bytes d) (leftBytes bytes (visit done d n).1) n (visit done d n).2) (ds : List δ)
    (n : GcState) :
    Counts (ds.map bytes).sum ((walk visit ds [] n).1.map bytes).sum n (walk visit ds [] n).2 := by
  let I := fun (seen done : List δ) (n' : GcState) => Counts (seen.map bytes).sum (done.map bytes).sum n n'
  have hstart : I [] [] n := ⟨by simp, by simp⟩
  refine walk_inv I ?_ ds [] hstart
  rintro seen done d n' ⟨hr, hf⟩
  obtain ⟨hr', hf'⟩ := hv done d n'
  unfold leftBytes at hr' hf'
  refine ⟨?_, ?_⟩
  · simp only [map_append, sum_append, map_cons, map_nil, sum_cons, sum_nil]
    omega
  · simp only [map_append, sum_append]
    omega

/-- A pass counts what it removes, and finds everything that is left. -/
theorem gcPass_before (env : GcEnv) (s : CacheFiles) : (gcPass env s).1.before = s.before ∧
      (gcPass env s).2.cacheBytes + (gcPass env s).2.debugBytes = (gcPass env s).1.bytes := by
  have hobjs := walk_counts (gcObjCacheDir_counts env s.present) s.objs { thisRuns := s.thisRuns }
  unfold gcPass CacheFiles.before CacheFiles.bytes
  generalize walk (gcObjCacheDir env s.present) s.objs [] _ = r at hobjs
  obtain ⟨objs, n⟩ := r
  have hblobs := walk_counts (gcBlobCacheDir_counts env n.referenced) s.blobs n
  obtain ⟨hr, hf⟩ := hobjs
  obtain ⟨hr', hf'⟩ := hblobs
  simp only at hr hf hr' hf' ⊢
  omega

end Counts

/-! ## What a pass keeps -/

namespace ObjFile

def referenced (f : ObjFile) : List Hash :=
  match f.content with
  | .unretrievable | .otherTag => []
  | .entry pio => pio.outputs.referenced

def usable (env : GcEnv) (present : Hash → Bool) (f : ObjFile) : Bool :=
  match f.content with
  | .unretrievable | .otherTag => false
  | .entry pio => !systemFileChanged env pio.inputs && pio.outputs.referenced.all present

/-- The blobs that are collected when the entry is looked at: those before the first one that
    is missing. -/
def collected (env : GcEnv) (present : Hash → Bool) (f : ObjFile) : List Hash :=
  match f.content with
  | .unretrievable | .otherTag => []
  | .entry pio => if systemFileChanged env pio.inputs then [] else pio.outputs.referenced.takeWhile present

end ObjFile

def ObjDir.tried (env : GcEnv) (d : ObjDir) : List ObjFile := listSubkeysInternal env.debugCache d.entries

def ObjDir.kept (env : GcEnv) (present : Hash → Bool) (d : ObjDir) : List ObjFile :=
  keepFirst (·.usable env present) env.shortcutTries.toNat (d.tried env)

def ObjDir.checked (env : GcEnv) (present : Hash → Bool) (d : ObjDir) : List ObjFile :=
  looked (·.usable env present) env.shortcutTries.toNat (d.tried env)

/-- The directory with what is left in it. -/
def ObjDir.left (env : GcEnv) (present : Hash → Bool) (d : ObjDir) : ObjDir :=
  { d with entries := d.kept env present, debug := d.keptDebug env, dirDebug := d.keptDirDebug env }

variable {env : GcEnv} {present : Hash → Bool} {f : ObjFile} {d : ObjDir} {n : GcState}

theorem isEntryUsable_spec (env : GcEnv) (f : ObjFile) (hm : Marked present referenced) :
    (isEntryUsable env present f.content referenced).1 = f.usable env present ∧
      ∀ k, k ∈ (isEntryUsable env present f.content referenced).2 ↔ k ∈ referenced ∨ k ∈ f.collected env present := by
  unfold isEntryUsable ObjFile.usable ObjFile.collected
  cases f.content with
  | unretrievable | otherTag => simp
  | entry pio =>
    by_cases hch : systemFileChanged env pio.inputs = true
    · simp [hch]
    · simpa [hch] using markAll_spec hm

theorem ObjFile.referenced_present (h : f.usable env present = true) : ∀ k ∈ f.referenced, present k = true := by
  unfold ObjFile.usable at h
  unfold ObjFile.referenced
  cases hc : f.content with
  | unretrievable | otherTag => simp
  | entry pio =>
    rw [hc] at h
    simp only [Bool.and_eq_true, all_eq_true] at h
    exact h.2

theorem ObjFile.collected_present : ∀ k ∈ f.collected env present, present k = true := by
  unfold ObjFile.collected
  cases f.content with
  | unretrievable | otherTag => simp
  | entry pio =>
    intro k hk
    dsimp only at hk
    split at hk
    · cases hk
    · exact mem_takeWhile_imp hk

theorem ObjFile.collected_of_usable (h : f.usable env present = true) : f.collected env present = f.referenced := by
  unfold ObjFile.usable at h
  unfold ObjFile.collected ObjFile.referenced
  cases hc : f.content with
  | unretrievable | otherTag => rfl
  | entry pio =>
    rw [hc] at h
    simp only [Bool.and_eq_true, Bool.not_eq_true', all_eq_true] at h
    simp only [h.1]
    exact takeWhile_eq_self_iff.mpr h.2

/-- The entries it keeps, and the marks: by induction on the entries, with the number of
    those still to be kept. -/
theorem gcEntries_spec (env : GcEnv) (fs : List ObjFile) (usable : Nat) (n : GcState) (hm : Marked present n.referenced) :
    (gcEntries env present fs usable n).1 = keepFirst (·.usable env present) (env.shortcutTries.toNat - usable) fs ∧
      ∀ k, k ∈ (gcEntries env present fs usable n).2.referenced ↔ k ∈ n.referenced ∨
        ∃ f ∈ looked (·.usable env present) (env.shortcutTries.toNat - usable) fs, k ∈ f.collected env present := by
  induction fs generalizing usable n with
  | nil =>
    cases env.shortcutTries.toNat - usable with
    | zero | succ m => simp [gcEntries, keepFirst, looked]
  | cons f fs ih =>
    rw [gcEntries]
    by_cases htries : (usable : Int) ≥ env.shortcutTries
    · -- the limit is reached
      obtain ⟨hkept, hmarks⟩ := ih usable (n.updateCachedBytes (-f.size)) hm
      have h0 : env.shortcutTries.toNat - usable = 0 := by omega
      rw [h0] at hkept
      rw [h0] at hmarks
      rw [if_pos htries, h0]
      exact ⟨hkept, by simpa [looked] using hmarks⟩
    · rw [if_neg htries]
      obtain ⟨m, hlimit⟩ : ∃ m, env.shortcutTries.toNat - usable = m + 1 :=
        ⟨env.shortcutTries.toNat - usable - 1, by omega⟩
      have hm1 : env.shortcutTries.toNat - (usable + 1) = m := by omega
      obtain ⟨huse, hmem⟩ := isEntryUsable_spec env f hm
      have hpresent : Marked present (isEntryUsable env present f.content n.referenced).2 := by
        intro k hk
        rcases (hmem k).mp hk with hk | hk
        · exact hm k hk
        · exact ObjFile.collected_present k hk
      generalize isEntryUsable env present f.content n.referenced = r at huse hmem hpresent
      obtain ⟨ok, referenced⟩ := r
      cases ok with
      | true =>
        have hgood : f.usable env present = true := huse.symm
        obtain ⟨hkept, hmarks⟩ := ih (usable + 1) { n with referenced, cacheBytes := n.cacheBytes + f.size } hpresent
        rw [hm1] at hkept hmarks
        refine ⟨?_, fun k => ?_⟩
        · rw [hlimit, keepFirst_cons_good hgood, ← hkept]
        rw [hlimit, looked, if_pos hgood]
        refine (hmarks k).trans ?_
        simp only [hmem k, mem_cons, exists_eq_or_imp, or_assoc]
      | false =>
        have hbad : f.usable env present = false := huse.symm
        obtain ⟨hkept, hmarks⟩ := ih usable (({ n with referenced } : GcState).updateCachedBytes (-f.size)) hpresent
        refine ⟨?_, fun k => ?_⟩
        · rw [keepFirst_cons_bad hbad, ← hkept]
        rw [hlimit] at hmarks ⊢
        rw [looked, if_neg (by rw [hbad]; decide)]
        refine (hmarks k).trans ?_
        simp only [GcState.updateCachedBytes_referenced, hmem k, mem_cons, exists_eq_or_imp, or_assoc]

theorem gcObjCacheDir_spec (done : List ObjDir) (d : ObjDir) (n : GcState) (hm : Marked present n.referenced) :
    (gcObjCacheDir env present done d n).1 =
      (if (d.left env present).hasValidEntries = false ∧ done.any (·.path.inside d.path) = false ∧ d.path ≠ [] then none
      else some (d.left env present)) ∧
      ∀ k, k ∈ (gcObjCacheDir env present done d n).2.referenced ↔
        k ∈ n.referenced ∨ ∃ f ∈ d.checked env present, k ∈ f.collected env present := by
  let n1 := ({ n with
    debugBytes := n.debugBytes + sizes (d.keptDebug env) + (d.keptDirDebug env).getD 0
    unexpectedFileBytes := n.unexpectedFileBytes + sizes d.unexpected } : GcState).updateCachedBytes
      (-(sizes (d.deletedDebug env) + (d.deletedDirDebug env).getD 0))
  obtain ⟨hkept, hmarks⟩ := gcEntries_spec env (d.tried env) 0 n1 hm
  have hleft : ({ d with
      entries := (gcEntries env present (d.tried env) 0 n1).1
      debug := d.keptDebug env
      dirDebug := d.keptDirDebug env } : ObjDir) = d.left env present := by rw [hkept]; rfl
  rw [← hleft]
  unfold gcObjCacheDir
  simp only
  split
  · next hgoes => exact ⟨(if_pos hgoes).symm, hmarks⟩
  · next hstays => exact ⟨(if_neg hstays).symm, hmarks⟩

/-! ## A pass -/

theorem gcObjCacheDir_visits (env : GcEnv) (present : Hash → Bool) :
    Visits (gcObjCacheDir env present) (fun n => Marked present n.referenced)
      (fun d d' => d'.path = d.path ∧ d'.entries = d.kept env present) (fun d => d.kept env present = []) where
  keeps done d n hm := by
    intro k hk
    rcases ((gcObjCacheDir_spec done d n hm).2 k).mp hk with hk | ⟨f, _, hk⟩
    · exact hm k hk
    · exact ObjFile.collected_present k hk
  leaves done d n d' hm h := by
    rw [(gcObjCacheDir_spec done d n hm).1] at h
    split at h
    · cases h
    · cases h
      exact ⟨rfl, rfl⟩
  removes done d n hm h := by
    rw [(gcObjCacheDir_spec done d n hm).1] at h
    split at h
    · rename_i hempty
      have hnil := hempty.1
      simp only [ObjDir.hasValidEntries, Bool.not_eq_false', Bool.and_eq_true, List.isEmpty_iff] at hnil
      exact hnil.1.1.1
    · cases h

theorem gcBlobCacheDir_visits (env : GcEnv) (referenced : List Hash) :
    Visits (gcBlobCacheDir env referenced) (fun _ => True)
      (fun d d' => d'.path = d.path ∧ d'.blobs = d.blobs.filter fun b => referenced.contains b.1)
      (fun d => d.blobs.filter (fun b => referenced.contains b.1) = []) where
  keeps _ _ _ _ := trivial
  leaves done d n d' _ h := by
    unfold gcBlobCacheDir at h
    simp only at h
    split at h
    · cases h
    · cases h
      exact ⟨rfl, rfl⟩
  removes done d n _ h := by
    unfold gcBlobCacheDir at h
    simp only at h
    split at h
    · rename_i hempty
      have hnil := hempty.1
      simp only [BlobDir.isEmpty, Bool.and_eq_true, List.isEmpty_iff] at hnil
      exact hnil.1.1.1
    · cases h

variable {s : CacheFiles} {k : Hash} {target : Int}

/-- `referenced_blobs` after the object cache was gone through. -/
def CacheFiles.collected (env : GcEnv) (s : CacheFiles) : List Hash :=
  (walk (gcObjCacheDir env s.present) s.objs [] { thisRuns := s.thisRuns }).2.referenced

theorem CacheFiles.mem_collected (env : GcEnv) (s : CacheFiles) (k : Hash) :
    k ∈ s.collected env ↔ ∃ d ∈ s.objs, ∃ f ∈ d.checked env s.present, k ∈ f.collected env s.present := by
  let I := fun (seen _ : List ObjDir) (n : GcState) => Marked s.present n.referenced ∧
    ∀ k, k ∈ n.referenced ↔ ∃ d ∈ seen, ∃ f ∈ d.checked env s.present, k ∈ f.collected env s.present
  have hstart : I [] [] { thisRuns := s.thisRuns } := ⟨Marked.nil, by simp⟩
  refine (walk_inv I ?_ s.objs [] hstart).2 k
  rintro seen done d n ⟨hm, hmarks⟩
  refine ⟨(gcObjCacheDir_visits env s.present).keeps done d n hm, fun k => ?_⟩
  rw [(gcObjCacheDir_spec done d n hm).2 k, hmarks k]
  simp only [mem_append, mem_singleton, or_and_right, exists_or, exists_eq_left]

theorem CacheFiles.collected_present (h : k ∈ s.collected env) : s.present k = true := by
  obtain ⟨d, _, f, _, hk⟩ := (s.mem_collected env k).mp h
  exact ObjFile.collected_present k hk

theorem gcPass_entries : (∃ d ∈ (gcPass env s).1.objs, f ∈ d.entries) ↔ ∃ d ∈ s.objs, f ∈ d.kept env s.present := by
  have hv := gcObjCacheDir_visits env s.present
  constructor
  · rintro ⟨d', hd', hf⟩
    obtain ⟨d, hd, _, he⟩ := hv.source Marked.nil hd'
    exact ⟨d, hd, he ▸ hf⟩
  rintro ⟨d, hd, hf⟩
  obtain ⟨d', hd', _, he⟩ := hv.left (s := { thisRuns := s.thisRuns }) Marked.nil hd (ne_nil_of_mem hf)
  exact ⟨d', hd', he ▸ hf⟩

theorem gcPass_blobs {d : BlobDir} (hd : d ∈ (gcPass env s).1.blobs) (hb : b ∈ d.blobs) :
    b.1 ∈ s.collected env := by
  obtain ⟨_, _, _, hblobs⟩ := (gcBlobCacheDir_visits env (s.collected env)).source trivial hd
  rw [hblobs] at hb
  simpa using (mem_filter.mp hb).2

theorem lookup_filter (l : List (Hash × Bytes)) {p : Hash → Bool} (hk : p k = true) :
    (l.filter fun b => p b.1).lookup k = l.lookup k := by
  induction l with
  | nil => rfl
  | cons b l ih =>
    obtain ⟨j, data⟩ := b
    by_cases hj : k = j
    · subst hj
      simp [hk]
    have hne : (k == j) = false := by simpa using hj
    by_cases hp : p j = true
    · simp [hp, lookup_cons, ih]
    · simp [hp, lookup_cons, hne, ih]

theorem CacheFiles.present_find (h : s.present k = true) :
    ∃ d data, s.blobs.find? (·.path = blobDir k) = some d ∧ d.blobs.lookup k = some data := by
  obtain ⟨data, h⟩ := Option.isSome_iff_exists.mp h
  obtain ⟨d, hd, hdata⟩ := Option.bind_eq_some_iff.mp h
  exact ⟨d, data, hd, hdata⟩

/-- What was collected can still be opened, with the same data. -/
theorem gcPass_blobAt (hk : k ∈ s.collected env) : blobAt (gcPass env s).1.blobs k = blobAt s.blobs k := by
  obtain ⟨d, data, hd, hdata⟩ := CacheFiles.present_find (CacheFiles.collected_present hk)
  have hc : (s.collected env).contains k = true := by simpa using hk
  have hfilter := lookup_filter d.blobs hc
  -- a directory with the blob in it is not removed
  have hne : ¬ d.blobs.filter (fun b => (s.collected env).contains b.1) = [] := by
    intro hnil
    rw [hnil, hdata] at hfilter
    cases hfilter
  obtain ⟨d', hd', _, hblobs⟩ := (gcBlobCacheDir_visits env (s.collected env)).find?
    (fun _ _ h => h.1) trivial hd hne
  have hfind : (gcPass env s).1.blobs.find? (·.path = blobDir k) = some d' := hd'
  rw [blobAt, hfind, blobAt, hd, Option.bind_some, Option.bind_some, hblobs, hfilter]

theorem gcPass_present (hk : k ∈ s.collected env) : (gcPass env s).1.present k = true := by
  rw [CacheFiles.present, gcPass_blobAt hk]
  exact CacheFiles.collected_present hk

theorem collected_of_kept (hd : d ∈ s.objs) (hf : f ∈ d.kept env s.present) :
    ∀ k ∈ f.referenced, k ∈ s.collected env := by
  intro k hk
  rw [ObjDir.kept, ← filter_looked] at hf
  obtain ⟨hf, hgood⟩ := mem_filter.mp hf
  refine (s.mem_collected env k).mpr ⟨d, hd, f, hf, ?_⟩
  rw [ObjFile.collected_of_usable hgood]
  exact hk

theorem ObjFile.usable_of_present (h : f.usable env present = true)
    (hp : ∀ k ∈ f.referenced, present' k = true) : f.usable env present' = true := by
  unfold ObjFile.usable at h ⊢
  unfold ObjFile.referenced at hp
  cases hc : f.content with
  | unretrievable | otherTag => rw [hc] at h; cases h
  | entry pio =>
    rw [hc] at h hp
    simp only [Bool.and_eq_true, all_eq_true] at h ⊢
    exact ⟨h.1, hp⟩

/-- Every entry is usable, and none is one too many. -/
def Trimmed (env : GcEnv) (s : CacheFiles) : Prop :=
  ∀ d ∈ s.objs, d.entries.length ≤ env.shortcutTries.toNat ∧ ∀ f ∈ d.entries, f.usable env s.present = true

theorem gcPass_trims (env : GcEnv) (s : CacheFiles) : Trimmed env (gcPass env s).1 := by
  intro d' hd'
  obtain ⟨d, hd, _, he⟩ := (gcObjCacheDir_visits env s.present).source Marked.nil hd'
  rw [he]
  refine ⟨keepFirst_length, fun f hf => ?_⟩
  have hgood : f.usable env s.present = true := (mem_filter.mp (mem_of_mem_take hf)).2
  exact ObjFile.usable_of_present hgood fun k hk => gcPass_present (collected_of_kept hd hf k hk)

/-! ## Stray blobs -/

def BlobsReferenced (s : CacheFiles) : Prop :=
  ∀ d ∈ s.blobs, ∀ b ∈ d.blobs, ∃ d' ∈ s.objs, ∃ f ∈ d'.entries, b.1 ∈ f.referenced

/-- What is collected for an entry that turns out not to be usable is referred to by one that
    is kept. -/
def NoStray (env : GcEnv) (s : CacheFiles) : Prop :=
  ∀ d ∈ s.objs, ∀ f ∈ d.checked env s.present, f.usable env s.present = false →
    ∀ k ∈ f.collected env s.present, ∃ d' ∈ s.objs, ∃ g ∈ d'.kept env s.present, k ∈ g.referenced

theorem gcPass_blobsReferenced : BlobsReferenced (gcPass env s).1 ↔ NoStray env s := by
  constructor
  · intro h d hd f hf _ k hk
    have hcoll := (s.mem_collected env k).mpr ⟨d, hd, f, hf, hk⟩
    -- the blob is still there, so it is referred to
    obtain ⟨b, data, hdir, hdata⟩ := CacheFiles.present_find (gcPass_present hcoll)
    obtain ⟨l1, l2, hblobs, _⟩ := lookup_eq_some_iff.mp hdata
    obtain ⟨d', hd', g, hg, hgk⟩ := h b (mem_of_find?_eq_some hdir) (k, data) (by rw [hblobs]; simp)
    obtain ⟨d'', hd'', hg⟩ := gcPass_entries.mp ⟨d', hd', hg⟩
    exact ⟨d'', hd'', g, hg, hgk⟩
  · intro h d hd b hb
    obtain ⟨d1, hd1, f, hf, hk⟩ := (s.mem_collected env b.1).mp (gcPass_blobs hd hb)
    have hkept : ∃ d' ∈ s.objs, ∃ g ∈ d'.kept env s.present, b.1 ∈ g.referenced := by
      by_cases hgood : f.usable env s.present = true
      · refine ⟨d1, hd1, f, ?_, ObjFile.collected_of_usable hgood ▸ hk⟩
        rw [ObjDir.kept, ← filter_looked]
        exact mem_filter.mpr ⟨hf, hgood⟩
      · exact h d1 hd1 f hf (by simpa using hgood) b.1 hk
    obtain ⟨d', hd', g, hg, hgk⟩ := hkept
    obtain ⟨d'', hd'', hg⟩ := gcPass_entries.mpr ⟨d', hd', hg⟩
    exact ⟨d'', hd'', g, hg, hgk⟩

/-- In a trimmed cache no entry is found unusable. -/
theorem Trimmed.noStray (h : Trimmed env s) : NoStray env s := by
  intro d hd f hf hbad
  have hmem : f ∈ d.entries := mem_listSubkeysInternal.mp (looked_sublist.subset hf)
  rw [(h d hd).2 f hmem] at hbad
  cases hbad

/-! ## Rounds -/

theorem Trimmed.unlink (h : Trimmed env s) (o : ObjTimestampSize) : Trimmed env (s.unlink o) := by
  unfold CacheFiles.unlink
  split
  · intro d' hd'
    obtain ⟨d, hd, rfl⟩ := mem_map.mp hd'
    obtain ⟨hlen, husable⟩ := h d hd
    have hsub : (d.unlink o).entries.Sublist d.entries := by
      unfold ObjDir.unlink
      split
      · exact filter_sublist
      · exact List.Sublist.refl _
    exact ⟨hsub.length_le.trans hlen, fun f hf => husable f (hsub.subset hf)⟩
  · exact h

theorem Trimmed.unlinks (h : Trimmed env s) (os : List ObjTimestampSize) :
    Trimmed env (os.foldl CacheFiles.unlink s) := by
  induction os generalizing s with
  | nil => exact h
  | cons o os ih => exact ih (h.unlink o)

theorem gcRounds_trims (keeps : List Nat) (objTsSizes : List ObjTimestampSize) (h : Trimmed env s) :
    Trimmed env (gcRounds env target keeps objTsSizes s) := by
  induction keeps generalizing objTsSizes s with
  | nil => exact h
  | cons keep keeps ih =>
    rw [gcRounds]
    split
    · exact ih _ (gcPass_trims _ _)
    · exact h

theorem gcRounds_blobsReferenced (keeps : List Nat) (objTsSizes : List ObjTimestampSize)
    (hs : Trimmed env s) (h : BlobsReferenced s ∨ keeps ≠ [] ∧ s.thisRuns > target) :
    BlobsReferenced (gcRounds env target keeps objTsSizes s) := by
  induction keeps generalizing objTsSizes s with
  | nil =>
    rcases h with h | ⟨h, _⟩
    · exact h
    · exact absurd rfl h
  | cons keep keeps ih =>
    rw [gcRounds]
    split
    · refine ih _ (gcPass_trims _ _) (.inl ?_)
      exact gcPass_blobsReferenced.mpr (hs.unlinks _).noStray
    rename_i hstop
    rcases h with h | ⟨_, h⟩
    · exact h
    · exact absurd h hstop

/-! ## The whole collection -/

/-- Otherwise it is skipped. -/
def GcEnv.Runs (env : GcEnv) : Prop := env.noFetch = false ∧ env.noStore = false

/-- Of the directories, with what is left in them, those that stay. -/
def leftObjs (env : GcEnv) (present : Hash → Bool) (objs : List ObjDir) : List ObjDir :=
  objs.foldl (fun done d =>
    if (d.left env present).hasValidEntries = false ∧ done.any (·.path.inside d.path) = false ∧ d.path ≠ [] then done
    else done ++ [d.left env present]) []

/-- An entry that is looked at has the blob before the first missing one. -/
def CacheFiles.collects (env : GcEnv) (s : CacheFiles) (k : Hash) : Bool :=
  s.objs.any fun d => (d.checked env s.present).any fun f => (f.collected env s.present).contains k

def BlobDir.left (env : GcEnv) (collects : Hash → Bool) (d : BlobDir) : BlobDir :=
  { d with
    blobs := d.blobs.filter fun b => collects b.1
    debug := (d.keptDebug env).filter fun f => !(d.blobs.filter fun b => !collects b.1).any (·.1 == f.1) }

/-- The sizes of the files that are left by the first pass. -/
def keptBytes (env : GcEnv) (s : CacheFiles) : Int :=
  ((leftObjs env s.present s.objs).map ObjDir.bytes).sum +
    (s.blobs.map fun d => (d.left env (s.collects env)).bytes).sum

theorem gcPass_leftObjs (env : GcEnv) (s : CacheFiles) : (gcPass env s).1.objs = leftObjs env s.present s.objs := by
  let I := fun (seen done : List ObjDir) (n : GcState) =>
    Marked s.present n.referenced ∧ done = leftObjs env s.present seen
  have hstart : I [] [] { thisRuns := s.thisRuns } := ⟨Marked.nil, rfl⟩
  refine (walk_inv I ?_ s.objs [] hstart).2
  rintro seen done d n ⟨hm, rfl⟩
  refine ⟨(gcObjCacheDir_visits env s.present).keeps _ d n hm, ?_⟩
  rw [(gcObjCacheDir_spec _ d n hm).1, leftObjs, leftObjs, foldl_append, foldl_cons, foldl_nil]
  split
  · exact append_nil _
  · rfl

theorem CacheFiles.contains_collected (env : GcEnv) (s : CacheFiles) (k : Hash) :
    (s.collected env).contains k = s.collects env k := by
  rw [Bool.eq_iff_iff, contains_iff_mem, mem_collected]
  simp [collects]

theorem gcPass_blobBytes (env : GcEnv) (s : CacheFiles) :
    ((gcPass env s).1.blobs.map BlobDir.bytes).sum = (s.blobs.map fun d => (d.left env (s.collects env)).bytes).sum := by
  let I := fun (seen done : List BlobDir) (_ : GcState) =>
    (done.map BlobDir.bytes).sum = (seen.map fun d => (d.left env (s.collects env)).bytes).sum
  have hvisit : ∀ done d n, leftBytes BlobDir.bytes (gcBlobCacheDir env (s.collected env) done d n).1 =
      (d.left env (s.collects env)).bytes := by
    intro done d n
    unfold gcBlobCacheDir
    simp only [s.contains_collected env]
    split
    · rename_i hempty
      have hnil := hempty.1
      simp only [BlobDir.isEmpty, Bool.and_eq_true, List.isEmpty_iff] at hnil
      simp only [leftBytes_none, BlobDir.bytes, BlobDir.left, hnil.1.1.1, hnil.1.1.2]
      rfl
    · exact leftBytes_some _ _
  refine walk_inv I (fun seen done d n hseen => ?_) s.blobs [] rfl
  show ((done ++ _).map BlobDir.bytes).sum = ((seen ++ [d]).map _).sum
  rw [map_append, sum_append, map_append, sum_append, hseen, map_singleton, sum_singleton]
  exact congrArg (_ + ·) (hvisit done d n)

/-- This is what the pass counts. -/
theorem keptBytes_eq (env : GcEnv) (s : CacheFiles) :
    (gcPass env s).2.cacheBytes + (gcPass env s).2.debugBytes = keptBytes env s := by
  rw [(gcPass_before env s).2, CacheFiles.bytes, gcPass_leftObjs, gcPass_blobBytes, keptBytes]

/-- This is too much, and a first round removes objects for it. -/
def SizeRound (env : GcEnv) (keeps : List Nat) (s : CacheFiles) : Prop :=
  keeps ≠ [] ∧ env.maxCacheSize < keptBytes env s ∧ env.targetSize < keptBytes env s

theorem gc_trims (keeps : List Nat) (s : CacheFiles) (hrun : env.Runs) : Trimmed env (gc env keeps s) := by
  unfold gc
  rw [hrun.1, hrun.2, if_neg (by decide)]
  have hs := gcPass_trims env s
  simp only
  split
  · exact gcRounds_trims _ _ hs
  · exact hs

/-- Every entry that is left has all of its blobs. -/
theorem gc_leaves_no_dangling_reference (env : GcEnv) (keeps : List Nat) (s : CacheFiles) (hrun : env.Runs) :
    ∀ d ∈ (gc env keeps s).objs, ∀ f ∈ d.entries, ∀ k ∈ f.referenced, (blobAt (gc env keeps s).blobs k).isSome = true := by
  intro d hd f hf
  obtain ⟨_, husable⟩ := gc_trims keeps s hrun d hd
  exact ObjFile.referenced_present (husable f hf)

/-- A cache with one entry, for these output blobs, and with the blobs that are there. -/
def oneEntryCache (outputs there : List Hash) : CacheFiles where
  objs := [{
    path := objDir 7
    entries := [{
      subkey := 1, size := 100
      content := .entry { outputs.pathIsreg := outputs.map fun k => { path := ["out"], type := .isReg, hash := some k } } }] }]
  blobs := [{ path := blobDir 1, blobs := there.map fun k => (k, [0]) }]

def roomyGc : GcEnv where
  shortcutTries := 20
  maxCacheSize := 1000
  targetSize := 800

theorem gc_leaves_no_dangling_reference_of_one_entry :
    (gc roomyGc [] (oneEntryCache [1, 2] [1, 2, 3])).objs ≠ [] ∧
      ∀ d ∈ (gc roomyGc [] (oneEntryCache [1, 2] [1, 2, 3])).objs, ∀ f ∈ d.entries, ∀ k ∈ f.referenced,
        (blobAt (gc roomyGc [] (oneEntryCache [1, 2] [1, 2, 3])).blobs k).isSome = true :=
  ⟨by decide, gc_leaves_no_dangling_reference _ _ _ ⟨rfl, rfl⟩⟩

/-- No blob is left that no entry refers to, if and only if the size makes for another pass or
    no entry was given up that had blobs of its own. -/
theorem gc_leaves_no_stray_blob (env : GcEnv) (keeps : List Nat) (s : CacheFiles) (hrun : env.Runs) :
    BlobsReferenced (gc env keeps s) ↔ SizeRound env keeps s ∨ NoStray env s := by
  have hs := gcPass_trims env s
  have hpass : BlobsReferenced (gcPass env s).1 ↔ NoStray env s := gcPass_blobsReferenced
  unfold gc
  rw [SizeRound, ← keptBytes_eq, hrun.1, hrun.2, if_neg (by decide)]
  have hruns : (gcPass env s).1.thisRuns = (gcPass env s).2.thisRuns := rfl
  generalize gcPass env s = r at hs hpass hruns
  obtain ⟨s1, n⟩ := r
  simp only at hs hpass hruns ⊢
  split
  · constructor
    · intro h
      cases keeps with
      | nil => exact .inr (hpass.mp h)
      | cons keep keeps =>
        by_cases htarget : env.targetSize < n.cacheBytes + n.debugBytes
        · exact .inl ⟨cons_ne_nil _ _, by omega, htarget⟩
        · rw [gcRounds, if_neg (by simp only; omega)] at h
          exact .inr (hpass.mp h)
    · intro h
      refine gcRounds_blobsReferenced _ _ hs ?_
      rcases h with ⟨hkeeps, _, htarget⟩ | h
      · exact .inr ⟨hkeeps, by simp only; omega⟩
      · exact .inl (hpass.mpr h)
  · refine Iff.trans hpass ⟨.inr, ?_⟩
    rintro (⟨_, hover, _⟩ | h)
    · exact absurd hover (by omega)
    · exact h

theorem gc_leaves_no_stray_blob_of_one_entry : BlobsReferenced (gc roomyGc [] (oneEntryCache [1, 2] [1, 2, 3])) := by
  have husable : ∀ d ∈ (oneEntryCache [1, 2] [1, 2, 3]).objs,
      ∀ f ∈ d.checked roomyGc (oneEntryCache [1, 2] [1, 2, 3]).present,
        f.usable roomyGc (oneEntryCache [1, 2] [1, 2, 3]).present = true := by decide
  refine (gc_leaves_no_stray_blob _ _ _ ⟨rfl, rfl⟩).mpr (.inr fun d hd f hf hbad => ?_)
  rw [husable d hd f hf] at hbad
  cases hbad

/-- The second blob of the entry is missing. The entry is removed, its first blob stays. -/
theorem a_blob_of_a_removed_entry_is_kept : ¬ BlobsReferenced (gc roomyGc [] (oneEntryCache [1, 2] [1])) := by
  unfold BlobsReferenced
  decide

/-- What an entry that was given up leaves behind goes with the next collection. -/
theorem another_gc_leaves_no_stray_blob (env : GcEnv) (keeps keeps' : List Nat) (s : CacheFiles) (hrun : env.Runs) :
    BlobsReferenced (gc env keeps' (gc env keeps s)) := by
  have hs := gc_trims keeps s hrun
  generalize gc env keeps s = s at hs
  have hpass : BlobsReferenced (gcPass env s).1 := gcPass_blobsReferenced.mpr hs.noStray
  unfold gc
  rw [hrun.1, hrun.2, if_neg (by decide)]
  simp only
  split
  · exact gcRounds_blobsReferenced _ _ (gcPass_trims env s) (.inl hpass)
  · exact hpass

theorem another_gc_of_a_removed_entry : let s := gc roomyGc [] (oneEntryCache [1, 2] [1])
    s.blobs ≠ (gc roomyGc [] s).blobs ∧ BlobsReferenced (gc roomyGc [] s) :=
  ⟨by decide, another_gc_leaves_no_stray_blob _ _ _ _ ⟨rfl, rfl⟩⟩

end Firebuild
