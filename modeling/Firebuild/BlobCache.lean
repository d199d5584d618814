/-
  Firebuild.BlobCache — the contents kept in the cache directory, by the hash of the
  uncompressed content (`blob_cache.cc`: `store_file`, `move_store_file`,
  `get_fd_for_file`, `retrieve_file`), and the hash cache in front of it (`hash_cache.cc`:
  `update_statinfo`, `update_hash`, `store_and_get_hash`).

  `Codec` is the hash function and zstd: equal hashes mean equal contents, and what was
  compressed at any level decompresses to itself. Nothing is said about decompressing
  anything else.

  A blob is written under its key with RENAME_NOREPLACE: one that is there already stays,
  whatever its form is (`Lib.WriteOnce`). Which form a reader expects is up to the entry
  that refers to the blob, so the two can differ.

  A store may fail at any of its system calls (`StoreFailure`); nothing is in the cache
  then that was not there before. Where an assertion stands next to the failure, the
  failure is what the model returns.

  `store_and_get_hash()` returns true for every path that is not ignored. Its answer is right
  under a condition on the entry that the file has after a stat() (`AnswersTruly`).
-/

import Mathlib.Order.Basic
import Firebuild.FileInfo
import Firebuild.Lib.WriteOnce

namespace Firebuild

open Lib.WriteOnce

abbrev Bytes := List UInt8

structure Codec where
  hash : Bytes → Hash
  hash_injective : Function.Injective hash
  /-- By compression level. -/
  compress : Nat → Bytes → Bytes
  decompress : Bytes → Option Bytes
  decompress_compress : ∀ level b, decompress (compress level b) = some b

/-- The content as a number: its bytes are the digits, none of them zero. -/
def digits : Bytes → Nat
  | [] => 0
  | x :: xs => 257 * digits xs + (x.toNat + 1)

theorem digits_injective : Function.Injective digits := by
  intro a
  induction a with
  | nil =>
    intro b h
    cases b with
    | nil => rfl
    | cons y ys =>
      simp only [digits] at h
      omega
  | cons x xs ih =>
    intro b h
    cases b with
    | nil =>
      simp only [digits] at h
      omega
    | cons y ys =>
      simp only [digits] at h
      have hx := x.toNat_lt
      have hy := y.toNat_lt
      have hxy : x.toNat = y.toNat := by omega
      have hrest : digits xs = digits ys := by omega
      rw [UInt8.toNat_inj.mp hxy, ih hrest]

/-- Compressing puts zstd's magic number in front, and decompressing asks for it. -/
def magicCodec : Codec where
  hash := digits
  hash_injective := digits_injective
  compress _ b := 0x28 :: 0xb5 :: 0x2f :: 0xfd :: b
  decompress
    | 0x28 :: 0xb5 :: 0x2f :: 0xfd :: b => some b
    | _ => none
  decompress_compress _ _ := rfl

structure CacheConfig where
  compressCache : Bool := false
  compressionLevel : Nat := 1
  maxInlineBlobSize : Nat := 4096
  maxEntrySize : Nat := 0
  deriving DecidableEq, Repr

/-! ## The blob cache -/

structure BlobCache where
  blobs : Hash → Option Bytes
  /-- `this_runs_cached_bytes_` -/
  cachedBytes : Int

def BlobCache.empty : BlobCache := ⟨fun _ => none, 0⟩

/-- The system call that fails inside `store_file()` or `move_store_file()`. -/
inductive StoreFailure where
  | openSource | mkstemp | copy | hash
  /-- The file for the compressed content, its compression, its fstat() and its rename(). -/
  | openCompressed | compress | fstat | renameCompressed
  | rename
  deriving DecidableEq, Repr

def StoreFailure.compressing : StoreFailure → Bool
  | openCompressed | compress | fstat | renameCompressed => true
  | openSource | mkstemp | copy | hash | rename => false

/-- Storing a file that is open makes this call. -/
def StoreFailure.matters (cfg : CacheConfig) : StoreFailure → Bool
  | openSource => false
  | openCompressed | compress | fstat | renameCompressed => cfg.compressCache
  | mkstemp | copy | hash | rename => true

/-- What both functions do with a content that is in a temporary file: hash it, compress it
    if that is configured, and rename it to its place. -/
def storeContent (c : Codec) (cfg : CacheConfig) (fail : Option StoreFailure) (content : Bytes) (b : BlobCache) :
    Option (Hash × BlobCache) :=
  if fail = some .hash then none
  else if cfg.compressCache = true ∧ fail.any (·.compressing) = true then none
  else if fail = some .rename then none
  else
    let key := c.hash content
    let data := if cfg.compressCache then c.compress cfg.compressionLevel content else content
    match b.blobs key with
    -- EEXIST: "blob is already stored"
    | some _ => some (key, b)
    | none => some (key, ⟨place b.blobs key data, b.cachedBytes + data.length⟩)

/-- `store_file`, with the writers of the path and the content of the file; a file that the
    caller has opened is not opened again. -/
def storeFile (c : Codec) (cfg : CacheConfig) (fail : Option StoreFailure) (writers maxWriters : Nat) (opened : Bool)
    (content : Bytes) (skip : Nat) (b : BlobCache) : Option (Hash × BlobCache) :=
  if writers > maxWriters then none
  else if opened = false ∧ fail = some .openSource then none
  else if fail = some .mkstemp ∨ fail = some .copy then none
  else storeContent c cfg fail (content.drop skip) b

/-- `move_store_file`: the content is not empty. -/
def moveStoreFile (c : Codec) (cfg : CacheConfig) (fail : Option StoreFailure) (content : Bytes) (b : BlobCache) :
    Option (Hash × BlobCache) :=
  if content = [] then none else storeContent c cfg fail content b

def getFdForFile (b : BlobCache) (key : Hash) : Option Bytes := b.blobs key

/-- What a reader makes of a blob that its entry says is compressed, or not. -/
def readBlob (c : Codec) (compressed : Bool) (data : Bytes) : Option Bytes :=
  if compressed then c.decompress data else some data

/-- `retrieve_file`: the destination's new content, from its old one. Decompressing writes
    from the start of the file, also if it should append. -/
def retrieveFile (c : Codec) (blob : Bytes) (old : Bytes) (append decompress : Bool) : Option Bytes :=
  if decompress then
    match c.decompress blob with
    | none => none
    | some d => some (if append then d ++ old.drop d.length else d)
  else some (if append then old ++ blob else blob)

/-- A file that is replaced gets what a reader makes of the blob. -/
theorem retrieveFile_replace (c : Codec) (blob old : Bytes) (compressed : Bool) :
    retrieveFile c blob old false compressed = readBlob c compressed blob := by
  unfold retrieveFile readBlob
  cases compressed
  · rfl
  · cases c.decompress blob <;> rfl

def CacheConfig.encode (c : Codec) (cfg : CacheConfig) (content : Bytes) : Bytes :=
  if cfg.compressCache then c.compress cfg.compressionLevel content else content

variable {c : Codec} {cfg : CacheConfig} {fail : Option StoreFailure} {content : Bytes} {key : Hash} {b b' : BlobCache}

theorem storeContent_spec (h : storeContent c cfg fail content b = some (key, b')) :
    key = c.hash content ∧ b'.blobs = place b.blobs key (cfg.encode c content) := by
  unfold storeContent at h
  split at h
  · cases h
  split at h
  · cases h
  split at h
  · cases h
  dsimp only at h
  split at h
  · rename_i x hx
    cases h
    refine ⟨rfl, ?_⟩
    rw [place, hx]
    exact (Function.update_eq_self_iff.mpr hx.symm).symm
  · cases h
    exact ⟨rfl, rfl⟩

theorem storeFile_spec
    (h : storeFile c cfg fail writers maxWriters opened content skip b = some (key, b')) :
    key = c.hash (content.drop skip) ∧ b'.blobs = place b.blobs key (cfg.encode c (content.drop skip)) := by
  unfold storeFile at h
  split at h
  · cases h
  split at h
  · cases h
  split at h
  · cases h
  exact storeContent_spec h

theorem moveStoreFile_spec (h : moveStoreFile c cfg fail content b = some (key, b')) :
    key = c.hash content ∧ b'.blobs = place b.blobs key (cfg.encode c content) := by
  unfold moveStoreFile at h
  split at h
  · cases h
  exact storeContent_spec h

/-- Without writers a file that is open is stored unless a system call fails. -/
theorem storeFile_isSome_iff (c : Codec) (cfg : CacheConfig) (fail : Option StoreFailure) (content : Bytes)
    (b : BlobCache) : (storeFile c cfg fail 0 0 true content 0 b).isSome = true ↔ fail.any (·.matters cfg) = false := by
  -- the blob may be there already
  cases hblob : b.blobs (c.hash content)
  all_goals
    cases fail with
    | none => simp [storeFile, storeContent, hblob]
    | some e =>
      cases e <;> cases hcompress : cfg.compressCache <;>
        simp [storeFile, storeContent, StoreFailure.matters, StoreFailure.compressing, hblob, hcompress]

/-! ## The form of a blob -/

/-- Read in the given form, the blob is a content with this hash. -/
def ReadsAs (c : Codec) (compressed : Bool) (key : Hash) (data : Bytes) : Prop :=
  ∃ content, c.hash content = key ∧ readBlob c compressed data = some content

theorem encode_readsAs (c : Codec) (cfg : CacheConfig) (content : Bytes) :
    ReadsAs c cfg.compressCache (c.hash content) (cfg.encode c content) := by
  refine ⟨content, rfl, ?_⟩
  unfold CacheConfig.encode readBlob
  cases cfg.compressCache
  · rfl
  · exact c.decompress_compress _ _

/-- Every blob is in the form that `form` says its key is in. -/
def Formed (c : Codec) (form : Hash → Bool) (b : BlobCache) : Prop :=
  ∀ key data, b.blobs key = some data → ReadsAs c (form key) key data

variable {form : Hash → Bool}

theorem Formed.place (h : Formed c form b) (hf : form (c.hash content) = cfg.compressCache)
    (hb : b'.blobs = place b.blobs (c.hash content) (cfg.encode c content)) : Formed c form b' := by
  unfold Formed
  rw [hb]
  exact place_all h (hf ▸ encode_readsAs c cfg content)

/-! ## The hash cache -/

/-- What stat() and the file's content say about a path. -/
inductive FsNode where
  | missing
  | reg (content : Bytes) (mode : Mode) (mtime inode : Nat)
  /-- With the hash of its listing. -/
  | dir (hash : Hash) (mode : Mode) (mtime inode : Nat)
  | special (mode : Mode)
  deriving DecidableEq, Repr

def FsNode.entry (c : Codec) : FsNode → FsEntry
  | missing => .missing
  | reg content mode _ _ => .reg content.length (c.hash content) mode
  | dir hash mode _ _ => .dir hash mode
  | special mode => .special mode

structure HashCacheEntry where
  info : FileInfo := {}
  mtime : Nat := 0
  inode : Nat := 0
  isStored : Bool := false
  deriving DecidableEq, Repr

structure Caches where
  blob : BlobCache
  hashes : FileName → Option HashCacheEntry

def Caches.start (b : BlobCache) : Caches := ⟨b, fun _ => none⟩

def updateStatinfo (readOnly : Bool) (node : FsNode) (e : HashCacheEntry) : HashCacheEntry :=
  -- "Assume that for system locations the statinfo never changes."
  if readOnly = true ∧ e.info.type ≠ .dontKnow then e
  else
    match node with
    | .missing | .special _ => { e with info := { e.info with type := .notExist }, isStored := false }
    | .reg content mode mtime inode =>
      if e.info.type = .isReg ∧ e.info.size = some content.length ∧ e.mtime = mtime ∧ e.inode = inode then e
      else
        { info := ({ e.info with type := .isReg, size := some content.length, hash := none }).setModeBits mode allModeBits
          mtime, inode, isStored := false }
    | .dir _ mode mtime inode =>
      if e.info.type = .isDir ∧ e.mtime = mtime ∧ e.inode = inode then e
      else
        { info := ({ e.info with type := .isDir, size := none, hash := none }).setModeBits mode allModeBits
          mtime, inode, isStored := false }

/-- `update_hash` of an entry whose statinfo is up to date, for a file that is to be stored:
    with the bytes the entry counts for. As many are read as the entry says. -/
def updateHash (c : Codec) (cfg : CacheConfig) (fail : Option StoreFailure) (writers : Nat) (content : Bytes)
    (e : HashCacheEntry) (b : BlobCache) : Option (HashCacheEntry × Nat × BlobCache) :=
  let size := e.info.size.getD 0
  if e.info.type = .notExist then some (e, 0, b)
  else if e.isStored = false then
    if e.info.type ≠ .isReg ∨ content.length < size then none
    else
      match storeFile c cfg fail writers 0 true (content.take size) 0 b with
      | none => none
      | some (hash, b) =>
        some ({ e with info := { e.info with type := .isReg, hash := some hash }, isStored := true }, size, b)
  else if e.info.hash.isSome then some (e, size, b)
  else if fail = some .hash ∨ content.length < size then none
  else some ({ e with info := { e.info with hash := some (c.hash (content.take size)) } }, size, b)

/-- `get_entry_with_statinfo_and_hash` for a file that is to be stored: too many writers give
    `dontknow_`, a failure gives `notexist_`, which are entries too. -/
def getEntryStoring (c : Codec) (cfg : CacheConfig) (fail : Option StoreFailure) (readOnly : Bool) (writers : Nat)
    (node : FsNode) (content : Bytes) (path : FileName) (cs : Caches) : HashCacheEntry × Nat × Caches :=
  if writers > 0 then ({}, 0, cs)
  else
    match updateHash c cfg fail writers content (updateStatinfo readOnly node ((cs.hashes path).getD {})) cs.blob with
    | none => ({ info := { type := .notExist } }, 0, { cs with hashes := Function.update cs.hashes path none })
    | some (e, stored, blob) =>
      -- "For non-system locations don't store negative entries."
      if readOnly = false ∧ e.info.type = .notExist then
        ({ info := { type := .notExist } }, stored, ⟨blob, Function.update cs.hashes path none⟩)
      else (e, stored, ⟨blob, Function.update cs.hashes path (some e)⟩)

/-- What `store_and_get_hash` returns besides true. -/
structure Stored where
  hash : Hash
  storedBytes : Nat
  /-- Empty if the data is not inlined. -/
  inlineData : Bytes
  deriving DecidableEq, Repr

/-- `store_and_get_hash`: the hash of the entry, known or not. -/
def storeAndGetHash (c : Codec) (cfg : CacheConfig) (fail : Option StoreFailure) (ignored readOnly : Bool)
    (writers : Nat) (node : FsNode) (content : Bytes) (path : FileName) (cs : Caches) : Option (Stored × Caches) :=
  if ignored then none
  else
    let (e, storedBytes, cs) := getEntryStoring c cfg fail readOnly writers node content path cs
    let size := e.info.size.getD 0
    let inlineData :=
      if e.info.type = .isReg ∧ 0 < size ∧ size ≤ cfg.maxInlineBlobSize ∧ size ≤ content.length then content.take size
      else []
    some ({ hash := e.info.hash.getD 0, storedBytes, inlineData }, cs)

/-- A file that counts as stored has its blob in the cache, in the session's form. -/
def StoredInForm (form : Hash → Bool) (cfg : CacheConfig) (cs : Caches) : Prop :=
  ∀ path e, cs.hashes path = some e → e.isStored = true →
    ∃ h, e.info.hash = some h ∧ (cs.blob.blobs h).isSome = true ∧ form h = cfg.compressCache

variable {cs cs' : Caches} {path : FileName} {readOnly : Bool} {node : FsNode} {e e' : HashCacheEntry}
  {writers stored : Nat} {r : Stored}

theorem updateStatinfo_stored (h : (updateStatinfo readOnly node e).isStored = true) :
    updateStatinfo readOnly node e = e := by
  unfold updateStatinfo at h ⊢
  split at h
  · rename_i hro
    rw [if_pos hro]
  rename_i hro
  rw [if_neg hro]
  cases node with
  | missing | special => cases h
  | reg | dir =>
    dsimp only at h ⊢
    split at h
    · rename_i hsame
      rw [if_pos hsame]
    · cases h

theorem updateStatinfo_reg : (updateStatinfo false (.reg content mode mtime inode) e).info.type = .isReg ∧
    (updateStatinfo false (.reg content mode mtime inode) e).info.size = some content.length := by
  unfold updateStatinfo
  rw [if_neg fun h => Bool.noConfusion h.1]
  dsimp only
  split
  · rename_i h
    exact ⟨h.1, h.2.1⟩
  · exact ⟨rfl, rfl⟩

/-- What `update_hash` leaves behind for an entry of the size of the content: the blobs of before and
    maybe the content's, and an entry that counts as stored, with its blob there. -/
theorem updateHash_spec (hreg : e.info.type = .isReg) (hsize : e.info.size = some content.length)
    (hf : Formed c form b) (hc : form (c.hash content) = cfg.compressCache)
    (he : e.isStored = true → ∃ h, e.info.hash = some h ∧ (b.blobs h).isSome = true ∧ form h = cfg.compressCache)
    (h : updateHash c cfg fail writers content e b = some (e', stored, b')) :
    Formed c form b' ∧ Extends b.blobs b'.blobs ∧ e'.info.type = .isReg ∧
      ∃ h, e'.info.hash = some h ∧ (b'.blobs h).isSome = true ∧ form h = cfg.compressCache := by
  simp only [updateHash, hreg, hsize, Option.getD_some, Nat.lt_irrefl, List.take_length, or_false] at h
  rw [if_neg nofun] at h
  split at h
  · rw [if_neg fun hne => hne rfl] at h
    cases hs : storeFile c cfg fail writers 0 true content 0 b with
    | none =>
      rw [hs] at h
      cases h
    | some r =>
      obtain ⟨key, b1⟩ := r
      rw [hs] at h
      cases h
      obtain ⟨rfl, hb⟩ := storeFile_spec hs
      exact ⟨hf.place hc hb, hb ▸ place_extends _ _ _, rfl, _, rfl, by rw [hb]; exact place_isSome _ _ _, hc⟩
  · rename_i hst
    obtain ⟨k, hk, hrest⟩ := he (by simpa using hst)
    rw [hk] at h
    cases h
    exact ⟨hf, Extends.refl _, hreg, k, hk, hrest⟩

theorem StoredInForm.mono (h : StoredInForm form cfg cs) (hb : Extends cs.blob.blobs b'.blobs) :
    StoredInForm form cfg ⟨b', cs.hashes⟩ := by
  intro p e he hst
  obtain ⟨k, hk, hs, hform⟩ := h p e he hst
  exact ⟨k, hk, hb.isSome hs, hform⟩

theorem StoredInForm.update (h : StoredInForm form cfg cs)
    (ho : ∀ e, o = some e → e.isStored = true →
      ∃ h, e.info.hash = some h ∧ (cs.blob.blobs h).isSome = true ∧ form h = cfg.compressCache) :
    StoredInForm form cfg ⟨cs.blob, Function.update cs.hashes path o⟩ := by
  intro p e he hst
  dsimp only at he
  by_cases hp : p = path
  · subst hp
    rw [Function.update_self] at he
    exact ho e he hst
  · rw [Function.update_of_ne hp] at he
    exact h p e he hst

/-- What storing one file does to caches in which every key has its form. -/
structure StoresInForm (c : Codec) (form : Hash → Bool) (cfg : CacheConfig) (cs cs' : Caches) : Prop where
  formed : Formed c form cs'.blob
  stored : StoredInForm form cfg cs'
  extends_ : Extends cs.blob.blobs cs'.blob.blobs

theorem StoresInForm.trans (h : StoresInForm c form cfg cs cs') (h' : StoresInForm c form cfg cs' cs'') :
    StoresInForm c form cfg cs cs'' := ⟨h'.formed, h'.stored, h.extends_.trans h'.extends_⟩

theorem getEntryStoring_spec (fail : Option StoreFailure) (writers : Nat) (mode : Mode) (mtime inode : Nat)
    (path : FileName) (hf : Formed c form cs.blob) (hs : StoredInForm form cfg cs)
    (hc : form (c.hash content) = cfg.compressCache) :
    let r := getEntryStoring c cfg fail false writers (.reg content mode mtime inode) content path cs
    StoresInForm c form cfg cs r.2.2 ∧ (writers = 0 → fail = none →
      ∃ h, r.1.info.hash = some h ∧ (r.2.2.blob.blobs h).isSome = true ∧ form h = cfg.compressCache) := by
  unfold getEntryStoring
  split
  · exact ⟨⟨hf, hs, Extends.refl _⟩, fun h0 => by omega⟩
  obtain ⟨hreg, hsize⟩ := @updateStatinfo_reg content ((cs.hashes path).getD {}) mode mtime inode
  have he := @updateStatinfo_stored false (.reg content mode mtime inode) ((cs.hashes path).getD {})
  generalize updateStatinfo false (.reg content mode mtime inode) ((cs.hashes path).getD {}) = e at hreg hsize he
  have hstored : e.isStored = true →
      ∃ h, e.info.hash = some h ∧ (cs.blob.blobs h).isSome = true ∧ form h = cfg.compressCache := by
    intro hst
    cases hp : cs.hashes path with
    | none =>
      rw [he hst, hp] at hst
      cases hst
    | some x => exact hs path e (by rw [he hst, hp]; rfl) hst
  split
  · rename_i hnone
    refine ⟨⟨hf, hs.update fun _ => nofun, Extends.refl _⟩, ?_⟩
    -- nothing can fail here
    rintro rfl rfl
    obtain ⟨r, hr⟩ := Option.isSome_iff_exists.mp ((storeFile_isSome_iff c cfg none content cs.blob).mpr rfl)
    cases hst : e.isStored with
    | false => simp [updateHash, hreg, hsize, hst, hr] at hnone
    | true =>
      obtain ⟨k, hk, -⟩ := hstored hst
      simp [updateHash, hreg, hst, hk] at hnone
  · rename_i e' stored blob hsome
    obtain ⟨hf', hb, hreg', hst⟩ := updateHash_spec hreg hsize hf hc hstored hsome
    rw [if_neg (by simp [hreg'])]
    exact ⟨⟨hf', (hs.mono hb).update fun x h _ => (by cases h; exact hst), hb⟩, fun _ _ => hst⟩

theorem storeAndGetHash_spec (hf : Formed c form cs.blob)
    (hs : StoredInForm form cfg cs) (hc : form (c.hash content) = cfg.compressCache)
    (h : storeAndGetHash c cfg fail ignored false writers (.reg content mode mtime inode) content path cs = some (r, cs')) :
    StoresInForm c form cfg cs cs' ∧ (writers = 0 → fail = none →
      (cs'.blob.blobs r.hash).isSome = true ∧ form r.hash = cfg.compressCache) := by
  obtain ⟨h1, h2⟩ := getEntryStoring_spec fail writers mode mtime inode path hf hs hc
  unfold storeAndGetHash at h
  split at h
  · cases h
  generalize getEntryStoring c cfg fail false writers (.reg content mode mtime inode) content path cs = g at h h1 h2
  obtain ⟨e, stored, cs1⟩ := g
  cases h
  refine ⟨h1, fun h0 hfail => ?_⟩
  obtain ⟨k, hk, hsome, hform⟩ := h2 h0 hfail
  have hgetD : e.info.hash.getD 0 = k := by rw [show e.info.hash = some k from hk]; rfl
  exact ⟨by rw [hgetD]; exact hsome, by rw [hgetD]; exact hform⟩

/-! ## What the answer is worth -/

/-- The content can be had from the blob cache, in the session's form. -/
def Retrievable (c : Codec) (cfg : CacheConfig) (content : Bytes) (b : BlobCache) : Prop :=
  ∃ data, b.blobs (c.hash content) = some data ∧ readBlob c cfg.compressCache data = some content

/-- The hash is that of the content, which is in the cache under it or comes with it. -/
def Stored.Truthful (c : Codec) (cfg : CacheConfig) (content : Bytes) (b : BlobCache) (r : Stored) : Prop :=
  r.hash = c.hash content ∧ (Retrievable c cfg content b ∨ r.inlineData = content ∧ content ≠ [])

/-- The entry says how long the file is, and that is short enough. -/
def Inlines (cfg : CacheConfig) (content : Bytes) (e : HashCacheEntry) : Prop :=
  e.info.type = .isReg ∧ e.info.size = some content.length ∧ 0 < content.length ∧ content.length ≤ cfg.maxInlineBlobSize

/-- What it takes, with the entry that the file has after a stat(): a hash that is believed is
    right, and one is computed or the file is stored without a failure, from as many bytes as
    there are. -/
def AnswersTruly (c : Codec) (cfg : CacheConfig) (fail : Option StoreFailure) (readOnly : Bool) (content : Bytes)
    (b : BlobCache) (e : HashCacheEntry) : Prop :=
  if e.info.type ≠ .notExist ∧ e.isStored = false then
    e.info.type = .isReg ∧ e.info.size.getD 0 = content.length ∧
      fail.any (·.matters cfg) = false ∧
      ((∀ data ∈ b.blobs (c.hash content), readBlob c cfg.compressCache data = some content) ∨ Inlines cfg content e)
  else
    (match e.info.hash with
      | some key => key = c.hash content ∧ (e.info.type = .notExist → readOnly = true)
      | none => e.info.type ≠ .notExist ∧ e.info.size.getD 0 = content.length ∧ fail ≠ some .hash) ∧
    (Retrievable c cfg content b ∨ Inlines cfg content e)

/-- What the content's blob is after storing it. -/
theorem retrievable_place (hb : b'.blobs = place b.blobs (c.hash content) (cfg.encode c content)) :
    Retrievable c cfg content b' ↔ ∀ data ∈ b.blobs (c.hash content), readBlob c cfg.compressCache data = some content := by
  unfold Retrievable
  rw [hb, place]
  cases b.blobs (c.hash content) with
  | some data => simp
  | none =>
    obtain ⟨content', hhash, hread⟩ := encode_readsAs c cfg content
    rw [c.hash_injective hhash] at hread
    simp [hread]

/-- The answer made from an entry; 0 stands for no hash. -/
theorem truthful_entry_iff (hzero : c.hash content ≠ 0) :
    Stored.Truthful c cfg content b ⟨e.info.hash.getD 0, n,
        if e.info.type = .isReg ∧ 0 < e.info.size.getD 0 ∧ e.info.size.getD 0 ≤ cfg.maxInlineBlobSize ∧
          e.info.size.getD 0 ≤ content.length then content.take (e.info.size.getD 0) else []⟩ ↔
      e.info.hash = some (c.hash content) ∧ (Retrievable c cfg content b ∨ Inlines cfg content e) := by
  refine and_congr ?_ (or_congr Iff.rfl ?_)
  · cases e.info.hash <;> simp [hzero.symm]
  dsimp only [Inlines]
  split
  · rename_i h
    obtain ⟨htype, hpos, hmax, hle⟩ := h
    cases hsize : e.info.size with
    | none => simp [hsize] at hpos
    | some size =>
      simp only [hsize, Option.getD_some, Option.some.injEq] at hpos hmax hle ⊢
      constructor
      · rintro ⟨hall, _⟩
        have hlen := congrArg List.length hall
        rw [List.length_take] at hlen
        exact ⟨htype, by omega, by omega, by omega⟩
      · rintro ⟨_, rfl, hlen, _⟩
        exact ⟨List.take_length, List.ne_nil_of_length_pos hlen⟩
  · rename_i h
    constructor
    · rintro ⟨rfl, hne⟩
      exact absurd rfl hne
    · rintro ⟨htype, hsize, hlen, hmax⟩
      exact absurd ⟨htype, by rw [hsize]; exact hlen, by rw [hsize]; exact hmax, by rw [hsize]; exact Nat.le_refl _⟩ h

/-- Of a prefix, only the whole content has the hash of the content. -/
theorem hash_take_iff (hle : ¬content.length < n) : c.hash (content.take n) = c.hash content ↔ n = content.length := by
  rw [c.hash_injective.eq_iff]
  constructor
  · intro h
    have hlen := congrArg List.length h
    rw [List.length_take] at hlen
    omega
  · rintro rfl
    exact List.take_length

/-- The answer is right exactly if the file has no writers and its entry answers. -/
theorem store_and_get_hash_is_truthful_iff (hzero : c.hash content ≠ 0)
    (h : storeAndGetHash c cfg fail false readOnly writers node content path cs = some (r, cs')) :
    r.Truthful c cfg content cs'.blob ↔ writers = 0 ∧
      AnswersTruly c cfg fail readOnly content cs.blob (updateStatinfo readOnly node ((cs.hashes path).getD {})) := by
  unfold storeAndGetHash at h
  simp only at h
  obtain ⟨rfl, rfl⟩ := h
  rw [truthful_entry_iff hzero]
  unfold getEntryStoring
  by_cases hw : writers > 0
  · simp only [if_pos hw, reduceCtorEq, false_and, false_iff]
    exact fun h => absurd h.1 (by omega)
  have hw : writers = 0 := by omega
  subst hw
  generalize updateStatinfo readOnly node ((cs.hashes path).getD {}) = e
  unfold updateHash
  by_cases htype : e.info.type = .notExist
  · have hkept : ¬(e.info.type ≠ .notExist ∧ e.isStored = false) := fun h => h.1 htype
    rw [AnswersTruly]
    cases hhash : e.info.hash <;> cases readOnly <;> simp [htype, hhash]
  rw [if_neg htype]
  cases hstored : e.isStored with
  | true =>
    have hkept : ¬(e.info.type ≠ .notExist ∧ e.isStored = false) := by simp [hstored]
    rw [AnswersTruly, if_neg hkept]
    cases hhash : e.info.hash with
    | some key => simp [htype, hhash]
    | none =>
      by_cases hfail : fail = some .hash
      · simp [hfail]
      by_cases hlen : content.length < e.info.size.getD 0
      · simp [hlen, hlen.ne']
      · simp [hfail, htype, hlen, hash_take_iff hlen, Inlines]
  | false =>
    have hstore : e.info.type ≠ .notExist ∧ e.isStored = false := ⟨htype, hstored⟩
    rw [AnswersTruly, if_pos hstore, ← storeFile_isSome_iff c cfg fail content cs.blob]
    by_cases hreg : e.info.type = .isReg
    · by_cases hlen : e.info.size.getD 0 = content.length
      · rw [hlen, List.take_length]
        cases hstore : storeFile c cfg fail 0 0 true content 0 cs.blob with
        | none => simp
        | some x =>
          obtain ⟨key, b1⟩ := x
          obtain ⟨rfl, hb⟩ := storeFile_spec hstore
          rw [List.drop_zero] at hb
          simp [retrievable_place hb, hreg, Inlines]
      -- another length, another hash
      by_cases hlong : content.length < e.info.size.getD 0
      · simp [hlong, hlen]
      cases hstore : storeFile c cfg fail 0 0 true (content.take (e.info.size.getD 0)) 0 cs.blob with
      | none => simp [hlen]
      | some x =>
        obtain ⟨key, b1⟩ := x
        obtain ⟨rfl, -⟩ := storeFile_spec hstore
        simp [hlen, hlong, hreg, hash_take_iff hlong]
    · simp [hreg]

/-- A file of one byte is stored. -/
theorem store_and_get_hash_is_truthful_iff_stored :
    ∃ r cs', storeAndGetHash magicCodec {} none false false 0 (.reg [1] 0o644 5 7) [1] ["f"] (.start .empty) = some (r, cs') ∧
      r.Truthful magicCodec {} [1] cs'.blob := by
  have hzero : magicCodec.hash [1] ≠ 0 := by decide
  have hrun : storeAndGetHash magicCodec {} none false false 0 (.reg [1] 0o644 5 7) [1] ["f"] (.start .empty) =
    some (_, _) := rfl
  refine ⟨_, _, hrun, (store_and_get_hash_is_truthful_iff hzero hrun).mpr ⟨rfl, ?_⟩⟩
  exact ⟨rfl, rfl, rfl, .inr ⟨rfl, rfl, by decide, by decide⟩⟩

/-- A file that is open for writing, and one that cannot be copied. -/
theorem a_file_without_hash_is_answered :
    (∃ r cs', storeAndGetHash magicCodec {} none false false 1 (.reg [1] 0o644 5 7) [1] ["f"] (.start .empty) = some (r, cs') ∧
      ¬r.Truthful magicCodec {} [1] cs'.blob) ∧
    ∃ r cs', storeAndGetHash magicCodec {} (some .copy) false false 0 (.reg [1] 0o644 5 7) [1] ["f"] (.start .empty) =
        some (r, cs') ∧ ¬r.Truthful magicCodec {} [1] cs'.blob :=
  ⟨⟨_, _, rfl, fun h => absurd h.1 (by decide)⟩, _, _, rfl, fun h => absurd h.1 (by decide)⟩

end Firebuild
