/-
  Firebuild.HashCache — whether a recorded file info still matches the file system
  (`hash_cache.cc`: `update_statinfo`, `update_hash`, `get_entry_with_statinfo`,
  `get_entry_with_statinfo_and_hash`, `get_hash`, `get_is_static`, `file_info_matches`).

  An entry is kept for a path with what stat() said and maybe the hash. It is refreshed if the
  type, the size, the mtime or the inode differs from what stat() says now, and taken as it is
  otherwise. Opening the file to compute its hash may fail.

  `HashWorld` is the file system together with the caches, and everything each path has been.
  In a run files change in any way, except that a path does not get a content with the type,
  the size, the mtime and the inode that another content had there.

  The mode is not among what is compared, and chmod() changes no mtime. So
  `file_info_matches_right_iff`, and `a_chmod_is_not_noticed`.
-/

import Firebuild.BlobCache

namespace Firebuild

open Function (update update_of_ne update_self)

/-! ## Looking up entries -/

/-- `notexist_` -/
def notexistEntry : HashCacheEntry := { info := { type := .notExist } }

/-- What both lookups do with the entry they have brought up to date. -/
def keepEntry (readOnly : Bool) (path : FileName) (e : HashCacheEntry) (cs : Caches) : HashCacheEntry × Caches :=
  -- "For non-system locations don't store negative entries."
  if readOnly = false ∧ e.info.type = .notExist then
    (notexistEntry, { cs with hashes := update cs.hashes path none })
  else (e, { cs with hashes := update cs.hashes path (some e) })

def getEntryWithStatinfo (readOnly : Bool) (node : FsNode) (path : FileName) (cs : Caches) : HashCacheEntry × Caches :=
  keepEntry readOnly path (updateStatinfo readOnly node ((cs.hashes path).getD {})) cs

/-- What `set_from_fd` makes of a file, of which it reads as many bytes as it is told. -/
def FsNode.hashUpTo (c : Codec) (size : Nat) : FsNode → Option Hash
  | reg content .. => if content.length < size then none else some (c.hash (content.take size))
  | dir hash .. => some hash
  | missing | special _ => none

/-- `update_hash` of an entry whose statinfo is up to date, for a file that is not stored. -/
def updateHashOnly (c : Codec) (readable : Bool) (node : FsNode) (e : HashCacheEntry) : Option HashCacheEntry :=
  if e.info.type = .notExist then some e
  else if e.info.hash.isSome then some e
  else if readable then
    (node.hashUpTo c (e.info.size.getD 0)).map fun h => { e with info := { e.info with hash := some h } }
  else none

/-- `get_entry_with_statinfo_and_hash` for a file that is not stored. -/
def getEntryWithHash (c : Codec) (readOnly : Bool) (writers maxWriters : Nat) (readable skipStatinfoUpdate : Bool)
    (node : FsNode) (path : FileName) (cs : Caches) : HashCacheEntry × Caches :=
  if writers > maxWriters then ({}, cs)
  else
    let e := (cs.hashes path).getD {}
    match updateHashOnly c readable node (if skipStatinfoUpdate then e else updateStatinfo readOnly node e) with
    | none => (notexistEntry, { cs with hashes := update cs.hashes path none })
    | some e => keepEntry readOnly path e cs

/-- `get_hash`, with the type and the size. -/
def getHash (c : Codec) (ignored readOnly : Bool) (writers maxWriters : Nat) (readable : Bool) (node : FsNode)
    (path : FileName) (cs : Caches) : Option (Hash × FileType × Option Nat) × Caches :=
  if ignored then (none, cs)
  else
    let (e, cs) := getEntryWithHash c readOnly writers maxWriters readable false node path cs
    if e.info.type = .notExist ∨ e.info.type = .dontKnow then (none, cs)
    else (some (e.info.hash.getD 0, e.info.type, e.info.size), cs)

/-- `file_info_matches` -/
def cachedFileInfoMatches (c : Codec) (ignored readOnly : Bool) (writers : Nat) (readable : Bool) (node : FsNode)
    (path : FileName) (query : FileInfo) (cs : Caches) : Bool × Caches :=
  if ignored then (false, cs)
  else
    let (entry, cs) := getEntryWithStatinfo readOnly node path cs
    match typeMatches query entry.info with
    | some b => (b, cs)
    | none =>
      if query.mode &&& query.modeMask ≠ entry.info.mode &&& query.modeMask then (false, cs)
      else if query.hash = none then (true, cs)
      else if entry.info.hash.isSome then (entry.info.hash = query.hash, cs)
      else
        -- "don't stat again"
        let (entry, cs) := getEntryWithHash c readOnly writers 0 readable true node path cs
        if entry.info.type ≠ .isReg ∧ entry.info.type ≠ .isDir ∨ entry.info.hash = none then (false, cs)
        else (entry.info.hash = query.hash, cs)

/-! ## What an entry tells about a file -/

namespace FsNode

def stamp : FsNode → Option (FileType × Option Nat × Nat × Nat)
  | missing | special _ => none
  | reg content _ mtime inode => some (.isReg, some content.length, mtime, inode)
  | dir _ _ mtime inode => some (.isDir, none, mtime, inode)

/-- The bytes of a regular file, or the hash of a listing. -/
def data : FsNode → Option (Bytes ⊕ Hash)
  | missing | special _ => none
  | reg content _ _ _ => some (.inl content)
  | dir hash _ _ _ => some (.inr hash)

def mode : FsNode → Mode
  | missing => 0
  | reg _ mode _ _ | dir _ mode _ _ | special mode => mode

def bytes : FsNode → Bytes
  | reg content _ _ _ => content
  | missing | dir .. | special _ => []

end FsNode

def HashCacheEntry.stamp (e : HashCacheEntry) : FileType × Option Nat × Nat × Nat :=
  (e.info.type, e.info.size, e.mtime, e.inode)

/-- The entry was made when the path was `n`. -/
structure Tells (c : Codec) (n : FsNode) (e : HashCacheEntry) : Prop where
  stamp : n.stamp = some e.stamp
  mode : e.info.mode = n.mode
  hash : ∀ h, e.info.hash = some h → (n.entry c).contentHash = some h
  stored : e.isStored = true → e.info.hash.isSome = true

section

variable {c : Codec} {m n : FsNode} {e : HashCacheEntry}

theorem contentHash_congr (c : Codec) (h : m.data = n.data) : (m.entry c).contentHash = (n.entry c).contentHash := by
  cases m <;> cases n <;> simp_all [FsNode.data, FsNode.entry, FsEntry.contentHash]

theorem updateStatinfo_none (h : m.stamp = none) : (updateStatinfo false m e).info.type = .notExist := by
  cases m <;> first | rfl | cases h

theorem Tells.isFile (h : Tells c n e) : e.info.type = .isReg ∨ e.info.type = .isDir := by
  have hstamp := h.stamp
  cases n with
  | missing | special _ => cases hstamp
  | reg content mode mtime inode => exact .inl (congrArg Prod.fst (Option.some.inj hstamp)).symm
  | dir hash mode mtime inode => exact .inr (congrArg Prod.fst (Option.some.inj hstamp)).symm

theorem updateStatinfo_same (h : m.stamp = some e.stamp) : updateStatinfo false m e = e := by
  unfold updateStatinfo
  rw [if_neg fun h => Bool.noConfusion h.1]
  cases m with
  | missing | special _ => cases h
  | reg content mode mtime inode =>
    simp only [FsNode.stamp, HashCacheEntry.stamp, Option.some.injEq, Prod.mk.injEq] at h
    exact if_pos ⟨h.1.symm, h.2.1.symm, h.2.2.1.symm, h.2.2.2.symm⟩
  | dir hash mode mtime inode =>
    simp only [FsNode.stamp, HashCacheEntry.stamp, Option.some.injEq, Prod.mk.injEq] at h
    exact if_pos ⟨h.1.symm, h.2.2.1.symm, h.2.2.2.symm⟩

theorem updateStatinfo_new (hm : m.stamp.isSome = true) (he : e.info.type = .isDir → e.info.size = none)
    (h : m.stamp ≠ some e.stamp) :
    Tells c m (updateStatinfo false m e) ∧ (updateStatinfo false m e).info.hash = none := by
  unfold updateStatinfo
  cases m with
  | missing | special _ => cases hm
  | reg content mode mtime inode =>
    have hnot : ¬(e.info.type = .isReg ∧ e.info.size = some content.length ∧ e.mtime = mtime ∧ e.inode = inode) := by
      rintro ⟨h1, h2, h3, h4⟩
      exact h (by simp only [FsNode.stamp, HashCacheEntry.stamp, h1, h2, h3, h4])
    dsimp only
    rw [if_neg hnot]
    exact ⟨⟨rfl, FileInfo.setModeBits_all _ _, fun _ => nofun, nofun⟩, rfl⟩
  | dir hash mode mtime inode =>
    have hnot : ¬(e.info.type = .isDir ∧ e.mtime = mtime ∧ e.inode = inode) := by
      rintro ⟨h1, h3, h4⟩
      exact h (by simp only [FsNode.stamp, HashCacheEntry.stamp, h1, he h1, h3, h4])
    dsimp only
    rw [if_neg hnot]
    exact ⟨⟨rfl, FileInfo.setModeBits_all _ _, fun _ => nofun, nofun⟩, rfl⟩

end

/-! ## Runs -/

structure HashWorld where
  fs : FileName → FsNode
  /-- Ghost: everything the path has been. -/
  past : FileName → List FsNode
  caches : Caches

/-- A change of the file system, or a query. -/
inductive HashAct where
  | change (path : FileName) (node : FsNode)
  | fileInfoMatches (path : FileName) (query : FileInfo) (readable : Bool)
  | getHash (path : FileName) (readable : Bool)
  | getIsStatic (path : FileName)
  | storeAndGetHash (path : FileName) (fail : Option StoreFailure)

namespace HashWorld

def start (fs : FileName → FsNode) (b : BlobCache) : HashWorld := ⟨fs, fun path => [fs path], .start b⟩

/-- Queries are on paths that are not in a read-only or an ignored location and have no writer. -/
def step (c : Codec) (cfg : CacheConfig) (s : HashWorld) : HashAct → HashWorld
  | .change path node =>
    { s with fs := update s.fs path node, past := update s.past path (node :: s.past path) }
  | .fileInfoMatches path query readable =>
    { s with caches := (cachedFileInfoMatches c false false 0 readable (s.fs path) path query s.caches).2 }
  | .getHash path readable => { s with caches := (getHash c false false 0 0 readable (s.fs path) path s.caches).2 }
  | .getIsStatic path => { s with caches := (getEntryWithStatinfo false (s.fs path) path s.caches).2 }
  | .storeAndGetHash path fail =>
    { s with caches := (getEntryStoring c cfg fail false 0 (s.fs path) (s.fs path).bytes path s.caches).2.2 }

/-- A change of the content shows in the type, the size, the mtime or the inode. -/
def Allowed (s : HashWorld) : HashAct → Prop
  | .change path node => ∀ n ∈ s.past path, n.stamp = node.stamp → n.data = node.data
  | .fileInfoMatches .. | .getHash .. | .getIsStatic _ | .storeAndGetHash .. => True

inductive Reach (c : Codec) (cfg : CacheConfig) : HashWorld → Prop
  | start (fs : FileName → FsNode) (b : BlobCache) : Reach c cfg (.start fs b)
  | step {s : HashWorld} {a : HashAct} : Reach c cfg s → s.Allowed a → Reach c cfg (s.step c cfg a)

end HashWorld

/-! ## Every entry tells what its path was -/

section

variable {c : Codec} {cfg : CacheConfig} {past : List FsNode} {m n : FsNode} {e e' : HashCacheEntry} {path : FileName}
  {cs : Caches} {readable : Bool} {i : FileInfo}

/-- What is known of an entry of a path: it is a negative one, or tells about something that cannot
    be told from what the path is. -/
def UpToDate (c : Codec) (past : List FsNode) (m : FsNode) (e : HashCacheEntry) : Prop :=
  m.stamp = none ∧ e.info.type = .notExist ∨ ∃ n ∈ past, n.stamp = m.stamp ∧ Tells c n e

def EntriesTell (c : Codec) (past : FileName → List FsNode) (hashes : FileName → Option HashCacheEntry) : Prop :=
  ∀ path e, hashes path = some e → ∃ n ∈ past path, Tells c n e

theorem EntriesTell.update {past : FileName → List FsNode}
    (h : EntriesTell c past hashes)
    (ho : ∀ e, o = some e → ∃ n ∈ past path, Tells c n e) : EntriesTell c past (update hashes path o) := by
  intro p e he
  by_cases hp : p = path
  · subst hp
    rw [update_self] at he
    exact ho e he
  · rw [update_of_ne hp] at he
    exact h p e he

theorem Tells.size_dir (h : Tells c n e) (hd : e.info.type = .isDir) : e.info.size = none := by
  have hstamp := h.stamp
  cases n with
  | missing | special _ => cases hstamp
  | reg content mode mtime inode =>
    have htype := congrArg Prod.fst (Option.some.inj hstamp)
    rw [HashCacheEntry.stamp, hd] at htype
    cases htype
  | dir hash mode mtime inode => exact (congrArg (fun x => x.2.1) (Option.some.inj hstamp)).symm

theorem Tells.hashUpTo (h : Tells c n e) (hstamp : n.stamp = m.stamp) :
    m.hashUpTo c (e.info.size.getD 0) = (m.entry c).contentHash := by
  have hm := hstamp.symm.trans h.stamp
  cases m with
  | missing | special _ | dir => rfl
  | reg content mode mtime inode =>
    have hsize : some content.length = e.info.size := congrArg (fun x => x.2.1) (Option.some.inj hm)
    simp [FsNode.hashUpTo, ← hsize, FsNode.entry, FsEntry.contentHash]

theorem stamp_ne_fresh (m : FsNode) : m.stamp ≠ some (HashCacheEntry.stamp {}) := by
  cases m <;> simp [FsNode.stamp, HashCacheEntry.stamp]

theorem updateStatinfo_upToDate (hm : m ∈ past) (h : ∀ e, cs.hashes path = some e → ∃ n ∈ past, Tells c n e) :
    UpToDate c past m (updateStatinfo false m ((cs.hashes path).getD {})) := by
  cases hstamp : m.stamp with
  | none => exact .inl ⟨hstamp, updateStatinfo_none hstamp⟩
  | some st =>
    right
    have hsome : m.stamp.isSome = true := by rw [hstamp]; rfl
    cases he : cs.hashes path with
    | none => exact ⟨m, hm, rfl, (updateStatinfo_new hsome (fun hd => by cases hd) (stamp_ne_fresh m)).1⟩
    | some e =>
      obtain ⟨n, hn, htells⟩ := h e he
      rw [Option.getD_some]
      by_cases hsame : m.stamp = some e.stamp
      · rw [updateStatinfo_same hsame]
        exact ⟨n, hn, htells.stamp.trans hsame.symm, htells⟩
      · exact ⟨m, hm, rfl, (updateStatinfo_new hsome htells.size_dir hsame).1⟩

theorem keepEntry_tells {past : FileName → List FsNode} (h : EntriesTell c past cs.hashes)
    (he : UpToDate c (past path) m e) : EntriesTell c past (keepEntry false path e cs).2.hashes := by
  unfold keepEntry
  split
  · exact h.update fun _ => nofun
  next hpos =>
  refine h.update fun e' ho => ?_
  cases ho
  rcases he with ⟨-, htype⟩ | ⟨n, hn, -, htells⟩
  · exact absurd ⟨rfl, htype⟩ hpos
  · exact ⟨n, hn, htells⟩

section

variable (hcontent : ∀ n ∈ past, n.stamp = m.stamp → n.data = m.data) (he : UpToDate c past m e)
include hcontent he

theorem updateHashOnly_upToDate (h : updateHashOnly c readable m e = some e') : UpToDate c past m e' := by
  unfold updateHashOnly at h
  split at h
  · cases h
    exact he
  next htype =>
  split at h
  · cases h
    exact he
  split at h
  · obtain ⟨k, hk, rfl⟩ := Option.map_eq_some_iff.mp h
    rcases he with ⟨-, hnone⟩ | ⟨n, hn, hstamp, htells⟩
    · exact absurd hnone htype
    refine .inr ⟨n, hn, hstamp, htells.stamp, htells.mode, fun k' hk' => ?_, fun _ => rfl⟩
    cases hk'
    rw [contentHash_congr c (hcontent n hn hstamp), ← htells.hashUpTo hstamp]
    exact hk
  · cases h

/-- Storing takes the hash of the bytes that are in the file. -/
theorem updateHash_upToDate
    (h : updateHash c cfg fail writers m.bytes e b = some (e', stored, b')) : UpToDate c past m e' := by
  unfold updateHash at h
  dsimp only at h
  split at h
  · cases h
    exact he
  next htype =>
  rcases he with ⟨-, hnone⟩ | ⟨n, hn, hstamp, htells⟩
  · exact absurd hnone htype
  right
  split at h
  · split at h
    · cases h
    next hfile =>
    have hreg : e.info.type = .isReg := not_not.mp (not_or.mp hfile).1
    split at h
    · cases h
    next hash b1 hstore =>
    cases h
    obtain ⟨hkey, -⟩ := storeFile_spec hstore
    refine ⟨n, hn, hstamp, ?_, htells.mode, fun k hk => ?_, fun _ => rfl⟩
    · rw [htells.stamp, HashCacheEntry.stamp, hreg, HashCacheEntry.stamp]
    cases hk
    rw [contentHash_congr c (hcontent n hn hstamp)]
    have hm := hstamp.symm.trans htells.stamp
    cases m with
    | missing | special _ => cases hm
    | reg content mode mtime inode =>
      have hsize : some content.length = e.info.size := congrArg (fun x => x.2.1) (Option.some.inj hm)
      rw [hkey, ← hsize]
      simp [FsNode.bytes, FsNode.entry, FsEntry.contentHash]
    | dir hash mode mtime inode =>
      have htype := congrArg Prod.fst (Option.some.inj hm)
      rw [HashCacheEntry.stamp, hreg] at htype
      cases htype
  · next hst =>
    have hst : e.isStored = true := by simpa using hst
    rw [if_pos (htells.stored hst)] at h
    cases h
    exact ⟨n, hn, hstamp, htells⟩

end

theorem keepEntry_file (path : FileName) (cs : Caches) (he : e.info.type ≠ .notExist) :
    keepEntry false path e cs = (e, { cs with hashes := update cs.hashes path (some e) }) :=
  if_neg fun h => he h.2

theorem Tells.ne_notExist (h : Tells c n e) : e.info.type ≠ .notExist := by
  intro hno
  rcases h.isFile with ht | ht <;> cases hno.symm.trans ht

/-! ## The answer -/

theorem typeMatches_notExist (query : FileInfo) (h : i.type = .notExist) :
    typeMatches query i = some (query.type.allowsMissing) := by
  unfold typeMatches
  cases query.type <;> simp [h, FileType.allowsMissing]

theorem typeMatches_congr (query : FileInfo) (htype : i.type = j.type) (hsize : i.size = j.size) :
    typeMatches query i = typeMatches query j := by
  unfold typeMatches
  rw [htype, hsize]

/-- An entry has the type and the size that a stat() of the path gives. -/
theorem Tells.statinfo (h : Tells c n e) (hstamp : n.stamp = m.stamp) :
    e.info.type = (m.entry c).statinfo.type ∧ e.info.size = (m.entry c).statinfo.size ∧
      (m.entry c).statinfo.mode = m.mode ∧ (m.entry c).contentHash.isSome = true := by
  have hm := hstamp.symm.trans h.stamp
  cases m with
  | missing | special _ => cases hm
  | reg content mode mtime inode | dir hash mode mtime inode =>
    have hm := Option.some.inj hm
    exact ⟨(congrArg Prod.fst hm).symm, (congrArg (fun x => x.2.1) hm).symm, FileInfo.setModeBits_all _ _, rfl⟩

/-- What is answered for an entry that counts as up to date, with the caches after it. -/
def answerFrom (c : Codec) (readable : Bool) (m : FsNode) (e : HashCacheEntry) (query : FileInfo) : Bool :=
  match typeMatches query (m.entry c).statinfo with
  | some b => b
  | none =>
    if query.mode &&& query.modeMask ≠ e.info.mode &&& query.modeMask then false
    else if query.hash = none then true
    else if e.info.hash.isSome = true ∨ readable = true then (m.entry c).contentHash = query.hash
    else false

theorem cachedFileInfoMatches_file (query : FileInfo)
    (he : e = updateStatinfo false m ((cs.hashes path).getD {})) (htells : Tells c n e) (hstamp : n.stamp = m.stamp)
    (hcontent : n.data = m.data) :
    (cachedFileInfoMatches c false false 0 readable m path query cs).1 = answerFrom c readable m e query := by
  obtain ⟨htype, hsize, -, hhash⟩ := htells.statinfo hstamp
  have hne := htells.ne_notExist
  unfold cachedFileInfoMatches answerFrom getEntryWithStatinfo
  rw [← he, keepEntry_file path cs hne, ← typeMatches_congr query htype hsize]
  simp only [Bool.false_eq_true, if_false]
  cases typeMatches query e.info with
  | some b => rfl
  | none =>
    dsimp only
    split
    · rfl
    split
    · rfl
    cases hk : e.info.hash with
    | some k =>
      have hm := htells.hash k hk
      rw [contentHash_congr c hcontent] at hm
      simp [hm]
    | none =>
      obtain ⟨k, hk'⟩ := Option.isSome_iff_exists.mp hhash
      cases readable with
      | false => simp [getEntryWithHash, updateHashOnly, hne, hk, notexistEntry]
      | true =>
        have hfile : ¬(e.info.type ≠ .isReg ∧ e.info.type ≠ .isDir) := fun h => htells.isFile.elim h.1 h.2
        simp [getEntryWithHash, updateHashOnly, keepEntry, hne, hk, htells.hashUpTo hstamp, hk', hfile]

theorem cachedFileInfoMatches_none (query : FileInfo) (hm : m.stamp = none) :
    (cachedFileInfoMatches c false false 0 readable m path query cs).1 = fileInfoMatches query (m.entry c) := by
  have htype := updateStatinfo_none (e := (cs.hashes path).getD {}) hm
  have hentry : (m.entry c).statinfo.type = .notExist := by cases m <;> first | rfl | cases hm
  have hkept : (getEntryWithStatinfo false m path cs).1 = notexistEntry := by
    unfold getEntryWithStatinfo keepEntry
    rw [if_pos ⟨rfl, htype⟩]
  unfold cachedFileInfoMatches fileInfoMatches
  rw [typeMatches_notExist query hentry]
  simp only [Bool.false_eq_true, if_false, hkept]
  rw [typeMatches_notExist query (rfl : notexistEntry.info.type = .notExist)]

/-! ## The caches keep telling -/

section

variable {past : FileName → List FsNode} (h : EntriesTell c past cs.hashes) (hm : m ∈ past path)
  (hcontent : ∀ n ∈ past path, n.stamp = m.stamp → n.data = m.data)
include h hm

theorem getEntryWithStatinfo_tells : EntriesTell c past (getEntryWithStatinfo false m path cs).2.hashes :=
  keepEntry_tells h (updateStatinfo_upToDate hm (h path))

include hcontent

theorem getEntryWithHash_tells (readable : Bool) :
    EntriesTell c past (getEntryWithHash c false 0 0 readable false m path cs).2.hashes := by
  unfold getEntryWithHash
  rw [if_neg (Nat.lt_irrefl 0)]
  dsimp only
  split
  · exact h.update fun _ => nofun
  · next e' he' =>
    exact keepEntry_tells h (updateHashOnly_upToDate hcontent (updateStatinfo_upToDate hm (h path)) he')

variable {readable : Bool}

theorem getHash_tells : EntriesTell c past (getHash c false false 0 0 readable m path cs).2.hashes := by
  have hentry := getEntryWithHash_tells h hm hcontent readable
  unfold getHash
  simp only [Bool.false_eq_true, if_false]
  split <;> exact hentry

theorem getEntryStoring_tells :
    EntriesTell c past (getEntryStoring c cfg fail false 0 m m.bytes path cs).2.2.hashes := by
  unfold getEntryStoring
  rw [if_neg (Nat.lt_irrefl 0)]
  split
  · exact h.update fun _ => nofun
  next e' stored blob he' =>
  have hup := updateHash_upToDate hcontent (updateStatinfo_upToDate hm (h path)) he'
  split
  · exact h.update fun _ => nofun
  next hpos =>
  refine h.update fun e ho => ?_
  cases ho
  rcases hup with ⟨-, htype⟩ | ⟨n, hn, -, htells⟩
  · exact absurd ⟨rfl, htype⟩ hpos
  · exact ⟨n, hn, htells⟩

theorem cachedFileInfoMatches_tells (query : FileInfo) :
    EntriesTell c past (cachedFileInfoMatches c false false 0 readable m path query cs).2.hashes := by
  have hfirst := getEntryWithStatinfo_tells h hm
  have hup := updateStatinfo_upToDate hm (h path)
  unfold cachedFileInfoMatches
  simp only [Bool.false_eq_true, if_false]
  rcases hup with ⟨-, htype⟩ | ⟨n, hn, hstamp, htells⟩
  · have hkept : (getEntryWithStatinfo false m path cs).1 = notexistEntry := by
      unfold getEntryWithStatinfo keepEntry
      rw [if_pos ⟨rfl, htype⟩]
    rw [hkept, typeMatches_notExist query (rfl : notexistEntry.info.type = .notExist)]
    exact hfirst
  · have hsecond : EntriesTell c past
        (getEntryWithHash c false 0 0 readable true m path (getEntryWithStatinfo false m path cs).2).2.hashes := by
      have hkept := keepEntry_file path cs htells.ne_notExist
      unfold getEntryWithHash
      rw [if_neg (Nat.lt_irrefl 0)]
      dsimp only
      split
      · exact hfirst.update fun _ => nofun
      next e' he' =>
      rw [getEntryWithStatinfo, hkept] at he'
      simp only [update_self] at he'
      exact keepEntry_tells hfirst (updateHashOnly_upToDate hcontent (.inr ⟨n, hn, hstamp, htells⟩) he')
    split
    · exact hfirst
    split
    · exact hfirst
    split
    · exact hfirst
    split
    · exact hfirst
    · split <;> exact hsecond

end

end

namespace HashWorld

variable {c : Codec} {cfg : CacheConfig} {s : HashWorld} {a : HashAct}

structure Inv (c : Codec) (s : HashWorld) : Prop where
  current : ∀ path, s.fs path ∈ s.past path
  content : ∀ path, ∀ n ∈ s.past path, ∀ n' ∈ s.past path, n.stamp = n'.stamp → n.data = n'.data
  entries : EntriesTell c s.past s.caches.hashes

theorem start_inv (c : Codec) (fs : FileName → FsNode) (b : BlobCache) : Inv c (.start fs b) := by
  refine ⟨fun path => List.mem_singleton.mpr rfl, fun path n hn n' hn' _ => ?_, fun _ _ => nofun⟩
  rw [List.mem_singleton.mp hn, List.mem_singleton.mp hn']

theorem Inv.change (h : Inv c s) (ha : s.Allowed (.change path node)) :
    Inv c (s.step c cfg (.change path node)) := by
  have hpast : ∀ {p n}, n ∈ s.past p → n ∈ update s.past path (node :: s.past path) p := by
    intro p n hn
    by_cases hp : p = path
    · subst hp
      rw [update_self]
      exact List.mem_cons_of_mem _ hn
    · rwa [update_of_ne hp]
  refine ⟨fun p => ?_, fun p n hn n' hn' hstamp => ?_, fun p e he => ?_⟩
  · show update s.fs path node p ∈ update s.past path (node :: s.past path) p
    by_cases hp : p = path
    · subst hp
      rw [update_self, update_self]
      exact List.mem_cons_self
    · rw [update_of_ne hp, update_of_ne hp]
      exact h.current p
  · change n ∈ update s.past path (node :: s.past path) p at hn
    change n' ∈ update s.past path (node :: s.past path) p at hn'
    by_cases hp : p = path
    · subst hp
      rw [update_self] at hn hn'
      rcases List.mem_cons.mp hn with heq | hold <;> rcases List.mem_cons.mp hn' with heq' | hold'
      · rw [heq, heq']
      · rw [heq] at hstamp ⊢
        exact (ha n' hold' hstamp.symm).symm
      · rw [heq'] at hstamp ⊢
        exact ha n hold hstamp
      · exact h.content p n hold n' hold' hstamp
    · rw [update_of_ne hp] at hn hn'
      exact h.content p n hn n' hn' hstamp
  · obtain ⟨n, hn, htells⟩ := h.entries p e he
    exact ⟨n, hpast hn, htells⟩

theorem Inv.step (h : Inv c s) (ha : s.Allowed a) : Inv c (s.step c cfg a) := by
  have hcontent : ∀ path, ∀ n ∈ s.past path, n.stamp = (s.fs path).stamp → n.data = (s.fs path).data :=
    fun path n hn => h.content path n hn _ (h.current path)
  cases a with
  | change path node => exact h.change ha
  | fileInfoMatches path query readable =>
    exact ⟨h.current, h.content, cachedFileInfoMatches_tells h.entries (h.current path) (hcontent path) query⟩
  | getHash path readable =>
    exact ⟨h.current, h.content, getHash_tells h.entries (h.current path) (hcontent path)⟩
  | getIsStatic path => exact ⟨h.current, h.content, getEntryWithStatinfo_tells h.entries (h.current path)⟩
  | storeAndGetHash path fail =>
    exact ⟨h.current, h.content, getEntryStoring_tells h.entries (h.current path) (hcontent path)⟩

theorem Reach.inv (h : Reach c cfg s) : Inv c s := by
  induction h with
  | start fs b => exact start_inv c fs b
  | step _ ha ih => exact ih.step ha

/-- The entry kept for the path, if it counts as up to date, has the path's mode. -/
def ModeFresh (s : HashWorld) (path : FileName) : Prop :=
  ∀ e, s.caches.hashes path = some e → (s.fs path).stamp = some e.stamp → e.info.mode = (s.fs path).mode

/-- The path's hash is known or can be computed, or it has none. -/
def HashAvailable (s : HashWorld) (path : FileName) (readable : Bool) : Prop :=
  readable = true ∨ (s.fs path).stamp = none ∨
    ∃ e, s.caches.hashes path = some e ∧ (s.fs path).stamp = some e.stamp ∧ e.info.hash.isSome = true

def answer (c : Codec) (s : HashWorld) (path : FileName) (readable : Bool) (query : FileInfo) : Bool :=
  (cachedFileInfoMatches c false false 0 readable (s.fs path) path query s.caches).1

end HashWorld

/-! ## When the answers are right -/

section

variable {c : Codec} {cfg : CacheConfig} {s : HashWorld} {path : FileName} {readable : Bool} {e : HashCacheEntry}

/-- The entry a query about a file or a directory looks at is the one that is kept, if that counts
    as up to date, or one that has just been made. -/
theorem updateStatinfo_fresh_iff (h : s.Inv c) (hstamp : (s.fs path).stamp.isSome = true)
    (he : e = updateStatinfo false (s.fs path) ((s.caches.hashes path).getD {})) :
    (s.ModeFresh path ↔ e.info.mode = (s.fs path).mode) ∧
      (e.info.hash.isSome = true ↔ ∃ e', s.caches.hashes path = some e' ∧ (s.fs path).stamp = some e'.stamp ∧
        e'.info.hash.isSome = true) := by
  subst he
  unfold HashWorld.ModeFresh
  cases hkept : s.caches.hashes path with
  | none =>
    obtain ⟨htells, hhash⟩ := updateStatinfo_new (c := c) (e := {}) hstamp nofun (stamp_ne_fresh _)
    rw [Option.getD_none, hhash]
    exact ⟨⟨fun _ => htells.mode, fun _ _ => nofun⟩, by simp⟩
  | some e =>
    obtain ⟨n, -, htells⟩ := h.entries path e hkept
    rw [Option.getD_some]
    by_cases hsame : (s.fs path).stamp = some e.stamp
    · rw [updateStatinfo_same hsame]
      refine ⟨⟨fun hf => hf e rfl hsame, fun hmode e' he' _ => ?_⟩, fun hhash => ⟨e, rfl, hsame, hhash⟩, ?_⟩
      · cases he'
        exact hmode
      rintro ⟨e', he', -, hhash⟩
      cases he'
      exact hhash
    · obtain ⟨hnew, hhash⟩ := updateStatinfo_new (c := c) hstamp htells.size_dir hsame
      rw [hhash]
      refine ⟨⟨fun _ => hnew.mode, fun _ e' he' hno => ?_⟩, ⟨fun hno => absurd hno (by decide), ?_⟩⟩
      · cases he'
        exact absurd hno hsame
      rintro ⟨e', he', hno, -⟩
      cases he'
      exact absurd hno hsame

/-- A query with nothing but the type asks for mode and hash. -/
theorem typeMatches_self (query : FileInfo) (htype : query.type = i.type) (hsize : query.size = none)
    (hfile : i.type = .isReg ∨ i.type = .isDir) : typeMatches query i = none := by
  unfold typeMatches
  rcases hfile with hi | hi <;> simp [htype, hi, hsize]

/-- Two queries that every file answers with yes, and only a fresh entry does. -/
theorem answerFrom_right (hfile : e.info.type = .isReg ∨ e.info.type = .isDir)
    (htype : e.info.type = (m.entry c).statinfo.type) (hmode : (m.entry c).statinfo.mode = m.mode)
    (hhash : (m.entry c).contentHash.isSome = true)
    (h : ∀ query, answerFrom c readable m e query = fileInfoMatches query (m.entry c)) :
    e.info.mode = m.mode ∧ (e.info.hash.isSome = true ∨ readable = true) := by
  have htype' : (m.entry c).statinfo.type = .isReg ∨ (m.entry c).statinfo.type = .isDir := htype ▸ hfile
  constructor
  · have hq := h { type := e.info.type, mode := m.mode, modeMask := allModeBits }
    have hnone := typeMatches_self { type := e.info.type, mode := m.mode, modeMask := allModeBits } htype rfl htype'
    unfold answerFrom fileInfoMatches at hq
    have hall : ∀ x : Mode, x &&& allModeBits = x := fun _ => BitVec.and_allOnes
    rw [hnone, hmode] at hq
    simp only [hall] at hq
    simpa [eq_comm] using hq
  · have hq := h { type := e.info.type, hash := (m.entry c).contentHash }
    have hnone := typeMatches_self { type := e.info.type, hash := (m.entry c).contentHash } htype rfl htype'
    obtain ⟨k, hk⟩ := Option.isSome_iff_exists.mp hhash
    unfold answerFrom fileInfoMatches at hq
    rw [hnone] at hq
    simpa [hk] using hq

/-- In every state of every run, all queries about a path are answered right exactly if an entry of
    it that counts as up to date has its mode, and its hash is there to be compared. -/
theorem file_info_matches_right_iff (hreach : s.Reach c cfg) :
    (∀ query, s.answer c path readable query = fileInfoMatches query ((s.fs path).entry c)) ↔
      s.ModeFresh path ∧ s.HashAvailable path readable := by
  have h := hreach.inv
  cases hstamp : (s.fs path).stamp with
  | none =>
    constructor
    · intro _
      refine ⟨fun e _ hno => ?_, .inr (.inl hstamp)⟩
      rw [hstamp] at hno
      cases hno
    · intro _ query
      exact cachedFileInfoMatches_none query hstamp
  | some st =>
    have hsome : (s.fs path).stamp.isSome = true := by rw [hstamp]; rfl
    obtain ⟨e, he⟩ : ∃ e, e = updateStatinfo false (s.fs path) ((s.caches.hashes path).getD {}) := ⟨_, rfl⟩
    obtain ⟨hfresh, hknown⟩ := updateStatinfo_fresh_iff h hsome he
    rcases updateStatinfo_upToDate (h.current path) (h.entries path) with ⟨hno, -⟩ | ⟨n, hn, hsame, htells⟩
    · rw [hstamp] at hno
      cases hno
    rw [← he] at htells
    have hcontent := h.content path n hn _ (h.current path) hsame
    have hanswer : ∀ query, s.answer c path readable query = answerFrom c readable (s.fs path) e query := fun query =>
      cachedFileInfoMatches_file query he htells hsame hcontent
    obtain ⟨htype, -, hmode, hhash⟩ := htells.statinfo hsame
    have havailable : s.HashAvailable path readable ↔ e.info.hash.isSome = true ∨ readable = true := by
      unfold HashWorld.HashAvailable
      rw [hknown, hstamp]
      simp [or_comm]
    rw [hfresh, havailable]
    simp only [hanswer]
    constructor
    · exact answerFrom_right htells.isFile htype hmode hhash
    rintro ⟨hm, hready⟩ query
    unfold answerFrom fileInfoMatches
    cases typeMatches query ((s.fs path).entry c).statinfo with
    | some b => rfl
    | none => simp only [if_pos hready, hm, hmode]

/-- chmod() of a file that has been looked at: the mode of before is still found to match. -/
theorem a_chmod_is_not_noticed :
    ∃ s : HashWorld, s.Reach magicCodec {} ∧ s.fs ["f"] = .reg [1] 0o600 7 9 ∧
      s.answer magicCodec ["f"] true { type := .isReg, mode := 0o644, modeMask := 0o777 } = true ∧
      fileInfoMatches { type := .isReg, mode := 0o644, modeMask := 0o777 } ((s.fs ["f"]).entry magicCodec) = false := by
  refine ⟨_, .step (.step (.start (fun _ => .reg [1] 0o644 7 9) .empty)
    (a := .fileInfoMatches ["f"] { type := .isReg } true) trivial)
    (a := .change ["f"] (.reg [1] 0o600 7 9)) ?_, rfl, rfl, rfl⟩
  intro n hn _
  rw [List.mem_singleton.mp hn]
  rfl

/-- A file that was written, with a new mtime, after it had been looked at. -/
theorem file_info_matches_right_iff_rewritten :
    ∃ s : HashWorld, s.Reach magicCodec {} ∧ s.fs ["f"] = .reg [2] 0o600 8 9 ∧
      ∀ query, s.answer magicCodec ["f"] true query = fileInfoMatches query ((s.fs ["f"]).entry magicCodec) := by
  have hreach : (((HashWorld.start (fun _ => .reg [1] 0o644 7 9) .empty).step magicCodec {}
      (.fileInfoMatches ["f"] { type := .isReg } true)).step magicCodec {}
      (.change ["f"] (.reg [2] 0o600 8 9))).Reach magicCodec {} := by
    refine .step (.step (.start _ _) trivial) fun n hn hstamp => ?_
    rw [List.mem_singleton.mp hn] at hstamp
    cases hstamp
  refine ⟨_, hreach, rfl, (file_info_matches_right_iff hreach).mpr ⟨fun e he hstamp => ?_, .inl rfl⟩⟩
  cases he
  cases hstamp

end

end Firebuild
