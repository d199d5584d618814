/-
  Firebuild.RoundTrip — what an entry gets back from the blob cache.

  The form of a blob is decided when its content is stored for the first time: a later
  store of the same content finds the key taken and keeps what is there. The form an entry
  expects is decided by the setting its process was stored under. Supervisors come and go
  over one cache directory, each with its own setting (`StoreRun`), so the two agree only
  if a content is always stored under the same setting: `form` says which, by hash.

  Written files need more: `store_and_get_hash()` returns true also where it has no hash, if
  the file is open for writing, if storing it failed, or if it is in a system location, where
  the hash cache believes what it saw first. The entry then refers to the hash 0.

  Proved: `stored_blobs_round_trip`; without `SameForm`, `a_plain_blob_is_not_decompressed`.
-/

import Firebuild.Store

namespace Firebuild

open Lib.WriteOnce

variable {c : Codec} {cfg : CacheConfig} {form : Hash → Bool} {b b' : BlobCache} {cs cs' : Caches} {env : StoreEnv}

/-! ## References -/

def RefsOk (form : Hash → Bool) (b : BlobCache) (o : ProcessOutputs) : Prop :=
  ∀ ref ∈ o.blobRefs, (b.blobs ref.key).isSome = true ∧ form ref.key = ref.compressed

variable {o : ProcessOutputs} {acc : OutputAcc} {fu : FileUsage} {ref : BlobRef}

theorem mem_blobRefs : ref ∈ o.blobRefs ↔
      (∃ f ∈ o.pathIsreg, f.blobRef = some ref) ∨ (∃ r ∈ o.appendToFd, r.blobRef = some ref) := by
  unfold ProcessOutputs.blobRefs
  rw [List.mem_append, List.mem_filterMap, List.mem_filterMap]

theorem RefsOk.mono (h : RefsOk form b o) (hb : Extends b.blobs b'.blobs) : RefsOk form b' o :=
  fun ref hr => ⟨hb.isSome (h ref hr).1, (h ref hr).2⟩

variable {f : SerializedFile}

theorem RefsOk.addFile (h : RefsOk form b o)
    (hf : ∀ ref, f.blobRef = some ref → (b.blobs ref.key).isSome = true ∧ form ref.key = ref.compressed) :
    RefsOk form b { o with pathIsreg := o.pathIsreg ++ [f] } := by
  intro ref hr
  rcases mem_blobRefs.mp hr with ⟨g, hg, href⟩ | happend
  · rcases List.mem_append.mp hg with hg | hg
    · exact h ref (mem_blobRefs.mpr (.inl ⟨g, hg, href⟩))
    · rw [List.mem_singleton.mp hg] at href
      exact hf ref href
  · exact h ref (mem_blobRefs.mpr (.inr happend))

variable {record : Option AppendToFd} {n : Nat}

theorem RefsOk.addAppend (h : RefsOk form b acc.outputs)
    (hr : ∀ r ref, record = some r → r.blobRef = some ref →
      (b.blobs ref.key).isSome = true ∧ form ref.key = ref.compressed)
    (hacc : acc.addAppend cfg record n = .ok acc') : RefsOk form b acc'.outputs := by
  unfold OutputAcc.addAppend at hacc
  split at hacc
  · cases hacc
  cases hacc
  intro ref href
  rcases mem_blobRefs.mp href with hfile | ⟨r, hmem, href'⟩
  · exact h ref (mem_blobRefs.mpr (.inl hfile))
  rcases List.mem_append.mp hmem with hmem | hmem
  · exact h ref (mem_blobRefs.mpr (.inr ⟨r, hmem, href'⟩))
  · exact hr r ref (Option.mem_toList.mp hmem) href'

theorem RefsOk.sorted (h : RefsOk form b o) (env : StoreEnv) (status : Int) :
    RefsOk form b { o.sorted env with exitStatus := status } := by
  intro ref hr
  rcases mem_blobRefs.mp hr with ⟨f, hf, href⟩ | happend
  · have hf : f ∈ o.pathIsreg := (List.perm_insertionSort _ _).mem_iff.mp hf
    exact h ref (mem_blobRefs.mpr (.inl ⟨f, hf, href⟩))
  · exact h ref (mem_blobRefs.mpr (.inr happend))

theorem blobRef_isReg (h : f.blobRef = some ref) :
    f.type = .isReg ∧ f.inlineData = [] ∧ ref = .ofHashes f.hash f.compressedHash := by
  unfold SerializedFile.blobRef at h
  split at h
  · rename_i hreg
    exact ⟨hreg.1, hreg.2, (Option.some.inj h).symm⟩
  · cases h

variable {name : FileName} {inlineData : Bytes} {key : Hash}

/-- A regular file that is not inlined is referred to by its hash, in the session's form. -/
theorem addFile_blobRef (h : (addFile cfg name fi true fu inlineData).blobRef = some ref)
    (hk : fi.hash = some key) : ref = ⟨key, cfg.compressCache⟩ := by
  obtain ⟨_, hinline, rfl⟩ := blobRef_isReg h
  subst hinline
  cases hc : cfg.compressCache <;> simp [addFile, BlobRef.ofHashes, hc, hk]

theorem blobAppend_blobRef (cfg : CacheConfig) (fd : Nat) (key : Hash) :
    (blobAppend cfg fd key).blobRef = some ⟨key, cfg.compressCache⟩ := by
  unfold blobAppend
  cases cfg.compressCache <;> rfl

/-! ## One store -/

/-- What a written file must be like to be stored under the hash of its content. -/
structure FileInForm (form : Hash → Bool) (env : StoreEnv) (name : FileName) (content : Bytes) : Prop where
  form : form (env.codec.hash content) = env.cfg.compressCache
  writers : env.writersCount name = 0
  succeeds : env.fileFails name = none
  location : env.isInReadOnlyLocation name = false

/-- Every content that is stored has the form of the session. -/
structure SameForm (form : Hash → Bool) (env : StoreEnv) (p : StoredProcess) : Prop where
  files : ∀ x ∈ p.fileUsages, x.2.written = true → env.canOpen x.1 = true → ∀ content mode mtime inode,
    env.disk x.1 = .reg content mode mtime inode → FileInForm form env x.1 content
  pipes : ∀ f ∈ p.inheritedFiles, ∀ r content offset, f.kind = .pipeOut (some r) → r.data = .file content offset →
    form (env.codec.hash content) = env.cfg.compressCache
  appended : ∀ f ∈ p.inheritedFiles, ∀ name start content mode mtime inode, f.kind = .file name start →
    env.disk name = .reg content mode mtime inode → form (env.codec.hash (content.drop start)) = env.cfg.compressCache

/-- The caches keep their form, and the references of the outputs are good. -/
def StepOk (form : Hash → Bool) (env : StoreEnv) (cs : Caches) (acc : OutputAcc)
    (r : Caches × Except Refusal OutputAcc) : Prop :=
  Formed env.codec form cs.blob → StoredInForm form env.cfg cs → RefsOk form cs.blob acc.outputs →
    StoresInForm env.codec form env.cfg cs r.1 ∧ ∀ acc', r.2 = .ok acc' → RefsOk form r.1.blob acc'.outputs

theorem StepOk.same (h : ∀ acc', r = .ok acc' → acc' = acc) :
    StepOk form env cs acc (cs, r) := by
  intro hf hs hr
  refine ⟨⟨hf, hs, Extends.refl _⟩, fun acc' hok => ?_⟩
  rw [h acc' hok]
  exact hr

theorem newFileInfo_spec (hf : Formed env.codec form cs.blob) (hs : StoredInForm form env.cfg cs)
    (hok : fu.written = true → env.canOpen name = true → ∀ content mode mtime inode,
      env.disk name = .reg content mode mtime inode → FileInForm form env name content) :
    StoresInForm env.codec form env.cfg cs (newFileInfo env name fu cs).1 ∧
      ∀ info inlineData n, (newFileInfo env name fu cs).2 = .ok (info, inlineData, n) → info.type = .isReg →
        ∃ h, info.hash = some h ∧ ((newFileInfo env name fu cs).1.blob.blobs h).isSome = true ∧
          form h = env.cfg.compressCache := by
  have hsame : StoresInForm env.codec form env.cfg cs cs := ⟨hf, hs, Extends.refl _⟩
  cases hres : (newFileInfo env name fu cs).2 with
  | error r =>
    rw [newFileInfo_error hres]
    exact ⟨hsame, fun _ _ _ => nofun⟩
  | ok x =>
    obtain ⟨info, data, n⟩ := x
    have hinfo := newFileInfo_ok hres
    by_cases hreg : info.type = .isReg
    · obtain ⟨hw, hopen, content, mode, mtime, inode, r, hdisk, hhash, hst⟩ := hinfo.stored hreg
      have hform := hok hw hopen content mode mtime inode hdisk
      rw [hform.location] at hst
      obtain ⟨hstores, hblob⟩ := storeAndGetHash_spec hf hs hform.form hst
      refine ⟨hstores, fun _ _ _ h _ => ?_⟩
      cases h
      exact ⟨r.hash, hhash, hblob hform.writers hform.succeeds⟩
    · rw [hinfo.caches hreg]
      refine ⟨hsame, fun _ _ _ h ht => ?_⟩
      cases h
      exact absurd ht hreg

theorem addOutput_refs (hr : RefsOk form b o)
    (hinfo : info.type = .isReg → ∃ h, info.hash = some h ∧ (b.blobs h).isSome = true ∧ form h = env.cfg.compressCache)
    (h : addOutput env name fu info inlineData o = .ok o') : RefsOk form b o' := by
  have hfile : ∀ data, RefsOk form b { o with pathIsreg := o.pathIsreg ++ [addFile env.cfg name info true (some fu) data] } := by
    intro data
    refine hr.addFile fun ref href => ?_
    obtain ⟨key, hk, hsome, hform⟩ := hinfo (blobRef_isReg href).1
    rw [addFile_blobRef href hk]
    exact ⟨hsome, hform⟩
  cases addOutput_adds h with
  | file data' _ => exact hfile data'
  | dir _ | removed _ _ | nothing _ => exact hr

theorem storeOutput_ok (hok : fu.written = true → env.canOpen name = true → ∀ content mode mtime inode,
      env.disk name = .reg content mode mtime inode → FileInForm form env name content) :
    StepOk form env cs acc (storeOutput env name fu cs acc) := by
  unfold storeOutput
  split
  · exact StepOk.same fun acc' h => (Except.ok.inj h).symm
  intro hf hs hr
  obtain ⟨hstores, hinfo⟩ := newFileInfo_spec hf hs hok
  generalize newFileInfo env name fu cs = n at hstores hinfo
  obtain ⟨cs1, r⟩ := n
  cases r with
  | error e => exact ⟨hstores, fun _ => nofun⟩
  | ok x =>
    obtain ⟨info, inlineData, stored⟩ := x
    dsimp only
    split
    · exact ⟨hstores, fun _ => nofun⟩
    have hr := hr.mono hstores.extends_
    cases hadd : addOutput env name fu info inlineData acc.outputs with
    | error e => exact ⟨hstores, fun _ => nofun⟩
    | ok o =>
      refine ⟨hstores, fun acc' h => ?_⟩
      cases h
      exact addOutput_refs hr (hinfo info inlineData stored rfl) hadd

/-- A content is put into the blob cache, and the outputs refer to it. -/
theorem StepOk.blob (hform : form (env.codec.hash content) = env.cfg.compressCache)
    (hkey : key = env.codec.hash content ∧ b'.blobs = place cs.blob.blobs key (env.cfg.encode env.codec content)) :
    StepOk form env cs acc ({ cs with blob := b' }, acc.addAppend env.cfg (some (blobAppend env.cfg fd key)) n) := by
  obtain ⟨rfl, hb⟩ := hkey
  intro hf hs hr
  have hext : Extends cs.blob.blobs b'.blobs := hb ▸ place_extends _ _ _
  refine ⟨⟨hf.place hform hb, hs.mono hext, hext⟩, fun acc' h => ?_⟩
  refine (hr.mono hext).addAppend (fun r ref hrec href => ?_) h
  cases hrec
  rw [blobAppend_blobRef] at href
  cases href
  exact ⟨by rw [hb]; exact place_isSome _ _ _, hform⟩

theorem StepOk.inlined
    (hrec : ∀ r, record = some r → r.blobRef = none) : StepOk form env cs acc (cs, acc.addAppend env.cfg record n) := by
  intro hf hs hr
  refine ⟨⟨hf, hs, Extends.refl _⟩, fun acc' h => hr.addAppend (fun r ref hr' href => ?_) h⟩
  rw [hrec r hr'] at href
  cases href

theorem storeAppend_ok {f : InheritedFile}
    (hpipe : ∀ r content offset, f.kind = .pipeOut (some r) → r.data = .file content offset →
      form (env.codec.hash content) = env.cfg.compressCache)
    (hfile : ∀ name start content mode mtime inode, f.kind = .file name start →
      env.disk name = .reg content mode mtime inode → form (env.codec.hash (content.drop start)) = env.cfg.compressCache) :
    StepOk form env cs acc (storeAppend env f cs acc) := by
  have herror : ∀ r, StepOk form env cs acc (cs, .error r) := fun r => StepOk.same fun _ => nofun
  have hsame : StepOk form env cs acc (cs, .ok acc) := StepOk.same fun _ h => (Except.ok.inj h).symm
  unfold storeAppend
  split
  · exact hsame
  cases hk : f.kind with
  | other => exact hsame
  | pipeOut recorder =>
    cases recorder with
    | none => exact hsame
    | some r =>
      dsimp only
      cases hst : r.store env.codec env.cfg (env.fdFails f.fd) cs.blob with
      | none => exact herror _
      | some x =>
        obtain ⟨x, b'⟩ := x
        rcases PipeRecorder.store_spec hst with ⟨rfl, rfl⟩ | ⟨data, hdata, rfl, rfl⟩ | ⟨content, offset, key, hd, rfl, hm⟩
        · exact StepOk.inlined fun _ => nofun
        · refine StepOk.inlined fun _ h => ?_
          cases h
          exact if_neg hdata
        · exact StepOk.blob (hpipe r content offset hk hd) (moveStoreFile_spec hm)
  | file name start =>
    dsimp only
    cases hdisk : env.disk name with
    | missing | dir | special => exact herror _
    | reg content mode mtime inode =>
      dsimp only
      split
      · exact herror _
      split
      · exact hsame
      cases hst : storeFile env.codec env.cfg (env.fdFails f.fd) (env.writersCount name) 1 false content start cs.blob with
      | none => exact herror _
      | some x => exact StepOk.blob (hfile name start content mode mtime inode hk hdisk) (storeFile_spec hst)

/-- A step from caches that came about by such steps. -/
theorem StepOk.after (h : StepOk form env cs acc r)
    (hcs : StoresInForm env.codec form env.cfg cs0 cs ∧ RefsOk form cs.blob acc.outputs) :
    StoresInForm env.codec form env.cfg cs0 r.1 ∧
      ∀ acc', r.2 = .ok acc' → StoresInForm env.codec form env.cfg cs0 r.1 ∧ RefsOk form r.1.blob acc'.outputs := by
  obtain ⟨hstores, hrefs⟩ := h hcs.1.formed hcs.1.stored hcs.2
  exact ⟨hcs.1.trans hstores, fun acc' hok => ⟨hcs.1.trans hstores, hrefs acc' hok⟩⟩

variable {p : StoredProcess} {s : CacheState}

section

variable (hok : SameForm form env p) (hf : Formed env.codec form cs.blob) (hs : StoredInForm form env.cfg cs)
include hok hf hs

theorem storeAllOutputs_ok : StoresInForm env.codec form env.cfg cs (storeAllOutputs env p cs).1 ∧
      ∀ o, (storeAllOutputs env p cs).2 = .ok o → RefsOk form (storeAllOutputs env p cs).1.blob o := by
  have hstart : StoresInForm env.codec form env.cfg cs cs ∧ RefsOk form cs.blob {} :=
    ⟨⟨hf, hs, Extends.refl _⟩, nofun⟩
  obtain ⟨hstores, hrefs⟩ := storeAllOutputs_keeps (fun _ _ h => h.1)
    (fun x hx _ _ => (storeOutput_ok (hok.files x hx)).after)
    (fun f hf _ _ => (storeAppend_ok (hok.pipes f hf) (hok.appended f hf)).after) hstart
  refine ⟨hstores, fun o ho => ?_⟩
  obtain ⟨acc, hacc, rfl⟩ := hrefs o ho
  exact hacc.2.sorted env _

/-- What `store()` leaves in the caches, and what its entry refers to. -/
theorem store_ok : StoresInForm env.codec form env.cfg cs (store env p cs).1 ∧
      ∀ e, (store env p cs).2 = .ok e → RefsOk form (store env p cs).1.blob e.outputs := by
  have hsame : StoresInForm env.codec form env.cfg cs cs := ⟨hf, hs, Extends.refl _⟩
  obtain ⟨hstores, hrefs⟩ := storeAllOutputs_ok hok hf hs
  unfold store
  split
  · exact ⟨hsame, fun _ => nofun⟩
  split
  · exact ⟨hsame, fun _ => nofun⟩
  split
  · exact ⟨hsame, fun _ => nofun⟩
  generalize storeAllOutputs env p cs = r at hstores hrefs
  obtain ⟨cs1, r⟩ := r
  cases r with
  | error e => exact ⟨hstores, fun _ => nofun⟩
  | ok o =>
    refine ⟨hstores, fun e h => ?_⟩
    cases h
    exact hrefs o rfl

end

/-! ## Every run -/

/-- The cache directory, and the supervisor that uses it now. -/
structure CacheState where
  cfg : CacheConfig
  caches : Caches
  entries : List ProcessInputsOutputs

def CacheState.restart (s : CacheState) (cfg : CacheConfig) : CacheState :=
  { s with cfg, caches := .start { s.caches.blob with cachedBytes := 0 } }

def CacheState.store (s : CacheState) (env : StoreEnv) (p : StoredProcess) : CacheState :=
  match Firebuild.store env p s.caches with
  | (caches, .ok e) => { s with caches, entries := e :: s.entries }
  | (caches, .error _) => { s with caches }

/-- Supervisors one after the other, each storing processes that meet `ok`. -/
inductive StoreRun (c : Codec) (ok : StoreEnv → StoredProcess → Prop) : CacheState → Prop
  | init (cfg : CacheConfig) : StoreRun c ok ⟨cfg, .start .empty, []⟩
  | restart {s : CacheState} (cfg : CacheConfig) (h : StoreRun c ok s) : StoreRun c ok (s.restart cfg)
  | store {s : CacheState} (env : StoreEnv) (p : StoredProcess) (h : StoreRun c ok s) (hcodec : env.codec = c)
      (hcfg : env.cfg = s.cfg) (hok : ok env p) : StoreRun c ok (s.store env p)

structure CacheState.Good (c : Codec) (form : Hash → Bool) (s : CacheState) : Prop where
  formed : Formed c form s.caches.blob
  stored : StoredInForm form s.cfg s.caches
  refs : ∀ e ∈ s.entries, RefsOk form s.caches.blob e.outputs

theorem StoreRun.good (h : StoreRun c (SameForm form) s) : s.Good c form := by
  induction h with
  | init cfg => exact ⟨fun _ _ => nofun, fun _ _ => nofun, nofun⟩
  | restart cfg _ ih => exact ⟨ih.formed, fun _ _ => nofun, ih.refs⟩
  | @store s env p _ hcodec hcfg hok ih =>
    subst hcodec
    obtain ⟨hstores, hrefs⟩ := store_ok hok ih.formed (hcfg ▸ ih.stored)
    unfold CacheState.store
    generalize Firebuild.store env p s.caches = r at hstores hrefs
    obtain ⟨caches, r⟩ := r
    have hold : ∀ e ∈ s.entries, RefsOk form caches.blob e.outputs := fun e he => (ih.refs e he).mono hstores.extends_
    cases r with
    | error e => exact ⟨hstores.formed, hcfg ▸ hstores.stored, hold⟩
    | ok e =>
      refine ⟨hstores.formed, hcfg ▸ hstores.stored, fun e' he' => ?_⟩
      rcases List.mem_cons.mp he' with rfl | he'
      · exact hrefs _ rfl
      · exact hold e' he'

/-- The blob is there, and what is read from it has the hash that the entry records, also if
    it replaces a file. -/
def RoundTrips (c : Codec) (b : BlobCache) (ref : BlobRef) : Prop :=
  ∃ data content, getFdForFile b ref.key = some data ∧ c.hash content = ref.key ∧
    readBlob c ref.compressed data = some content ∧ ∀ old, retrieveFile c data old false ref.compressed = some content

/-- In every run in which a content is always stored under one setting, every entry gets
    back what it refers to. -/
theorem stored_blobs_round_trip {c : Codec} {form : Hash → Bool} (h : StoreRun c (SameForm form) s) :
    ∀ e ∈ s.entries, ∀ ref ∈ e.outputs.blobRefs, RoundTrips c s.caches.blob ref := by
  intro e he ref href
  obtain ⟨hsome, hform⟩ := h.good.refs e he ref href
  obtain ⟨data, hdata⟩ := Option.isSome_iff_exists.mp hsome
  obtain ⟨content, hhash, hread⟩ := h.good.formed ref.key data hdata
  rw [hform] at hread
  exact ⟨data, content, hdata, hhash, hread, fun old => by rw [retrieveFile_replace, hread]⟩

def createsOut : StoredProcess where
  fileUsages := [(["d", "out"], { initialState := { type := .notExist }, written := true }),
    (["d"], { initialState := { type := .isDir } })]

def storeOut (compressCache : Bool) : StoreEnv where
  codec := magicCodec
  cfg := { compressCache, maxInlineBlobSize := 0, maxEntrySize := 1000 }
  disk name := if name = ["d", "out"] then .reg [1, 2, 3] 0o644 5 7 else .missing

/-- The only content is stored compressed. -/
theorem stored_blobs_round_trip_of_out :
    ∃ s e ref, StoreRun magicCodec (SameForm fun _ => true) s ∧ e ∈ s.entries ∧ ref ∈ e.outputs.blobRefs ∧
      RoundTrips magicCodec s.caches.blob ref := by
  have hform : SameForm (fun _ => true) (storeOut true) createsOut :=
    ⟨fun x hx hw hopen content _ _ _ hdisk => ⟨rfl, rfl, rfl, rfl⟩, nofun,
      nofun⟩
  have h0 : StoreRun magicCodec (SameForm fun _ => true) _ := .init (storeOut true).cfg
  have h1 := h0.store (storeOut true) createsOut rfl rfl hform
  refine ⟨_, _, _, h1, List.mem_cons_self, List.mem_cons_self, ?_⟩
  exact stored_blobs_round_trip h1 _ List.mem_cons_self _ List.mem_cons_self

/-- The content is stored plain, and then again by a supervisor that compresses: the blob
    stays plain, and the new entry cannot be restored. -/
theorem a_plain_blob_is_not_decompressed :
    ∃ s e ref, StoreRun magicCodec (fun _ _ => True) s ∧ e ∈ s.entries ∧ ref ∈ e.outputs.blobRefs ∧
      ¬RoundTrips magicCodec s.caches.blob ref := by
  have h0 : StoreRun magicCodec (fun _ _ => True) _ := .init (storeOut false).cfg
  have h1 := h0.store (storeOut false) createsOut rfl rfl trivial
  have h2 := h1.restart (storeOut true).cfg
  have h3 := h2.store (storeOut true) createsOut rfl rfl trivial
  refine ⟨_, _, _, h3, List.mem_cons_self, List.mem_cons_self, ?_⟩
  rintro ⟨data, content, hdata, _, hread, _⟩
  cases hdata
  cases hread

end Firebuild
