/-
  Firebuild.Contents — the content of an output and what it depends on
  (`execed_process_cacher.cc`: `store`, `pio_matches_fs`).

  An entry is replayed where its inputs match. So if it restores the content of a file, two
  file systems in which the inputs match must not have led to different contents: the content
  the file had before is the same in both, or the process has replaced it (`Pinned`).

  `store()` stores the content of a file with `written` set, and the initial state of the same
  usage is the input. What the usage says of the old content is the invariant of
  `Firebuild.Tracking`; here it is carried over to the entry.

  Proved: `stored_contents_are_pinned`, for every sequence of operations that meets `OpOk`;
  `a_touched_file_is_not_pinned`.
-/

import Firebuild.Tracking

namespace Firebuild

open List

variable {c : Codec} {env : StoreEnv} {p : StoredProcess} {cs : Caches} {name : FileName} {fu : FileUsage}
  {i : ProcessInputs}

/-! ## Inputs -/

/-- The checks of `pio_matches_fs()` for one path. -/
def ProcessInputs.Allows (c : Codec) (i : ProcessInputs) (name : FileName) (node : FsNode) : Prop :=
  (∀ f ∈ i.path, f.path = name → fileInfoMatches (fileToFileInfo f) (node.entry c) = true) ∧
  (name ∈ i.pathNotexist → fileInfoMatches { type := .notExist } (node.entry c) = true)

/-- In every file system in which the inputs match the file has this content. -/
def Pinned (c : Codec) (i : ProcessInputs) (name : FileName) (content : Option Bytes) : Prop :=
  ∀ node, i.Allows c name node → node.content = content

/-- The initial state of a usage is among the inputs, as far as it says something of a regular
    file. -/
structure Recorded (env : StoreEnv) (i : ProcessInputs) (name : FileName) (fu : FileUsage) : Prop where
  notExist : fu.initialState.type = .notExist → name ∈ i.pathNotexist
  regular : fu.initialState.type = .isReg ∨ fu.initialState.type = .notExistOrIsReg →
    addFile env.cfg name fu.initialState false none [] ∈ i.path

theorem Recorded.mono (h : Recorded env i name fu) (hp : i.path ⊆ j.path)
    (hn : i.pathNotexist ⊆ j.pathNotexist) : Recorded env j name fu :=
  ⟨fun ht => hn (h.notExist ht), fun ht => hp (h.regular ht)⟩

theorem storeInput_recorded (h : storeInput env p name fu {} = .ok i) : Recorded env i name fu := by
  unfold storeInput at h
  split at h
  · cases h
  cases ht : fu.initialState.type with
  | dontKnow | isDir | exist | notExistOrIsReg | notExist =>
    simp only [ht] at h
    cases h
    exact ⟨by simp [ht], by simp [ht]⟩
  | isReg =>
    simp only [ht] at h
    split at h
    · cases h
    cases h
    exact ⟨by simp [ht], fun _ => by simp⟩

theorem storeInputs_recorded (h : storeInputs env p = .ok i) (hmem : (name, fu) ∈ p.fileUsages) :
    Recorded env i name fu := by
  obtain ⟨hok, hpath, hmissing⟩ := storeInputs_perm h
  obtain ⟨one, hone⟩ := hok _ hmem
  have hpiece : inputOf env p (name, fu) = one := by simp only [inputOf, hone]
  refine (storeInput_recorded hone).mono (fun f hf => ?_) fun f hf => ?_
  · exact hpath.mem_iff.mpr (mem_flatMap.mpr ⟨_, hmem, hpiece ▸ hf⟩)
  · exact hmissing.mem_iff.mpr (mem_flatMap.mpr ⟨_, hmem, hpiece ▸ hf⟩)

variable {content : Bytes}

/-- An input on which the content of the file is on record pins it. -/
theorem PinsContent.pinned (h : PinsContent c fu.initialState content)
    (hr : Recorded env i name fu) : Pinned c i name (some content) := by
  -- the record of a regular file, without its mode bits
  have hquery : (fu.initialState.type = .isReg ∨ fu.initialState.type = .notExistOrIsReg) → ∀ node, i.Allows c name node →
      ∃ q : FileInfo, fileInfoMatches q (node.entry c) = true ∧ q.type = fu.initialState.type ∧
        q.size = fu.initialState.size ∧ q.hash = fu.initialState.hash := fun ht node hn =>
    ⟨_, hn.1 _ (hr.regular ht) rfl, rfl, rfl, by simp [fileToFileInfo, addFile, FileInfo.setModeBits]⟩
  intro node hn
  rcases h with ⟨ht, rfl⟩ | ⟨ht, hh⟩ | ⟨ht, hs, rfl⟩
  · have hm := hn.2 (hr.notExist ht)
    cases node with
    | missing | special _ => rfl
    | reg content mode mtime inode | dir hash mode mtime inode => cases hm
  · obtain ⟨q, hm, hqt, _, hqh⟩ := hquery (.inl ht) node hn
    rw [ht] at hqt
    cases node with
    | missing =>
      rw [show FsNode.entry c .missing = .missing from rfl, FileInfo.matches_missing, hqt] at hm
      cases hm
    | special mode =>
      rw [show FsNode.entry c (.special mode) = .special mode from rfl, FileInfo.matches_special, hqt] at hm
      cases hm
    | reg content' mode mtime inode =>
      obtain ⟨_, _, hrest⟩ := (FileInfo.matches_reg q _ _ _).mp hm
      rcases hrest with hd | ⟨_, hp⟩
      · rw [hqt] at hd
        cases hd
      rw [hqh, hh] at hp
      rcases hp with hp | hp
      · cases hp
      · rw [FsNode.content, c.hash_injective (Option.some.inj hp)]
    | dir hash mode mtime inode =>
      have := ((FileInfo.matches_dir q _ _).mp hm).1
      rw [hqt] at this
      cases this
  · obtain ⟨q, hm, hqt, hqs, _⟩ := hquery ht node hn
    cases node with
    | missing | special _ => rfl
    | reg content' mode mtime inode =>
      obtain ⟨_, hsize, _⟩ := (FileInfo.matches_reg q _ _ _).mp hm
      have hhas : q.type.hasSize = true := by
        rcases ht with ht | ht <;> rw [hqt, ht] <;> rfl
      rcases hsize hhas with hp | hp
      · rw [hqs, hs] at hp
        cases hp
      · rw [hqs, hs] at hp
        rw [FsNode.content, length_eq_zero_iff.mp (Option.some.inj hp).symm]
    | dir hash mode mtime inode =>
      have hd := ((FileInfo.matches_dir q _ _).mp hm).1
      rcases ht with ht | ht <;> rw [hqt, ht] at hd <;> cases hd

/-! ## Outputs -/

variable {info : FileInfo} {data : Bytes} {n : Nat}

/-- A content is stored of a regular file that was written. -/
theorem newFileInfo_isReg (h : (newFileInfo env name fu cs).2 = .ok (info, data, n))
    (ht : info.type = .isReg) : fu.written = true ∧ (env.disk name).irregular = false := by
  obtain ⟨hw, _, content, mode, mtime, inode, _, hdisk, _⟩ := (newFileInfo_ok h).stored ht
  exact ⟨hw, by rw [hdisk]; rfl⟩

/-- A content among the outputs is one of a usage that was written. -/
def FromUsages (env : StoreEnv) (usages : List (FileName × FileUsage)) (o : ProcessOutputs) : Prop :=
  ∀ r ∈ o.pathIsreg, r.type = .isReg →
    ∃ fu, (r.path, fu) ∈ usages ∧ fu.written = true ∧ (env.disk r.path).irregular = false

/-- What `store()` makes of the new state of one of the files used. -/
def OutputOf (env : StoreEnv) (usages : List (FileName × FileUsage)) (r : SerializedFile) : Prop :=
  ∃ name fu cs info data n data', (name, fu) ∈ usages ∧ (newFileInfo env name fu cs).2 = .ok (info, data, n) ∧
    info.type ≠ .notExist ∧ r = addFile env.cfg name info true (some fu) data'

/-- The files and the directories among the outputs are new states of files used. -/
structure OutputsOf (env : StoreEnv) (usages : List (FileName × FileUsage)) (o : ProcessOutputs) : Prop where
  pathIsreg : ∀ r ∈ o.pathIsreg, OutputOf env usages r
  pathIsdir : ∀ r ∈ o.pathIsdir, OutputOf env usages r ∧ r.type = .isDir

variable {o : ProcessOutputs}

theorem addOutput_outputsOf (ho : OutputsOf env usages o) (hmem : (name, fu) ∈ usages)
    (hinfo : (newFileInfo env name fu cs).2 = .ok (info, data, n))
    (h : addOutput env name fu info data o = .ok o') : OutputsOf env usages o' := by
  have hone : ∀ data', info.type ≠ .notExist → OutputOf env usages (addFile env.cfg name info true (some fu) data') :=
    fun data' ht => ⟨name, fu, cs, info, data, n, data', hmem, hinfo, ht, rfl⟩
  cases addOutput_adds h with
  | file data' ht =>
    refine ⟨fun r hr => ?_, ho.pathIsdir⟩
    rcases mem_append.mp hr with hr | hr
    · exact ho.pathIsreg r hr
    · exact mem_singleton.mp hr ▸ hone data' ht
  | dir ht =>
    refine ⟨ho.pathIsreg, fun r hr => ?_⟩
    rcases mem_append.mp hr with hr | hr
    · exact ho.pathIsdir r hr
    · exact mem_singleton.mp hr ▸ ⟨hone [] (by simp [ht]), ht⟩
  | removed | nothing => exact ⟨ho.pathIsreg, ho.pathIsdir⟩

variable {acc acc' : OutputAcc}

/-- Nothing is added for a usage, or the new state of its file. -/
theorem storeOutput_cases (h : (storeOutput env name fu cs acc).2 = .ok acc') :
    acc' = acc ∨ ∃ info data n, (newFileInfo env name fu cs).2 = .ok (info, data, n) ∧
      addOutput env name fu info data acc.outputs = .ok acc'.outputs := by
  unfold storeOutput at h
  split at h
  · cases h
    exact .inl rfl
  right
  generalize newFileInfo env name fu cs = r at h ⊢
  obtain ⟨cs1, r⟩ := r
  cases r with
  | error e => cases h
  | ok x =>
    obtain ⟨info, data, n⟩ := x
    dsimp only at h
    split at h
    · cases h
    cases hadd : addOutput env name fu info data acc.outputs with
    | error e => simp only [hadd] at h; cases h
    | ok o =>
      simp only [hadd] at h
      cases h
      exact ⟨info, data, n, rfl, hadd⟩

theorem storeAppend_files (h : (storeAppend env f cs acc).2 = .ok acc') :
    acc'.outputs.pathIsreg = acc.outputs.pathIsreg ∧ acc'.outputs.pathIsdir = acc.outputs.pathIsdir := by
  have hadd : ∀ record n, acc.addAppend env.cfg record n = .ok acc' →
      acc'.outputs.pathIsreg = acc.outputs.pathIsreg ∧ acc'.outputs.pathIsdir = acc.outputs.pathIsdir := by
    intro record n h
    unfold OutputAcc.addAppend at h
    split at h
    · cases h
    · cases h
      exact ⟨rfl, rfl⟩
  unfold storeAppend at h
  split at h
  · cases h
    exact ⟨rfl, rfl⟩
  repeat' split at h
  all_goals first | exact hadd _ _ h | (cases h; done) | (cases h; exact ⟨rfl, rfl⟩)

theorem storeAllOutputs_outputsOf (h : (storeAllOutputs env p cs).2 = .ok o) : OutputsOf env p.fileUsages o := by
  have houtput : ∀ x ∈ p.fileUsages, ∀ (cs : Caches) (acc : OutputAcc), OutputsOf env p.fileUsages acc.outputs → True ∧
      ∀ acc', (storeOutput env x.1 x.2 cs acc).2 = .ok acc' → OutputsOf env p.fileUsages acc'.outputs := by
    refine fun x hx cs acc hacc => ⟨trivial, fun acc' h => ?_⟩
    rcases storeOutput_cases h with rfl | ⟨info, data, n, hinfo, hadd⟩
    · exact hacc
    · exact addOutput_outputsOf hacc hx hinfo hadd
  obtain ⟨acc, hacc, rfl⟩ := (storeAllOutputs_keeps
    (fun _ _ _ => trivial) houtput (fun f _ cs acc hacc => ⟨trivial, fun acc' h => by
      obtain ⟨hreg, hdir⟩ := storeAppend_files h
      exact ⟨hreg ▸ hacc.pathIsreg, hdir ▸ hacc.pathIsdir⟩⟩)
    ⟨nofun, nofun⟩).2 o h
  exact ⟨fun r hr => hacc.pathIsreg r ((perm_insertionSort _ _).mem_iff.mp hr),
    fun r hr => hacc.pathIsdir r ((perm_insertionSort _ _).mem_iff.mp hr)⟩

theorem OutputsOf.fromUsages (h : OutputsOf env usages o) : FromUsages env usages o := by
  intro r hr ht
  obtain ⟨name, fu, cs, info, data, n, data', hmem, hinfo, _, rfl⟩ := h.pathIsreg r hr
  exact ⟨fu, hmem, newFileInfo_isReg hinfo ht⟩

/-- Inputs and outputs of an entry come from the usages. -/
theorem store_fromUsages (h : (store env p cs).2 = .ok entry) :
    FromUsages env p.fileUsages entry.outputs ∧ ∀ x ∈ p.fileUsages, Recorded env entry.inputs x.1 x.2 := by
  obtain ⟨_, _, hin, hout⟩ := store_iff.mp h
  exact ⟨(storeAllOutputs_outputsOf hout).fromUsages, fun x hx => storeInputs_recorded hin hx⟩

/-! ## What an output depends on -/

/-- The process as it is stored has this usage of the file, and the file is as the process
    left it. -/
structure StoredAs (env : StoreEnv) (p : StoredProcess) (f : FileName) (t : Track) : Prop where
  usage : ∀ fu, (f, fu) ∈ p.fileUsages → t.usage = some fu
  disk : env.disk f = t.now

/-- If the content of a file is among the outputs of an entry, the process has replaced the
    content the file had before it, or the inputs pin that content. -/
theorem stored_contents_are_pinned (f : FileName) (t : Track) (h : Tracked env.codec f (OpOk env.codec) t)
    (hp : StoredAs env p f t) (entry : ProcessInputsOutputs) (hs : (store env p cs).2 = .ok entry)
    (r : SerializedFile) (hr : r ∈ entry.outputs.pathIsreg) (hf : r.path = f) (ht : r.type = .isReg) :
    t.replaced = true ∨ Pinned env.codec entry.inputs f t.before.content := by
  obtain ⟨hout, hin⟩ := store_fromUsages hs
  obtain ⟨fu, hmem, hw, hirr⟩ := hout r hr ht
  rw [hf] at hmem hirr
  have hknown : t.known = fu := by rw [Track.known, hp.usage fu hmem]; rfl
  rw [hp.disk] at hirr
  rcases h.inv.known.written (hknown ▸ hw) with ha | ha | ⟨content, hc, hpins⟩
  · rw [hirr] at ha
    cases ha
  · exact .inl ha
  rw [hc]
  rw [hknown] at hpins
  exact .inr (hpins.pinned (hin (f, fu) hmem))

def withContent (content : Bytes) : StoreEnv where
  codec := magicCodec
  cfg := { maxEntrySize := 1000 }
  disk name := if name = ["d", "f"] then .reg content 0o644 5 7 else .missing

def lookingAt (content : Bytes) : World :=
  { World.empty with
    getHash := fun _ _ => .ok (.reg content.length (magicCodec.hash content))
    stat := fun _ => .ok (0o644, content.length) }

theorem lookingAt_shows (content : Bytes) (mode : Mode) (mtime inode : Nat) :
    (lookingAt content).Shows magicCodec ["d", "f"] (.reg content mode mtime inode) := by
  refine ⟨fun k size hash h => ?_, fun _ _ => nofun, fun m size content' h hc => ?_⟩
  · cases h
    exact ⟨content, rfl, rfl, rfl⟩
  cases h
  cases hc
  exact .inr rfl

def usesFile (fu : FileUsage) : StoredProcess where
  fileUsages := [(["d", "f"], fu), (["d"], { initialState := { type := .isDir } })]

theorem usesFile_storedAs (hu : t.usage = some fu)
    (hn : t.now = .reg content 0o644 5 7) : StoredAs (withContent content) (usesFile fu) ["d", "f"] t := by
  refine ⟨fun fu' hmem => ?_, hn.symm⟩
  rcases mem_cons.mp hmem with h | h
  · cases h
    exact hu
  · cases mem_singleton.mp h

/-- The file is opened for appending, and a byte is added. -/
theorem stored_contents_are_pinned_after_appending :
    ∃ t entry, Tracked magicCodec ["d", "f"] (OpOk magicCodec) t ∧ t.now.content = some [1, 2] ∧ t.replaced = false ∧
      (store (withContent [1, 2]) (usesFile t.known) (.start .empty)).2 = .ok entry ∧
      Pinned magicCodec entry.inputs ["d", "f"] (some [1]) := by
  have h0 : Tracked magicCodec ["d", "f"] (OpOk magicCodec) _ := .start (.reg [1] 0o644 5 7)
  have h1 : Tracked magicCodec ["d", "f"] (OpOk magicCodec)
      { before := .reg [1] 0o644 5 7, now := .reg [1] 0o644 5 7, opened := true
        usage := some { initialState := { type := .isReg, hash := some (magicCodec.hash [1]) }
                        written := true, propagated := false } } :=
    h0.step (lookingAt [1]) (.open { write := true } 0 false false) trivial
      ⟨fun ⟨_, h⟩ => (by cases h), by decide, ⟨5, 7, rfl⟩, lookingAt_shows _ _ _ _,
        .here (.single ⟨false, _, rfl, rfl⟩) (.ignore _), rfl, rfl, rfl⟩
  have h2 : Tracked magicCodec ["d", "f"] (OpOk magicCodec)
      { before := .reg [1] 0o644 5 7, now := .reg [1, 2] 0o644 5 7, opened := true
        usage := some { initialState := { type := .isReg, hash := some (magicCodec.hash [1]) }
                        written := true, propagated := false } } :=
    h1.step (lookingAt [1, 2]) (.write [1, 2]) trivial
      ⟨fun _ => rfl, by decide, ⟨5, 7, rfl⟩, lookingAt_shows _ _ _ _, .ignore _, rfl, rfl, rfl⟩
  refine ⟨_, _, h2, rfl, rfl, rfl, ?_⟩
  have hpinned := stored_contents_are_pinned ["d", "f"] _ h2 (usesFile_storedAs rfl rfl) _
    (show (store (withContent [1, 2]) _ (.start .empty)).2 = _ from rfl) _ mem_cons_self rfl rfl
  exact hpinned.resolve_left (by decide)

/-- touch -r: the content of the file is stored, and it is not pinned. -/
theorem a_touched_file_is_not_pinned :
    ∃ t entry, Tracked magicCodec ["d", "f"] (fun _ _ _ => True) t ∧
      (store (withContent [1]) (usesFile t.known) (.start .empty)).2 = .ok entry ∧
      StoredAs (withContent [1]) (usesFile t.known) ["d", "f"] t ∧
      (∃ r ∈ entry.outputs.pathIsreg, r.path = ["d", "f"] ∧ r.type = .isReg) ∧ t.replaced = false ∧
      ¬Pinned magicCodec entry.inputs ["d", "f"] t.before.content := by
  have h0 : Tracked magicCodec ["d", "f"] (fun _ _ _ => True) _ := .start (.reg [1] 0o644 5 7)
  have h1 : Tracked magicCodec ["d", "f"] (fun _ _ _ => True)
      { before := .reg [1] 0o644 5 7, now := .reg [1] 0o644 5 7
        usage := some { written := true, propagated := false, timestampSource := some ["d", "s"] } } :=
    h0.step (lookingAt [1]) (.touch ["d", "s"]) trivial
      ⟨fun ⟨_, h⟩ => (by cases h), by decide, ⟨5, 7, rfl⟩, lookingAt_shows _ _ _ _,
        .here (.single ⟨false, _, rfl, rfl⟩) (.ignore _), rfl, rfl, rfl⟩
  refine ⟨_, _, h1, rfl, usesFile_storedAs rfl rfl, ⟨_, mem_cons_self, rfl, rfl⟩, rfl, fun hp => ?_⟩
  -- nothing is asked of the file, so it may as well be another one
  have := hp (.reg [2] 0o644 5 7) ⟨fun f hf hpath => ?_, fun h => absurd h not_mem_nil⟩
  · cases this
  · cases mem_singleton.mp hf
    cases hpath

end Firebuild
