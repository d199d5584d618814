/-
  Firebuild.DirOutputs — a stored directory has a mode (`execed_process_cacher.cc`: `store`,
  and `restore_dirs`, which asserts `dir->has_mode()`), and the timestamps of an output come
  from the file that a touch -r has named (`file_usage.cc`: `merge`; `add_file`).

  `store()` puts a path among the directories if the process has written it and a directory is
  there. The mode is stored only if the usage says that it was changed. The two flags come from
  different updates: mkdir() sets both and chmod() the second one, but a touch -r sets only
  `written`, and so does an open() with O_TMPFILE, which is registered for the directory. So a
  directory that the process has found, and neither chmod()ed nor created itself, must not be
  given the timestamps of a file and must not get an unnamed file (`TouchesOwn`).

  The steps of a process are those of `Firebuild.Tracking`, with the updates of the calls that
  leave the path as it is spelled out (`Leaves`).

  The source of the timestamps is not merged but taken from the last update, which mostly has
  none: any look at the file that gets to the usage drops it.
-/

import Firebuild.Contents

namespace Firebuild

open Lib.Forest

/-! ## Calls that leave the path as it is -/

inductive Leaves (w : World) (f : FileName) : Handling → Prop
  | scandirat (error : Option Errno) : Leaves w f (Process.handleScandirat w (some f) error)
  | stat (kind : FileUsageUpdate.StatKind) (mode : Mode) (size : Nat) (error : Option Errno) :
      Leaves w f (Process.handleFstatat w (.name (some f)) kind mode size error)
  | fstat (kind : FileUsageUpdate.StatKind) (mode : Mode) (size : Nat) (error : Option Errno) :
      Leaves w f (Process.handleFstatat w (.fd (some (some f))) kind mode size error)
  | statfs (error : Option Errno) (quirk : Bool) : Leaves w f (Process.handleStatfs w (some f) error quirk)
  | mktemp : Leaves w f (Process.handleMktemp w f)
  | faccessat (asked : Process.AccessMode) (error : Option Errno) :
      Leaves w f (Process.handleFaccessat w (some f) asked error)
  | failedOpen (flags : OpenFlags) (modeWithUmask : Mode) (resolveFlags oTmpfile : Bool) (error : Errno)
      (preOpenSent tmpFile : Bool) :
      Leaves w f (Process.handleOpen w (some f) flags modeWithUmask resolveFlags oTmpfile (some error) preOpenSent tmpFile)
  | failedTruncate (length : Nat) (error : Errno) : Leaves w f (Process.handleTruncate w (some f) length (some error))
  | failedUnlink (removeDir : Bool) (error : Errno) (preOpenSent : Bool) :
      Leaves w f (Process.handleUnlink w (some f) removeDir (some error) preOpenSent)
  | failedMkdir (error : Errno) (tmpDir : Bool) : Leaves w f (Process.handleMkdir w (some f) (some error) tmpDir)
  | failedRename (oldName : Option FileName) (isReg : Bool) (error : Errno) :
      Leaves w f (Process.handleRename w oldName (some f) isReg (some error))

def Reaction.updates (f : FileName) : Reaction → List FileUsageUpdate
  | .register name d _ next => if name = f then d :: next.updates f else next.updates f
  | .ignore | .disable _ | .abort => []

/-- What is registered for a path otherwise: by a call that leaves it as it is, or by a call on
    a file in it. -/
inductive LookedAt (w : World) (f : FileName) (d : FileUsageUpdate) : Prop
  | call (h : Handling) : Leaves w f h → d ∈ h.reaction.updates f → LookedAt w f d
  | child (generation : FileName → Nat) (name : FileName) (d' : FileUsageUpdate) :
      ParentUpdate generation w name d' f d → LookedAt w f d

variable {w : World} {f : FileName} {d : FileUsageUpdate}

theorem updates_registers
    (h : d ∈ (Reaction.registers name d' reason).updates f) : d = d' := by
  unfold Reaction.registers Reaction.updates at h
  split at h
  · exact List.mem_singleton.mp h
  · cases h

theorem updateFromEnotdir_written (w : World) (d : FileUsageUpdate) (f : FileName) :
    (d.updateFromEnotdir w f).written = d.written := by
  unfold FileUsageUpdate.updateFromEnotdir
  split <;> try rfl
  split <;> rfl

theorem getFromOpenParams_failed (w : World) (f : FileName) (flags : OpenFlags) (mode : Mode) (error : Errno)
    (tmpFile : Bool) : (FileUsageUpdate.getFromOpenParams w f flags mode (some error) tmpFile).written = false := by
  unfold FileUsageUpdate.getFromOpenParams FileUsageUpdate.getFromFailedOpenForWriting
  dsimp only
  repeat' split
  all_goals first | rfl | exact updateFromEnotdir_written _ _ _

theorem Leaves.written (hl : Leaves w f h) (hd : d ∈ h.reaction.updates f) : d.written = false := by
  cases hl with
  | scandirat error =>
    unfold Process.handleScandirat at hd
    split at hd
    all_goals first | cases hd | (cases updates_registers hd; rfl)
  | stat kind mode size error | fstat kind mode size error =>
    cases updates_registers hd
    unfold FileUsageUpdate.getFromStatParams
    split
    · split <;> rfl
    · rfl
  | statfs error quirk =>
    unfold Process.handleStatfs at hd
    dsimp only at hd
    split at hd
    · cases updates_registers hd
      rfl
    · cases quirk <;> cases hd
  | mktemp =>
    cases updates_registers hd
    rfl
  | faccessat asked error =>
    unfold Process.handleFaccessat at hd
    repeat' split at hd
    all_goals first | cases hd | (cases updates_registers hd; rfl)
  | failedOpen flags mode resolveFlags oTmpfile error preOpenSent tmpFile =>
    unfold Process.handleOpen at hd
    split at hd
    · cases hd
    · cases updates_registers hd
      exact getFromOpenParams_failed _ _ _ _ _ _
  | failedTruncate length error =>
    unfold Process.handleTruncate at hd
    dsimp only at hd
    split at hd
    · cases hd
    · cases updates_registers hd
      exact getFromOpenParams_failed _ _ _ _ _ _
  | failedUnlink removeDir error preOpenSent =>
    unfold Process.handleUnlink at hd
    dsimp only at hd
    split at hd
    · contradiction
    · cases updates_registers hd
      rfl
    · cases hd
  | failedMkdir error tmpDir =>
    cases updates_registers hd
    unfold FileUsageUpdate.getFromMkdirParams
    split <;> try rfl
    · contradiction
    · split <;> rfl
  | failedRename oldName isReg error =>
    unfold Process.handleRename at hd
    split at hd
    · cases updates_registers hd
      rfl
    · cases hd
    · contradiction

theorem LookedAt.written (h : LookedAt w f d) : d.written = false := by
  cases h with
  | call h hl hd => exact hl.written hd
  | child generation name d' h =>
    rw [h.2]
    rfl

/-! ## The flags of a usage -/

/-- Merging an update, once or more often, adds its flags. -/
theorem takesIn_flags (h : Relation.TransGen (TakesIn w d) fu fu') :
    ∃ u', fu' = some u' ∧ u'.written = ((fu.getD (.get .dontKnow)).written || d.written) ∧
      u'.modeChanged = ((fu.getD (.get .dontKnow)).modeChanged || d.modeChanged) := by
  have hone : ∀ {fu fu'}, TakesIn w d fu fu' → ∃ u', fu' = some u' ∧
      u'.written = ((fu.getD (.get .dontKnow)).written || d.written) ∧
      u'.modeChanged = ((fu.getD (.get .dontKnow)).modeChanged || d.modeChanged) := by
    rintro fu fu' ⟨propagated, u', hm, rfl⟩
    obtain ⟨r, hm⟩ := FileUsage.merge_spec (mergeAt_ok hm).1
    exact ⟨u', rfl, hm.written, hm.modeChanged⟩
  induction h with
  | single hfirst => exact hone hfirst
  | tail _ hnext ih =>
    obtain ⟨u, rfl, hw, hm⟩ := ih
    obtain ⟨u', rfl, hw', hm'⟩ := hone hnext
    refine ⟨u', rfl, ?_, ?_⟩
    · rw [hw', Option.getD_some, hw, Bool.or_assoc, Bool.or_self]
    · rw [hm', Option.getD_some, hm, Bool.or_assoc, Bool.or_self]

/-! ## The steps of a process -/

/-- An update that is registered otherwise is one of those calls. -/
def Sent (w : World) (f : FileName) : FileOp → Prop
  | .look d => LookedAt w f d
  | _ => True

/-- A touch -r of a directory, and an unnamed file in it, only where the process knows that it
    has set the mode. -/
def TouchesOwn (op : FileOp) (t : Track) : Prop :=
  match op with
  | .touch _ => t.now.content = none → t.known.modeChanged = true
  | .open _ _ oTmpfile _ => oTmpfile = true → t.known.modeChanged = true
  | _ => True

/-- A directory that the process has written is one whose mode it has set. -/
def Track.DirModeKnown (t : Track) : Prop :=
  t.known.written = true → t.now.content = none → t.known.modeChanged = true

variable {c : Codec} {t t' : Track} {op : FileOp} {time inode : Nat} {node node' : FsNode}

/-- An update with both flags, one for a directory whose mode is set, and one without flags for
    a directory that was there. -/
theorem Track.DirModeKnown.update (hi : t.DirModeKnown) (h : Relation.TransGen (TakesIn w d) t.usage t'.usage)
    (hwhy : t'.now.content = none →
      d.modeChanged = true ∨ t.known.modeChanged = true ∨ t.now.content = none ∧ d.written = false) :
    t'.DirModeKnown := by
  obtain ⟨u', hu, hw, hm⟩ := takesIn_flags h
  have hknown : t'.known = u' := by rw [Track.known, hu]; rfl
  intro hwritten hdir
  rw [hknown] at hwritten ⊢
  rw [show u'.modeChanged = (t.known.modeChanged || d.modeChanged) from hm]
  rcases hwhy hdir with hd | hd | ⟨hdir, hd⟩
  · rw [hd, Bool.or_true]
  · rw [hd, Bool.true_or]
  · rw [hw, hd, Bool.or_false] at hwritten
    rw [hi hwritten hdir, Bool.true_or]

/-- A directory that is there after an operation was there before, or mkdir() has made it. -/
theorem FileOp.after_dir (h : op.after time inode node = some node')
    (hd : node'.content = none) : node.content = none ∨ ∃ listing mode tmpDir, op = .mkdir listing mode tmpDir := by
  cases op with
  | mkdir listing mode tmpDir => exact .inr ⟨_, _, _, rfl⟩
  | look d =>
    cases h
    exact .inl hd
  | «open» flags mode oTmpfile tmpFile =>
    left
    cases node with
    | dir _ _ _ _ => rfl
    | missing | reg _ _ _ _ | special _ =>
      simp only [FileOp.after] at h
      repeat' split at h
      all_goals cases h
      all_goals cases hd
  | write _ | truncate _ | chmod _ | touch _ | unlink | rmdir | moveAway _ | moveOver _ _ _ =>
    left
    cases node <;> cases h <;> cases hd <;> rfl

theorem FileOp.after_open_write
    (h : (FileOp.open flags mode false tmpFile).after time inode node = some node') (hw : flags.write = true) :
    node'.content ≠ none := by
  intro hd
  cases node with
  | dir _ _ _ _ => simp [FileOp.after, hw] at h
  | missing | reg _ _ _ _ | special _ =>
    rcases FileOp.after_dir h hd with hd | ⟨_, _, _, hop⟩
    · cases hd
    · cases hop

theorem FileStep.dirModeKnown (h : FileStep c f w op t t') (hs : Sent w f op) (hok : TouchesOwn op t)
    (hi : t.DirModeKnown) : t'.DirModeKnown := by
  have htakes := h.takes
  obtain ⟨time, inode, hafter⟩ := h.after
  have hdir := FileOp.after_dir hafter
  have hgone : t'.now.content ≠ none → t'.DirModeKnown := fun hn _ hd => absurd hd hn
  cases op with
  | write content =>
    have hu : t'.known = t.known := by rw [Track.known, takes_ignore htakes, Track.known]
    intro hw hd
    rw [hu] at hw ⊢
    exact hi hw ((hdir hd).resolve_right (by rintro ⟨_, _, _, hop⟩; cases hop))
  | «open» flags mode oTmpfile tmpFile =>
    have htakes := takes_registers htakes
    cases oTmpfile with
    | true => exact hi.update htakes fun _ => .inr (.inl (hok rfl))
    | false =>
      cases hw : flags.write with
      | true => exact hgone (FileOp.after_open_write hafter hw)
      | false =>
        refine hi.update htakes fun hd => .inr (.inr ⟨?_, ?_⟩)
        · exact (hdir hd).resolve_right (by rintro ⟨_, _, _, hop⟩; cases hop)
        · simp [FileUsageUpdate.getFromOpenParams, hw, FileUsageUpdate.new]
  | truncate length =>
    refine hgone fun hd => ?_
    generalize t'.now = node' at hafter hd
    cases hn : t.now <;> rw [hn] at hafter <;> cases hafter
    cases hd
  | chmod mode | mkdir listing mode tmpDir => exact hi.update (takes_registers htakes) fun _ => .inl rfl
  | touch source =>
    refine hi.update (takes_registers htakes) fun hd => .inr (.inl (hok ?_))
    exact (hdir hd).resolve_right (by rintro ⟨_, _, _, hop⟩; cases hop)
  | unlink | rmdir | moveAway newName | moveOver oldName content mode =>
    refine hgone fun hd => ?_
    generalize t'.now = node' at hafter hd
    cases hn : t.now <;> rw [hn] at hafter <;> cases hafter
    all_goals cases hd
  | look d =>
    refine hi.update (takes_registers htakes) fun hd => .inr (.inr ⟨?_, LookedAt.written hs⟩)
    exact (hdir hd).resolve_right (by rintro ⟨_, _, _, hop⟩; cases hop)

theorem Tracked.dirModeKnown (h : Tracked c f (fun w op t => Sent w f op ∧ TouchesOwn op t) t) : t.DirModeKnown := by
  induction h with
  | start node => exact nofun
  | step w op _ hok hstep ih => exact hstep.dirModeKnown hok.1 hok.2 ih

/-! ## What store() makes of it -/

variable {env : StoreEnv} {p : StoredProcess} {cs : Caches} {name : FileName} {fu : FileUsage}

/-- A directory among the outputs is there, was written, and has its mode stored if the mode
    was changed. -/
def DirsFromUsages (env : StoreEnv) (usages : List (FileName × FileUsage)) (o : ProcessOutputs) : Prop :=
  ∀ r ∈ o.pathIsdir, ∃ fu, (r.path, fu) ∈ usages ∧ fu.written = true ∧ (env.disk r.path).content = none ∧
    (fu.modeChanged = true → r.mode.isSome = true)

theorem newFileInfo_isDir
    (h : (newFileInfo env name fu cs).2 = .ok (info, data, n)) (ht : info.type = .isDir) :
    fu.written = true ∧ (env.disk name).content = none ∧ (fu.modeChanged = true → info.modeMask = allModeBits) := by
  have hinfo := newFileInfo_ok h
  have htype := hinfo.type.symm.trans ht
  unfold newType at htype
  cases hdisk : env.disk name with
  | dir hash mode mtime inode =>
    refine ⟨?_, rfl, fun hm => hinfo.mode hm (by simp [hdisk])⟩
    cases hw : fu.written <;> simp [hdisk, hw] at htype ⊢
  | missing => simp [hdisk] at htype
  | special mode => cases hw : fu.written <;> simp [hdisk, hw] at htype
  | reg content mode mtime inode =>
    simp only [hdisk] at htype
    repeat' split at htype
    all_goals cases htype

theorem store_dirsFromUsages (h : (store env p cs).2 = .ok entry) :
    DirsFromUsages env p.fileUsages entry.outputs := by
  intro r hr
  obtain ⟨⟨name, fu, cs, info, data, n, data', hmem, hinfo, _, rfl⟩, ht⟩ :=
    (storeAllOutputs_outputsOf (store_iff.mp h).2.2.2).pathIsdir r hr
  obtain ⟨hw, hd, hm⟩ := newFileInfo_isDir hinfo ht
  refine ⟨fu, hmem, hw, hd, fun hc => ?_⟩
  have hmask : info.modeMask ≠ 0 := by
    rw [hm hc]
    decide
  simp only [addFile, if_pos hmask, Option.isSome_some]

/-- If the process has touched only directories whose mode it has set, every directory among
    the outputs of its entry has a mode. -/
theorem stored_dirs_have_modes (env : StoreEnv) (p : StoredProcess) (cs : Caches)
    (hp : ∀ f fu, (f, fu) ∈ p.fileUsages → ∃ t,
      Tracked env.codec f (fun w op t => Sent w f op ∧ TouchesOwn op t) t ∧ StoredAs env p f t)
    (entry : ProcessInputsOutputs) (hs : (store env p cs).2 = .ok entry) :
    ∀ r ∈ entry.outputs.pathIsdir, r.mode.isSome = true := by
  intro r hr
  obtain ⟨fu, hmem, hw, hd, hmode⟩ := store_dirsFromUsages hs r hr
  obtain ⟨t, ht, hst⟩ := hp r.path fu hmem
  have hknown : t.known = fu := by rw [Track.known, hst.usage fu hmem]; rfl
  apply hmode
  rw [← hknown]
  exact ht.dirModeKnown (by rw [hknown, hw]) (hst.disk ▸ hd)

def withDirs : StoreEnv where
  codec := magicCodec
  cfg := { maxEntrySize := 1000 }
  disk name := if name = ["d", "n"] ∨ name = ["d"] then .dir 3 0o755 5 7 else .missing

def usesDir (fu : FileUsage) : StoredProcess where
  fileUsages := [(["d", "n"], fu), (["d"], { initialState := { type := .isDir }, propagated := false })]

theorem shows_empty (c : Codec) (f : FileName) (node : FsNode) : World.empty.Shows c f node :=
  ⟨fun _ _ _ => nofun, fun _ _ => nofun, fun _ _ _ => nofun⟩

/-- "/d" is known as the parent of a directory that is created. -/
theorem usesDir_tracked (ok : FileName → World → FileOp → Track → Prop)
    (hok : ∀ w f d t, LookedAt w f d → ok f w (.look d) t)
    (ht : Tracked magicCodec ["d", "n"] (ok ["d", "n"]) t) (hu : t.usage = some fu) (hn : t.now = .dir 3 0o755 5 7) :
    ∀ f fu', (f, fu') ∈ (usesDir fu).fileUsages →
      ∃ t, Tracked magicCodec f (ok f) t ∧ StoredAs withDirs (usesDir fu) f t := by
  have hparent : Tracked magicCodec ["d"] (ok ["d"])
      { before := .dir 3 0o755 5 7, now := .dir 3 0o755 5 7
        usage := some { initialState := { type := .isDir }, propagated := false } } := by
    refine (Tracked.start (.dir 3 0o755 5 7)).step .empty (.look (.new .empty ["d"] .isDir false false)) (hok _ _ _ _ ?_) ?_
    · exact .child (fun _ => 0) ["d", "n"] (.getFromMkdirParams .empty ["d", "n"] none false)
        ⟨⟨by decide, by decide⟩, rfl⟩
    · exact ⟨fun ⟨_, h⟩ => (by cases h), by decide, ⟨5, 7, rfl⟩, shows_empty _ _ _,
        .here (.single ⟨false, _, rfl, rfl⟩) (.ignore _), rfl, rfl, rfl⟩
  intro f fu' hmem
  rcases List.mem_cons.mp hmem with h | h
  · cases h
    refine ⟨t, ht, fun fu' hmem => ?_, hn.symm⟩
    rcases List.mem_cons.mp hmem with h | h
    · cases h
      exact hu
    · cases List.mem_singleton.mp h
  · cases List.mem_singleton.mp h
    refine ⟨_, hparent, fun fu' hmem => ?_, rfl⟩
    rcases List.mem_cons.mp hmem with h | h
    · cases h
    · cases List.mem_singleton.mp h
      rfl

/-- The usage of "/d/n" after mkdir(), and after a touch -r of what is there. -/
def created : FileUsage :=
  { initialState := { type := .notExist }, written := true, modeChanged := true, propagated := false }

def touched : FileUsage := { written := true, propagated := false, timestampSource := some ["d", "f"] }

/-- "/d/n" is created. -/
theorem stored_dirs_have_modes_created :
    ∃ entry, (store withDirs (usesDir created) (.start .empty)).2 = .ok entry ∧
      (∃ r ∈ entry.outputs.pathIsdir, r.path = ["d", "n"]) ∧
      ∀ r ∈ entry.outputs.pathIsdir, r.mode.isSome = true := by
  have hdir : Tracked magicCodec ["d", "n"] (fun w op t => Sent w ["d", "n"] op ∧ TouchesOwn op t)
      { before := .missing, now := .dir 3 0o755 5 7, usage := some created } :=
    (Tracked.start .missing).step .empty (.mkdir 3 0o755 false) ⟨trivial, trivial⟩
      ⟨fun ⟨_, h⟩ => (by cases h), by decide, ⟨5, 7, rfl⟩, shows_empty _ _ _,
        .here (.single ⟨false, _, rfl, rfl⟩) (.ignore _), rfl, rfl, rfl⟩
  have hp := usesDir_tracked (fun f w op t => Sent w f op ∧ TouchesOwn op t)
    (fun _ _ _ _ hd => ⟨hd, trivial⟩) hdir rfl rfl
  exact ⟨_, rfl, ⟨_, List.mem_cons_self, rfl⟩, stored_dirs_have_modes withDirs _ (.start .empty) hp _ rfl⟩

/-- "/d/n" is there, and gets the timestamps of a file. -/
theorem a_touched_dir_has_no_mode :
    ∃ entry, (∀ f fu, (f, fu) ∈ (usesDir touched).fileUsages → ∃ t,
        Tracked magicCodec f (fun w op _ => Sent w f op) t ∧ StoredAs withDirs (usesDir touched) f t) ∧
      (store withDirs (usesDir touched) (.start .empty)).2 = .ok entry ∧
      ∃ r ∈ entry.outputs.pathIsdir, r.path = ["d", "n"] ∧ r.mode = none := by
  have hdir : Tracked magicCodec ["d", "n"] (fun w op _ => Sent w ["d", "n"] op)
      { before := .dir 3 0o755 5 7, now := .dir 3 0o755 5 7, usage := some touched } :=
    (Tracked.start (.dir 3 0o755 5 7)).step .empty (.touch ["d", "f"]) trivial
      ⟨fun ⟨_, h⟩ => (by cases h), by decide, ⟨5, 7, rfl⟩, shows_empty _ _ _,
        .here (.single ⟨false, _, rfl, rfl⟩) (.ignore _), rfl, rfl, rfl⟩
  have hp := usesDir_tracked (fun f w op _ => Sent w f op) (fun _ _ _ _ hd => hd) hdir rfl rfl
  exact ⟨_, hp, rfl, _, List.mem_cons_self, rfl, rfl⟩

/-! ## The source of an output's timestamps -/

section Source

variable {quick : Bool} {cfg : Config} {s s1 s' : Supervisor} {q : Nat} {source : FileName} {r : SerializedFile}

/-- `add_file()` takes the source from the usage. -/
theorem OutputOf.timestampSource (h : OutputOf env usages r) :
    ∃ fu, (r.path, fu) ∈ usages ∧ r.timestampSource = fu.timestampSource := by
  obtain ⟨name, fu, cs, info, data, n, data', hmem, _, ht, rfl⟩ := h
  exact ⟨fu, hmem, if_pos ⟨rfl, ht⟩⟩

/-- `merge()` takes the source from the update, also if the update has none. -/
theorem TakesIn.timestampSource {fu fu' : Option FileUsage} (h : TakesIn w d fu fu') :
    ∃ u', fu' = some u' ∧ u'.timestampSource = d.timestampSource := by
  obtain ⟨propagated, u', hm, rfl⟩ := h
  obtain ⟨r, hm⟩ := FileUsage.merge_spec (mergeAt_ok hm).1
  exact ⟨u', rfl, hm.timestampSource⟩

/-- In the usage of the process the file's timestamps are those of `source`. -/
def Supervisor.NamesSource (s : Supervisor) (q : Nat) (f source : FileName) : Prop :=
  ∃ fu, s.fileUsages q f = some fu ∧ fu.timestampSource = some source

/-- What the process has at its end when it is stored. -/
def Supervisor.EndsAs (s : Supervisor) (q : Nat) (p : StoredProcess) : Prop :=
  ∀ f fu, (f, fu) ∈ p.fileUsages → s.fileUsages q f = some fu

/-- What is registered at or below the process for the path names the source again, the path is
    not implied to be a parent directory, and it is not opened for writing. -/
def Supervisor.KeepsSource (s : Supervisor) (q : Nat) (f source : FileName) : Event → Prop
  | .registerFileUsageUpdate _ this name d => AtOrAbove s.tree.up this q →
      (name = f → d.timestampSource = some source) ∧ ¬Implied name d f
  | .openForWriting _ proc name => AtOrAbove s.tree.up proc q → name ≠ f
  | _ => True

/-- Runs of the supervisor whose events all keep the source. -/
inductive KeepSource (quick : Bool) (cfg : Config) (q : Nat) (f source : FileName) : Supervisor → Supervisor → Prop
  | refl (s : Supervisor) : KeepSource quick cfg q f source s s
  | step {s s1 s' : Supervisor} {e : Event} (hrun : KeepSource quick cfg q f source s s1) (ha : Allowed s1 e)
      (hk : s1.KeepsSource q f source e) (h : step quick cfg s1 e = some s') : KeepSource quick cfg q f source s s'

theorem Learns.timestampSource {updates : FileUsageUpdate → Prop} {fu fu' : Option FileUsage}
    {source : Option FileName} (h : Learns w updates fu fu') (hd : ∀ d, updates d → d.timestampSource = source)
    (hfu : ∃ u, fu = some u ∧ u.timestampSource = source) : ∃ u, fu' = some u ∧ u.timestampSource = source := by
  induction h with
  | refl => exact hfu
  | tail _ hlast _ =>
    obtain ⟨d, hupd, htakes⟩ := hlast
    obtain ⟨u, hu, hsrc⟩ := htakes.timestampSource
    exact ⟨u, hu, hsrc.trans (hd d hupd)⟩

theorem step_namesSource {e : Event} (hs : Sound s) (ha : Allowed s e) (hk : s.KeepsSource q f source e)
    (h : step quick cfg s e = some s') (hnames : s.NamesSource q f source) : s'.NamesSource q f source := by
  have hsame : s'.fileUsages q f = s.fileUsages q f → s'.NamesSource q f source := by
    intro he
    rwa [Supervisor.NamesSource, he]
  cases step_effect hs ha h with
  | lowered hl _ => exact hsame (by rw [hl.fileUsages])
  | placed p hp _ => exact hsame (by rw [hp.fileUsages])
  | @registered w this name d _ hreg =>
    by_cases hat : AtOrAbove s.tree.up this q
    · obtain ⟨hname, himp⟩ := hk hat
      obtain ⟨⟨b, s1⟩, hr, h⟩ := Option.map_eq_some_iff.mp h
      cases h
      refine ((registerFileUsageUpdate_learned hr).usage q f).timestampSource (fun d' hd' => ?_) hnames
      rcases hd' with ⟨rfl, rfl⟩ | ⟨hd', _⟩
      · exact hname rfl
      · exact absurd hd' himp
    · exact hsame (hreg.outside rfl fun h => hat h.1)
  | @started w proc name d _ _ hd hreg =>
    refine hsame (hreg.outside rfl fun h => ?_)
    rcases h.2 with rfl | ⟨hpar, _⟩
    · exact hk h.1 rfl
    · exact hpar hd

theorem KeepSource.namesSource (hrun : KeepSource quick cfg q f source s s') (hs : Sound s)
    (hnames : s.NamesSource q f source) : Sound s' ∧ s'.NamesSource q f source := by
  induction hrun with
  | refl => exact ⟨hs, hnames⟩
  | step _ ha hk h ih => exact ⟨step_sound ih.1 ha h, step_namesSource ih.1 ha hk h ih.2⟩

/-- A registration of the process itself that it survives shortcutable decides about the source
    of the path, and of the parent directory that it implies. -/
theorem registered_source (hi : s.ignores cfg q name = false) (hif : s.ignores cfg q f = false)
    (hcan : s.tree.can q = true) (hcan' : s'.tree.can q = true) (hf : name = f ∨ Implied name d f)
    (h : step quick cfg s (.registerFileUsageUpdate w q name d) = some s') :
    ∃ u, s'.fileUsages q f = some u ∧ u.timestampSource = if name = f then d.timestampSource else none := by
  obtain ⟨⟨b, s1⟩, hr, h⟩ := Option.map_eq_some_iff.mp h
  cases h
  obtain ⟨⟨u, hm, hlearns⟩, hdir⟩ := registerFileUsageUpdate_here (s := { s with uses := [] }) hi hcan hr hcan'
  by_cases hname : name = f
  · subst hname
    rw [if_pos rfl]
    exact hlearns.timestampSource (fun d' hd' => by rw [updateFor_name hd']) (TakesIn.timestampSource ⟨_, u, hm, rfl⟩)
  · rw [if_neg hname]
    obtain ⟨u, hm, hlearns⟩ := hdir f (hf.resolve_left hname) hif
    refine hlearns.timestampSource (fun d' hd' => ?_) (TakesIn.timestampSource ⟨_, u, hm, rfl⟩)
    rw [(updateFor_dir (Ne.symm hname) hd').2]
    rfl

theorem register_namesSource_iff (hs : Sound s) (hnames : s.NamesSource q f source)
    (ha : Allowed s (.registerFileUsageUpdate w q name d)) (hi : s.ignores cfg q name = false)
    (hif : s.ignores cfg q f = false) (hcan : s.tree.can q = true) (hcan' : s'.tree.can q = true)
    (h : step quick cfg s (.registerFileUsageUpdate w q name d) = some s') :
    s'.NamesSource q f source ↔ s.KeepsSource q f source (.registerFileUsageUpdate w q name d) := by
  refine ⟨?_, fun hk => step_namesSource hs ha hk h hnames⟩
  rintro ⟨fu, hfu, hsrc⟩ _
  have hdecides : name = f ∨ Implied name d f → some source = if name = f then d.timestampSource else none := by
    intro hf
    obtain ⟨u, hu, hus⟩ := registered_source hi hif hcan hcan' hf h
    cases hfu.symm.trans hu
    exact hsrc.symm.trans hus
  refine ⟨fun hname => ?_, fun himp => ?_⟩
  · have := hdecides (.inl hname)
    rw [if_pos hname] at this
    exact this.symm
  · have := hdecides (.inr himp)
    rw [if_neg (Ne.symm (parentDir_ne himp.2.1))] at this
    cases this

/-- A stored output names the source that the usage names. -/
theorem stored_source_iff (hp : s.EndsAs q p)
    (h : (store env p cs).2 = .ok entry) (hr : r ∈ entry.outputs.pathIsreg ++ entry.outputs.pathIsdir) :
    r.timestampSource = some source ↔ s.NamesSource q r.path source := by
  have hof := storeAllOutputs_outputsOf (store_iff.mp h).2.2.2
  obtain ⟨fu, hmem, hsrc⟩ : ∃ fu, (r.path, fu) ∈ p.fileUsages ∧ r.timestampSource = fu.timestampSource := by
    rcases List.mem_append.mp hr with hr | hr
    · exact (hof.pathIsreg r hr).timestampSource
    · exact (hof.pathIsdir r hr).1.timestampSource
  have hfu := hp _ _ hmem
  rw [hsrc]
  constructor
  · exact fun hnamed => ⟨fu, hfu, hnamed⟩
  rintro ⟨fu', hfu', hnamed⟩
  cases hfu.symm.trans hfu'
  exact hnamed

def inDir : Supervisor where
  tree := ⟨1, fun _ => {}⟩
  jobserverFifo := fun _ => none
  fileUsages := fun q f => if q = 0 ∧ f = ["d"] then some { initialState := { type := .isDir } } else none
  generation := fun _ => 0
  writeOfds := fun _ => none
  uses := []

def statOf (f : FileName) : FileUsageUpdate := .getFromStatParams .empty f .reg 0o644 1 none

/-- The process gives "/d/f" the timestamps of "/d/g". -/
def afterTouch : Supervisor :=
  ((registerFileUsageUpdate true {} .empty inDir 0 ["d", "f"]
    (Process.touchUpdate .empty ["d", "f"] ["d", "g"])).getD (false, inDir)).2

def lookedAfter (f : FileName) : Supervisor :=
  ((registerFileUsageUpdate true {} .empty afterTouch 0 f (statOf f)).getD (false, inDir)).2

def touchedThenStat (f : FileName) : StoredProcess := usesFile (((lookedAfter f).fileUsages 0 ["d", "f"]).getD (.get .dontKnow))

theorem touchedThenStat_endsAs (f : FileName) (hf : ((lookedAfter f).fileUsages 0 ["d", "f"]).isSome = true)
    (hd : (lookedAfter f).fileUsages 0 ["d"] = some { initialState := { type := .isDir } }) :
    (lookedAfter f).EndsAs 0 (touchedThenStat f) := by
  intro name fu hmem
  rcases List.mem_cons.mp hmem with h | h
  · cases h
    obtain ⟨fu, hfu⟩ := Option.isSome_iff_exists.mp hf
    rw [hfu, Option.getD_some]
  · cases List.mem_singleton.mp h
    exact hd

theorem inDir_sound : Sound inDir := by
  have hchain : ∀ {c l}, Chain inDir.tree.up c l → l = [] := fun h => h.unique (.root rfl)
  have hinv := ExecTree.empty_inv
  refine ⟨⟨hinv.chain, nofun, hinv.skip, hinv.reason⟩, fun p f hp => ?_, fun p f u hu => ?_, fun c f l a hc ha => ?_⟩
  · exact if_neg fun h => Nat.not_succ_le_zero 0 (Nat.le_trans hp (Nat.le_of_eq h.1))
  · simp only [inDir, Option.ite_none_right_eq_some, Option.some.injEq] at hu
    rw [← hu.2]
    rfl
  · rw [hchain hc] at ha
    cases ha

theorem afterTouch_sound : Sound afterTouch := by
  have h : step true {} inDir (.registerFileUsageUpdate .empty 0 ["d", "f"]
      (Process.touchUpdate .empty ["d", "f"] ["d", "g"])) = some afterTouch := rfl
  refine step_sound inDir_sound ?_ h
  exact ⟨Nat.one_pos, rfl, FileUsageUpdate.TypeOnly.wellFormed ⟨rfl, rfl, rfl⟩⟩

end Source

end Firebuild
