/-
  Firebuild.StorageForms — a regular file is restored from inline data, from a plain blob or from
  a compressed blob (`execed_process_cacher.cc`: the loop over `path_isreg` in `apply_shortcut`;
  `blob_cache.cc`: `retrieve_file`; `utils.cc`: `decompress_file`).

  The two kinds of blobs always give the same file. Inline data has its own open() and its own
  error handling:

  (1) A new file is created with mode 0644, and with 0666 from a blob. This shows if the entry has
  no mode for the file and the umask lets the bits 022 through.
  (2) If the file cannot be opened the replay returns false. With a blob it removes a file that
  may not be written and tries again, or an assertion fails.

  Hence `storage_form_irrelevant_iff`.
-/

import Firebuild.Replay

namespace Firebuild

namespace Replay

inductive FileOutcome where
  | restored (file : FsNode)
  | failed (file : FsNode)
  | aborted
  deriving DecidableEq, Repr

/-- Times and inode numbers apart. -/
def FsNode.unstamped : FsNode → FsNode
  | .missing => .missing
  | .reg content mode _ _ => .reg content mode 0 0
  | .dir hash mode _ _ => .dir hash mode 0 0
  | .special mode => .special mode

def outcome (name : FileName) : Except Stop (State × List Bytes) → FileOutcome
  | .ok (s, _) => .restored (FsNode.unstamped (s.disk.node name))
  | .error (.returnsFalse s) => .failed (FsNode.unstamped (s.disk.node name))
  | .error .aborts => .aborted

/-- The output, and the blob that is opened for it, if the content is stored in this form. -/
def storedAs (c : Codec) (level : Nat) (content : Bytes) (file : SerializedFile) : StorageForm → SerializedFile × List Bytes
  | .inlined => ({ file with inlineData := content, hash := none, compressedHash := none }, [])
  | .plainBlob => ({ file with inlineData := [], hash := some (c.hash content), compressedHash := none }, [content])
  | .compressedBlob =>
    ({ file with inlineData := [], hash := none, compressedHash := some (c.hash content) }, [c.compress level content])

def replayed (env : Env) (inputs : ProcessInputs) (s : State) (level : Nat) (content : Bytes) (file : SerializedFile)
    (form : StorageForm) : FileOutcome :=
  let (file', blobFds) := storedAs env.codec level content file form
  outcome file.path (restoreFile env inputs file' s blobFds)

/-! ## What the calls find at the path -/

def Openable (disk : Disk) (name : FileName) : Prop :=
  disk.reach name = none ∧
    match disk.node name with
    | .missing => disk.parentWritable name = true
    | .reg _ mode _ _ | .special mode => mode.allows ownerW = true
    | .dir _ _ _ _ => False

variable {umask mode : Mode} {time inode mtime ino : Nat} {disk disk' : Disk} {name : FileName} {content : Bytes}

/-- A path is not on the way to itself. -/
theorem reach_set (disk : Disk) (name : FileName) (n : FsNode) : (disk.set name n).reach name = disk.reach name := by
  refine congrArg _ (List.map_congr_left fun k hk => Disk.set_other _ _ fun h => ?_)
  have hlen := congrArg List.length h
  rw [List.length_take] at hlen
  have := List.mem_range.mp hk
  omega

/-- The mode of a file that is opened: its own, or the one it is created with. -/
def openedMode (umask created : Mode) : FsNode → Mode
  | .reg _ mode _ _ => mode
  | _ => created &&& ~~~umask

theorem posix_openTrunc (umask mode : Mode) (time inode : Nat)
    (hn : disk.node name = .missing ∨ ∃ content m mtime ino, disk.node name = .reg content m mtime ino)
    (h : Openable disk name) :
    ∃ ino, (posix umask time inode).openTrunc disk name mode =
      .ok (disk.set name (.reg [] (openedMode umask mode (disk.node name)) time ino)) := by
  obtain ⟨hreach, hopen⟩ := h
  rcases hn with hn | ⟨content, m, mtime, ino, hn⟩
  · rw [hn] at hopen
    refine ⟨inode, ?_⟩
    simp only [posix, Disk.onPath, hreach, hn, Disk.create, hopen, if_true, openedMode]
  · rw [hn] at hopen
    refine ⟨ino, ?_⟩
    simp only [posix, Disk.onPath, hreach, hn, hopen, if_true, openedMode]

theorem posix_openTrunc_fails (umask mode : Mode) (time inode : Nat) (h : ¬Openable disk name) :
    ∃ e, (posix umask time inode).openTrunc disk name mode = .error e := by
  unfold Openable at h
  cases hreach : disk.reach name with
  | some e => exact ⟨e, by simp only [posix, Disk.onPath, hreach]⟩
  | none =>
    rw [hreach] at h
    cases hn : disk.node name <;> rw [hn] at h <;> simp only [true_and] at h <;>
      simp [posix, Disk.onPath, hreach, hn, Disk.create, h]

theorem posix_write (h : disk.node name = .reg old mode mtime ino) :
    (posix umask time inode).write disk name content = .ok (disk.set name (.reg content mode time ino)) := by
  simp only [posix, h]

/-- The mode of a regular file after its replay. -/
theorem restoreMode_reg (henv : env.kernel = posix umask time inode)
    (hreach : disk.reach file.path = none)
    (h : disk.node file.path = .reg content mode mtime ino) :
    FsNode.unstamped ((restoreMode env file disk).node file.path) =
      .reg content ((file.mode.map (· &&& 0o777)).getD mode) 0 0 := by
  have htouch : ∀ (disk : Disk) (m : Mode) (mtime : Nat), disk.node file.path = .reg content m mtime ino →
      ∀ source, FsNode.unstamped (((posix umask time inode).utimensat disk file.path source).node file.path) =
        .reg content m 0 0 := by
    intro disk m mtime hn source
    simp only [posix]
    split
    · rw [Disk.set_self, hn]
      rfl
    · rw [hn]
      rfl
  unfold restoreMode
  rw [henv]
  cases hm : file.mode with
  | none =>
    cases file.timestampSource with
    | none => simp [h, FsNode.unstamped]
    | some source => exact htouch disk mode mtime h source
  | some m =>
    have hchmod : (posix umask time inode).chmod disk file.path (m &&& 0o777) =
        .ok (disk.set file.path (.reg content (m &&& 0o777) mtime ino)) := by
      simp only [posix, Disk.onPath, hreach, h, FsNode.withMode]
    simp only [hchmod]
    cases file.timestampSource with
    | none => simp [Except.toOption, FsNode.unstamped]
    | some source => exact htouch _ (m &&& 0o777) mtime (Disk.set_self _ _ _) source

/-! ## The three forms -/

/-- The mode an entry without a mode for the file leaves. -/
def createdWith : StorageForm → Mode
  | .inlined => 0o644
  | .plainBlob | .compressedBlob => 0o666

section

variable {env : Env} (henv : env.kernel = posix umask time inode) {inputs : ProcessInputs} {s : State} {level : Nat}
  {content : Bytes} {file : SerializedFile} (htype : file.type = .isReg)
include henv htype

/-- A file that can be opened gets the content in every form. -/
theorem replayed_openable (hc : content ≠ [])
    (hn : s.disk.node file.path = .missing ∨ ∃ content m mtime ino, s.disk.node file.path = .reg content m mtime ino)
    (h : Openable s.disk file.path) (form : StorageForm) :
    replayed env inputs s level content file form = .restored (.reg content
        ((file.mode.map (· &&& 0o777)).getD (openedMode umask (createdWith form) (s.disk.node file.path))) 0 0) := by
  obtain ⟨ino, hopen⟩ := posix_openTrunc umask (createdWith form) time inode hn h
  obtain ⟨disk, hdisk⟩ : ∃ disk, disk = s.disk.set file.path
      (.reg [] (openedMode umask (createdWith form) (s.disk.node file.path)) time ino) := ⟨_, rfl⟩
  have hwrite : (posix umask time inode).write disk file.path content = .ok (disk.set file.path
      (.reg content (openedMode umask (createdWith form) (s.disk.node file.path)) time ino)) :=
    posix_write (by rw [hdisk, Disk.set_self])
  have hreach : (disk.set file.path (.reg content (openedMode umask (createdWith form) (s.disk.node file.path)) time
      ino)).reach file.path = none := by
    rw [reach_set, hdisk, reach_set, h.1]
  rw [← hdisk] at hopen
  obtain ⟨final, hfinal⟩ : ∃ final, final = disk.set file.path
      (.reg content (openedMode umask (createdWith form) (s.disk.node file.path)) time ino) := ⟨_, rfl⟩
  rw [← hfinal] at hwrite hreach
  have hcontent : restoreContent env inputs (storedAs env.codec level content file form).1 s
      (storedAs env.codec level content file form).2 = .ok ({ s with disk := final }, []) := by
    have hretrieve : ∀ blob file', file'.path = file.path → createdWith form = 0o666 →
        retrieveFile env.codec blob [] false file'.compressedHash.isSome = some content →
        restoreBlob env inputs file' blob s = .ok { s with disk := final } := by
      intro blob file' hpath hmode hread
      rw [hmode] at hopen
      have : retrieve env blob file' s.disk = some (.ok final) := by
        simp only [retrieve, henv, hpath, hopen, hread, hwrite]
      rw [restoreBlob, this]
    cases form with
    | inlined =>
      have hinline : restoreInline env (storedAs env.codec level content file .inlined).1 s = .ok { s with disk := final } := by
        have hopen' : (posix umask time inode).openTrunc s.disk file.path 0o644 = .ok disk := hopen
        simp only [restoreInline, storedAs, henv, hopen', hwrite]
      rw [restoreContent_inline hc, hinline]
      rfl
    | plainBlob =>
      have hblob := hretrieve content (storedAs env.codec level content file .plainBlob).1 rfl rfl rfl
      exact (restoreContent_blob rfl _ _ _).trans (by rw [hblob]; rfl)
    | compressedBlob =>
      have hblob := hretrieve (env.codec.compress level content)
        (storedAs env.codec level content file .compressedBlob).1 rfl rfl
        (by simp [retrieveFile, storedAs, env.codec.decompress_compress])
      exact (restoreContent_blob rfl _ _ _).trans (by rw [hblob]; rfl)
  have hfile : restoreMode env (storedAs env.codec level content file form).1 = restoreMode env file := by
    cases form <;> rfl
  have htype' : (storedAs env.codec level content file form).1.type = .isReg := by
    cases form <;> exact htype
  unfold replayed
  dsimp only
  rw [restoreFile, htype']
  simp only [hcontent, Except.map, outcome, hfile]
  rw [restoreMode_reg henv hreach (by rw [hfinal, Disk.set_self])]

/-- A file that cannot be opened: the replay of inline data fails, and that of a blob does not. -/
theorem replayed_not_openable (hc : content ≠ []) (h : ¬Openable s.disk file.path) :
    replayed env inputs s level content file .inlined ≠ replayed env inputs s level content file .plainBlob := by
  obtain ⟨e, hopen⟩ := posix_openTrunc_fails umask 0o644 time inode h
  have hinline : restoreInline env (storedAs env.codec level content file .inlined).1 s = .error (.returnsFalse s) := by
    simp only [restoreInline, storedAs, henv, hopen]
  have hfails : replayed env inputs s level content file .inlined = .failed (FsNode.unstamped (s.disk.node file.path)) := by
    have htype' : (storedAs env.codec level content file .inlined).1.type = .isReg := htype
    unfold replayed
    dsimp only
    rw [restoreFile, htype']
    rw [restoreContent_inline hc, hinline]
    rfl
  have hnot : ¬GivesUp (restoreFile env inputs (storedAs env.codec level content file .plainBlob).1 s
      (storedAs env.codec level content file .plainBlob).2) :=
    restoreFile_not_givesUp _ _ _ _ fun _ => rfl
  intro heq
  rw [hfails] at heq
  unfold replayed at heq
  dsimp only at heq
  cases hr : restoreFile env inputs (storedAs env.codec level content file .plainBlob).1 s
      (storedAs env.codec level content file .plainBlob).2 with
  | ok r =>
    rw [hr] at heq
    cases heq
  | error stop =>
    cases stop with
    | aborts =>
      rw [hr] at heq
      cases heq
    | returnsFalse s' => exact hnot ⟨s', hr⟩

end

/-- The form in which a content is stored does not matter exactly if the file can be opened for
    writing, and the entry has a mode for it or it is created with the same mode in all forms. -/
theorem storage_form_irrelevant_iff (env : Env) (umask : Mode) (time inode : Nat)
    (henv : env.kernel = posix umask time inode) (inputs : ProcessInputs) (s : State) (level : Nat) (content : Bytes)
    (hc : content ≠ []) (file : SerializedFile) (htype : file.type = .isReg)
    (hn : s.disk.node file.path = .missing ∨ ∃ content m mtime ino, s.disk.node file.path = .reg content m mtime ino) :
    (∀ form form', replayed env inputs s level content file form = replayed env inputs s level content file form') ↔
      Openable s.disk file.path ∧
        (s.disk.node file.path = .missing → file.mode.isSome = true ∨ (0o644 &&& ~~~umask : Mode) = 0o666 &&& ~~~umask) := by
  by_cases h : Openable s.disk file.path
  · have hforms : ∀ form, replayed env inputs s level content file form = _ := replayed_openable henv htype hc hn h
    refine ⟨fun hall => ⟨h, fun hmissing => ?_⟩, fun ⟨_, hmode⟩ => ?_⟩
    · have hsame := hall .inlined .plainBlob
      rw [hforms, hforms, hmissing] at hsame
      cases hm : file.mode with
      | some m => exact .inl rfl
      | none =>
        rw [hm] at hsame
        simpa [openedMode, createdWith] using hsame
    · have hinline : ∀ form, replayed env inputs s level content file form =
          replayed env inputs s level content file .inlined := by
        intro form
        rw [hforms, hforms]
        cases hm : file.mode with
        | some m => rfl
        | none =>
          rcases hn with hn | ⟨content', m, mtime, ino, hn⟩
          · have hmode := (hmode hn).resolve_left (by simp [hm])
            rw [hn]
            cases form with
            | inlined => rfl
            | plainBlob | compressedBlob => exact congrArg (fun m => FileOutcome.restored (.reg content m 0 0)) hmode.symm
          · rw [hn]
            rfl
      intro form form'
      rw [hinline form, hinline form']
  · refine ⟨fun hall => ?_, fun hno => absurd hno.1 h⟩
    exact absurd (hall .inlined .plainBlob) (replayed_not_openable henv htype hc h)

/-- A process without a parent, on a disk with nothing on it and with the usual umask. -/
def usualEnv : Env := { fullEnv with kernel := posix 0o022 5 9 }

def emptyDisk : State := { fresh with disk := Disk.empty.set [] (.dir 0 0o755 0 1) }

/-- There a new file is the same in all forms. -/
theorem storage_form_irrelevant_iff_usual_umask :
    replayed usualEnv {} emptyDisk 1 [1] { path := ["f"], type := .isReg } .inlined =
        replayed usualEnv {} emptyDisk 1 [1] { path := ["f"], type := .isReg } .plainBlob ∧
      replayed usualEnv {} emptyDisk 1 [1] { path := ["f"], type := .isReg } .inlined =
        replayed usualEnv {} emptyDisk 1 [1] { path := ["f"], type := .isReg } .compressedBlob := by
  have hall := (storage_form_irrelevant_iff usualEnv 0o022 5 9 rfl {} emptyDisk 1 [1] (by decide)
    { path := ["f"], type := .isReg } rfl (.inl rfl)).mpr ⟨⟨rfl, rfl⟩, fun _ => .inr rfl⟩
  exact ⟨hall _ _, hall _ _⟩

/-- A file that was read and may not be written, and that the entry makes writable: it is
    replaced from a blob, but not from inline data. -/
theorem a_read_only_file_depends_on_the_form : let file : SerializedFile :=
      { path := ["d", "f"], type := .isReg, mode := some 0o644, modeMask := some allModeBits }
    let inputs : ProcessInputs := { path := [{ path := ["d", "f"], type := .isReg }] }
    replayed usualEnv inputs readOnlyFile 1 [1] file .inlined = .failed (.reg [2] 0o444 0 0) ∧
      replayed usualEnv inputs readOnlyFile 1 [1] file .plainBlob = .restored (.reg [1] 0o644 0 0) :=
  ⟨rfl, rfl⟩

end Replay

end Firebuild
