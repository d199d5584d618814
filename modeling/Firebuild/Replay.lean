/-
  Firebuild.Replay — applying a cache entry instead of running the process
  (`execed_process_cacher.cc`: `apply_shortcut`, `restore_dirs`, `remove_files_and_dirs`;
  `blob_cache.cc`: `retrieve_file`).

  In order: the blobs are opened; the inputs are registered at the parent; directories are
  created, the parents first; regular files get their content and mode; what was removed is
  removed, the parents last; the output to inherited fds is replayed. Every output is registered
  after it was made.

  What the system calls do is the `Kernel`, a parameter. `posix` is one that fails for no other
  reason than what is on the disk. A replay ends early when it returns false, in the state it
  has reached, or when an assertion fails.

  The only failures that return false are that a blob cannot be opened, which comes first, and
  that a file with inline content cannot be opened or written. The same failures of a file with
  its content in a blob are assertions. So a failed replay has no effect if and only if the
  entry has no inline content (`failed_replay_unchanged_iff`).

  Not here: the exit status, and what the interceptor is told to seek.
-/

import Firebuild.PipeReplay
import Firebuild.ReplayedWrites
import Firebuild.Tracking

namespace Firebuild

open List

/-! ## The disk -/

/-- What is at every path, and the names that may be in use. -/
structure Disk where
  node : FileName → FsNode
  used : List FileName
  covers : ∀ name, node name ≠ .missing → name ∈ used

namespace Disk

def empty : Disk := ⟨fun _ => .missing, [], fun _ h => absurd rfl h⟩

def set (disk : Disk) (name : FileName) (n : FsNode) : Disk where
  node := Function.update disk.node name n
  used := name :: disk.used
  covers f h := by
    by_cases hf : f = name
    · exact hf ▸ mem_cons_self
    · rw [Function.update_of_ne hf] at h
      exact mem_cons_of_mem _ (disk.covers f h)

@[simp] theorem set_self (disk : Disk) (name : FileName) (n : FsNode) : (disk.set name n).node name = n :=
  Function.update_self _ _ _

theorem set_other (disk : Disk) (n : FsNode) (h : f ≠ name) :
    (disk.set name n).node f = disk.node f := Function.update_of_ne h _ _

end Disk

/-- What the system calls make of the disk, or their error. -/
structure Kernel where
  mkdir : Disk → FileName → Mode → Except Errno Disk
  /-- stat64(): is it a directory? -/
  statIsDir : Disk → FileName → Except Errno Bool
  chmod : Disk → FileName → Mode → Except Errno Disk
  /-- O_WRONLY | O_CREAT | O_TRUNC, with a mode. -/
  openTrunc : Disk → FileName → Mode → Except Errno Disk
  /-- O_WRONLY, and O_CREAT with a mode. -/
  openAppend : Disk → FileName → Option Mode → Except Errno Disk
  /-- The open file gets this content. If a write() fails, that is what is on the disk then. -/
  write : Disk → FileName → Bytes → Except Disk Disk
  unlink : Disk → FileName → Except Errno Disk
  rmdir : Disk → FileName → Except Errno Disk
  /-- The modification time of another file, if that can be looked up. -/
  utimensat : Disk → FileName → FileName → Disk

/-! ## A kernel -/

namespace FsNode

def blocks : FsNode → Option Errno
  | missing => some .enoent
  | dir _ mode _ _ => if mode.allows ownerX then none else some .eacces
  | reg _ _ _ _ | special _ => some .enotdir

def writable : FsNode → Bool
  | reg _ mode _ _ | dir _ mode _ _ | special mode => mode.allows ownerW
  | missing => false

def withMode (mode : Mode) : FsNode → FsNode
  | missing => missing
  | reg content _ mtime inode => reg content mode mtime inode
  | dir hash _ mtime inode => dir hash mode mtime inode
  | special _ => special mode

def mtime? : FsNode → Option Nat
  | reg _ _ mtime _ | dir _ _ mtime _ => some mtime
  | missing | special _ => none

def withMtime (mtime : Nat) : FsNode → FsNode
  | reg content mode _ inode => reg content mode mtime inode
  | dir hash mode _ inode => dir hash mode mtime inode
  | missing => missing
  | special mode => special mode

end FsNode

namespace Disk

def reach (disk : Disk) (name : FileName) : Option Errno :=
  ((List.range name.length).map fun k => disk.node (name.take k)).findSome? FsNode.blocks

def parentWritable (disk : Disk) (name : FileName) : Bool :=
  name.parentDir.all fun dir => (disk.node dir).writable

def isEmpty (disk : Disk) (dir : FileName) : Bool :=
  disk.used.all fun name => name.parentDir != some dir || disk.node name == .missing

def onPath {α : Type} (disk : Disk) (name : FileName) (call : FsNode → Except Errno α) : Except Errno α :=
  match disk.reach name with
  | some e => .error e
  | none => call (disk.node name)

def create (disk : Disk) (name : FileName) (n : FsNode) : Except Errno Disk :=
  if disk.parentWritable name then .ok (disk.set name n) else .error .eacces

/-- An entry of the parent directory is removed, after which `rest` is left to be done. -/
def remove (disk : Disk) (name : FileName) (rest : Except Errno Disk) : Except Errno Disk :=
  if disk.parentWritable name then rest else .error .eacces

end Disk

/-- Calls that fail for what is on the disk, and for nothing else, for a user who is not root and
    owns everything. New files get the time and the inode number. -/
def posix (umask : Mode) (time inode : Nat) : Kernel where
  mkdir disk name mode := disk.onPath name fun
    | .missing => disk.create name (.dir 0 (mode &&& 0o1777 &&& ~~~umask) time inode)
    | .reg _ _ _ _ | .dir _ _ _ _ | .special _ => .error .eexist
  statIsDir disk name := disk.onPath name fun
    | .missing => .error .enoent
    | .dir _ _ _ _ => .ok true
    | .reg _ _ _ _ | .special _ => .ok false
  chmod disk name mode := disk.onPath name fun
    | .missing => .error .enoent
    | n => .ok (disk.set name (n.withMode mode))
  openTrunc disk name mode := disk.onPath name fun
    | .missing => disk.create name (.reg [] (mode &&& ~~~umask) time inode)
    | .reg _ mode _ inode =>
      if mode.allows ownerW then .ok (disk.set name (.reg [] mode time inode)) else .error .eacces
    | .dir _ _ _ _ => .error .eisdir
    | .special mode => if mode.allows ownerW then .ok disk else .error .eacces
  openAppend disk name creat := disk.onPath name fun
    | .missing =>
      match creat with
      | none => .error .enoent
      | some mode => disk.create name (.reg [] (mode &&& ~~~umask) time inode)
    | .dir _ _ _ _ => .error .eisdir
    | .reg _ mode _ _ | .special mode => if mode.allows ownerW then .ok disk else .error .eacces
  write disk name content :=
    match disk.node name with
    | .reg _ mode _ inode => .ok (disk.set name (.reg content mode time inode))
    | .missing | .dir _ _ _ _ | .special _ => .ok disk
  unlink disk name := disk.onPath name fun
    | .missing => .error .enoent
    | .dir _ _ _ _ => disk.remove name (.error .eisdir)
    | .reg _ _ _ _ | .special _ => disk.remove name (.ok (disk.set name .missing))
  rmdir disk name := disk.onPath name fun
    | .missing => .error .enoent
    | .dir _ _ _ _ =>
      disk.remove name (if disk.isEmpty name then .ok (disk.set name .missing) else .error .enotempty)
    | .reg _ _ _ _ | .special _ => disk.remove name (.error .enotdir)
  utimensat disk name source :=
    match disk.reach source, (disk.node source).mtime?, disk.reach name with
    | none, some mtime, none => disk.set name ((disk.node name).withMtime mtime)
    | _, _, _ => disk

/-! ## The replay -/

namespace Replay

structure State where
  disk : Disk
  books : Supervisor
  pipes : Nat → Pipe
  recorders : Nat → PipeRecorder
  /-- What the kernel answers when data is sent to a pipe. -/
  writes : List (List WriteResult) := []

inductive Stop where
  | returnsFalse (s : State)
  /-- An assertion fails. -/
  | aborts

structure Env where
  kernel : Kernel
  cfg : Config
  codec : Codec
  /-- `get_fd_for_file`: the content of the blob. -/
  blobs : Hash → Option Bytes
  /-- What the supervisor can look up on a disk. -/
  look : Disk → World
  proc : Nat
  fds : Nat → Option FileFd
  maxInlineBlobSize : Nat := 4096
  alloc : Nat → Bool := fun _ => true

variable (env : Env)

def parentExecPoint (s : State) : Option Nat := s.books.tree.up env.proc

def registrationPoint (s : State) : Option Nat := if env.cfg.generateReport then some env.proc else parentExecPoint env s

/-- The result of `register_file_usage_update()` is not looked at. -/
def register (point : Option Nat) (name : FileName) (update : World → FileUsageUpdate) (s : State) : Except Stop State :=
  match point with
  | none => .ok s
  | some this =>
    let w := env.look s.disk
    match step true env.cfg s.books (.registerFileUsageUpdate w this name (update (s.books.world w))) with
    | none => .error .aborts
    | some books => .ok { s with books }

/-- "Bubble up all the file operations we're about to perform." -/
def registerInputs (inputs : ProcessInputs) (s : State) : Except Stop State := do
  let s ← inputs.path.foldlM (fun s file => register env (registrationPoint env s) file.path (fun w =>
    { filename := file.path, generation := w.generation file.path, initialState := fileToFileInfo file }) s) s
  inputs.pathNotexist.foldlM (fun s path => register env (registrationPoint env s) path (fun w =>
    .new w path .notExist false false) s) s

/-- One directory of `restore_dirs`. All its failures are asserted not to happen. -/
def restoreDir (dir : SerializedFile) (s : State) : Except Stop State :=
  match dir.mode with
  | none => .error .aborts
  | some mode =>
    match env.kernel.mkdir s.disk dir.path mode with
    | .ok disk => registerDir { s with disk }
    | .error .eexist =>
      match env.kernel.statIsDir s.disk dir.path with
      | .ok true =>
        match env.kernel.chmod s.disk dir.path mode with
        | .ok disk => registerDir { s with disk }
        | .error _ => .error .aborts
      | .ok false | .error _ => .error .aborts
    | .error _ => .error .aborts
where
  registerDir (s : State) : Except Stop State :=
    register env (parentExecPoint env s) dir.path (fun w => fileToFileUsageUpdate w dir) s

def restoreDirs (outputs : ProcessOutputs) (s : State) : Except Stop State :=
  (outputs.pathIsdir.insertionSort fun a b => a.path.str.length ≤ b.path.str.length).foldlM
    (fun s dir => restoreDir env dir s) s

/-- `retrieve_file`, not appending: the error of open(); `none` if the blob cannot be copied or
    decompressed. -/
def retrieve (blob : Bytes) (file : SerializedFile) (disk : Disk) : Option (Except Errno Disk) :=
  match env.kernel.openTrunc disk file.path 0o666 with
  | .error e => some (.error e)
  | .ok disk =>
    match retrieveFile env.codec blob [] false file.compressedHash.isSome with
    | none => none
    | some content =>
      match env.kernel.write disk file.path content with
      | .error _ => none
      | .ok disk => some (.ok disk)

def restoreInline (file : SerializedFile) (s : State) : Except Stop State :=
  match env.kernel.openTrunc s.disk file.path 0o644 with
  | .error _ => .error (.returnsFalse s)
  | .ok disk =>
    match env.kernel.write disk file.path file.inlineData with
    | .error disk => .error (.returnsFalse { s with disk })
    | .ok disk => .ok { s with disk }

/-- The content of a regular file from a blob. "The file has already been checked to be not
    writable and should be completely replaced from the cache. Let's remove it and try again." -/
def restoreBlob (inputs : ProcessInputs) (file : SerializedFile) (blob : Bytes) (s : State) : Except Stop State :=
  match retrieve env blob file s.disk with
  | some (.ok disk) => .ok { s with disk }
  | some (.error e) =>
    if e = .eacces ∧ (findInputFile inputs file.path).isSome = true ∧ (fileToFileInfo file).modeMask &&& ownerW ≠ 0 then
      match env.kernel.unlink s.disk file.path with
      | .error _ => .error .aborts
      | .ok disk =>
        match retrieve env blob file disk with
        | some (.ok disk) => .ok { s with disk }
        | _ => .error .aborts
    else .error .aborts
  | none => .error .aborts

def restoreContent (inputs : ProcessInputs) (file : SerializedFile) (s : State) (blobFds : List Bytes) :
    Except Stop (State × List Bytes) :=
  if file.inlineData ≠ [] then (restoreInline env file s).map (·, blobFds)
  else
    match blobFds with
    | [] => .error .aborts
    | blob :: blobFds => (restoreBlob env inputs file blob s).map (·, blobFds)

/-- "Refuse to apply setuid, setgid, sticky bit." Whether chmod() and utimensat() succeed is not
    looked at. -/
def restoreMode (file : SerializedFile) (disk : Disk) : Disk :=
  let disk :=
    match file.mode with
    | none => disk
    | some mode => (env.kernel.chmod disk file.path (mode &&& 0o777)).toOption.getD disk
  match file.timestampSource with
  | none => disk
  | some source => env.kernel.utimensat disk file.path source

def restoreFile (inputs : ProcessInputs) (file : SerializedFile) (s : State) (blobFds : List Bytes) :
    Except Stop (State × List Bytes) :=
  match file.type with
  | .isReg =>
    (restoreContent env inputs file s blobFds).map fun r => ({ r.1 with disk := restoreMode env file r.1.disk }, r.2)
  | .exist => .ok ({ s with disk := restoreMode env file s.disk }, blobFds)
  | _ => .error .aborts

def restoreNext (inputs : ProcessInputs) (r : State × List Bytes) (file : SerializedFile) :
    Except Stop (State × List Bytes) := do
  let (s, blobFds) ← restoreFile env inputs file r.1 r.2
  let s ← register env (registrationPoint env s) file.path (fun w => fileToFileUsageUpdate w file) s
  pure (s, blobFds)

def restoreFiles (pio : ProcessInputsOutputs) (s : State) (blobFds : List Bytes) : Except Stop (State × List Bytes) :=
  pio.outputs.pathIsreg.foldlM (restoreNext env pio.inputs) (s, blobFds)

/-- "There's deliberately no error checking." -/
def removeFileOrDir (path : FileName) (s : State) : Except Stop State :=
  let disk :=
    match env.kernel.unlink s.disk path with
    | .ok disk => disk
    | .error .eisdir => (env.kernel.rmdir s.disk path).toOption.getD s.disk
    | .error _ => s.disk
  register env (parentExecPoint env s) path (fun w => .new w path .isDir true false) { s with disk }

def removeFilesAndDirs (outputs : ProcessOutputs) (s : State) : Except Stop State :=
  (outputs.pathNotexist.insertionSort fun a b => b.str.length ≤ a.str.length).foldlM
    (fun s path => removeFileOrDir env path s) s

def appendToFile (r : AppendToFd) (name : FileName) (s : State) (blobFds : List Bytes) :
    Except Stop (State × List Bytes) :=
  let old (disk : Disk) : Bytes := ((disk.node name).content).getD []
  if r.inlineData ≠ [] then
    match env.kernel.openAppend s.disk name (some 0o644) with
    | .error _ => .error .aborts
    | .ok disk =>
      match env.kernel.write disk name (old disk ++ r.inlineData) with
      | .error disk | .ok disk => .ok ({ s with disk }, blobFds)
  else
    match blobFds, env.kernel.openAppend s.disk name none with
    | blob :: blobFds, .ok disk =>
      match retrieveFile env.codec blob (old disk) true r.compressedHash.isSome with
      | none => .error .aborts
      | some content =>
        match env.kernel.write disk name content with
        | .error _ => .error .aborts
        | .ok disk => .ok ({ s with disk }, blobFds)
    | _, _ => .error .aborts

/-- Data for an inherited fd; for a pipe see `Firebuild.PipeReplay`. -/
def append (r : AppendToFd) (s : State) (blobFds : List Bytes) : Except Stop (State × List Bytes) :=
  match env.fds r.fd with
  | some (.pipeOut i) =>
    let replay : ReplayEnv :=
      { codec := env.codec, maxInlineBlobSize := env.maxInlineBlobSize, alloc := env.alloc, fds := env.fds
        parentExecPoint := parentExecPoint env s }
    match replayPipe replay r i { pipes := s.pipes, recorders := s.recorders, blobFds, writes := s.writes } with
    | none => .error .aborts
    | some st => .ok ({ s with pipes := st.pipes, recorders := st.recorders, writes := st.writes }, st.blobFds)
  | some (.file name) => appendToFile env r name s blobFds
  | some .other | none => .error .aborts

def applyShortcut (pio : ProcessInputsOutputs) (s : State) : Except Stop State :=
  -- "Pre-open blobs to be used later"
  match pio.outputs.blobRefs.mapM fun ref => env.blobs ref.key with
  | none => .error (.returnsFalse s)
  | some blobFds => do
    let s ← registerInputs env pio.inputs s
    let s ← restoreDirs env pio.outputs s
    let (s, blobFds) ← restoreFiles env pio s blobFds
    let s ← removeFilesAndDirs env pio.outputs s
    let (s, _) ← pio.outputs.appendToFd.foldlM (fun (r : State × List Bytes) a => append env a r.1 r.2) (s, blobFds)
    pure s

/-! ## Where a replay returns false -/

def GivesUp {α : Type} (r : Except Stop α) : Prop := ∃ s, r = .error (.returnsFalse s)

variable {env} {α β : Type} {s s' : State} {inputs : ProcessInputs} {file : SerializedFile}

theorem not_givesUp_ok (a : α) : ¬GivesUp (.ok a : Except Stop α) := fun ⟨_, h⟩ => nomatch h

theorem not_givesUp_aborts : ¬GivesUp (.error .aborts : Except Stop α) := fun ⟨_, h⟩ => nomatch h

variable {r : Except Stop α}

theorem not_givesUp_map (f : α → β) (h : ¬GivesUp r) : ¬GivesUp (r.map f) := by
  rintro ⟨s, hs⟩
  cases r with
  | ok a => cases hs
  | error e =>
    cases hs
    exact h ⟨s, rfl⟩

theorem not_givesUp_bind (h : ¬GivesUp r)
    (hf : ∀ a, r = .ok a → ¬GivesUp (f a)) : ¬GivesUp (r >>= f) := by
  rintro ⟨s, hs⟩
  cases r with
  | ok a => exact hf a rfl ⟨s, hs⟩
  | error e =>
    cases hs
    exact h ⟨s, rfl⟩

variable {f : β → α → Except Stop β} {l : List α}

theorem not_givesUp_foldlM (hf : ∀ a ∈ l, ∀ b, ¬GivesUp (f b a)) (b : β) : ¬GivesUp (l.foldlM f b) := by
  induction l generalizing b with
  | nil => exact not_givesUp_ok b
  | cons a l ih =>
    exact not_givesUp_bind (hf a mem_cons_self b) fun b _ => ih (fun a ha => hf a (mem_cons_of_mem _ ha)) b

/-- A loop does not get past an element that cannot be dealt with. -/
theorem foldlM_stops (ha : a ∈ l) (hf : ∀ b b', f b a ≠ .ok b') (b b' : β) : l.foldlM f b ≠ .ok b' := by
  induction l generalizing b with
  | nil => cases ha
  | cons x l ih =>
    rw [foldlM_cons]
    intro h
    cases hx : f b x with
    | error e =>
      rw [hx] at h
      cases h
    | ok b1 =>
      rcases mem_cons.mp ha with rfl | ha
      · exact hf _ _ hx
      · rw [hx] at h
        exact ih ha b1 h

theorem register_not_givesUp (point : Option Nat) (name : FileName) (update : World → FileUsageUpdate) (s : State) :
    ¬GivesUp (register env point name update s) := by
  unfold register
  cases point with
  | none => exact not_givesUp_ok s
  | some this =>
    dsimp only
    split
    · exact not_givesUp_aborts
    · exact not_givesUp_ok _

theorem registerInputs_not_givesUp (inputs : ProcessInputs) (s : State) : ¬GivesUp (registerInputs env inputs s) :=
  not_givesUp_bind (not_givesUp_foldlM (fun _ _ s => register_not_givesUp _ _ _ s) s) fun s _ =>
    not_givesUp_foldlM (fun _ _ s => register_not_givesUp _ _ _ s) s

theorem restoreDirs_not_givesUp (outputs : ProcessOutputs) (s : State) : ¬GivesUp (restoreDirs env outputs s) := by
  refine not_givesUp_foldlM (fun dir _ s => ?_) s
  unfold restoreDir restoreDir.registerDir
  repeat' split
  all_goals first | exact not_givesUp_aborts | exact register_not_givesUp _ _ _ _

theorem removeFilesAndDirs_not_givesUp (outputs : ProcessOutputs) (s : State) :
    ¬GivesUp (removeFilesAndDirs env outputs s) := by
  refine not_givesUp_foldlM (fun path _ s => ?_) s
  unfold removeFileOrDir
  exact register_not_givesUp _ _ _ _

variable {outputs : ProcessOutputs}

theorem restoreDirs_stops (h : outputs.pathIsdir.all (·.mode.isSome) = false) (s s' : State) :
    restoreDirs env outputs s ≠ .ok s' := by
  obtain ⟨dir, hmem, hmode⟩ := all_eq_false.mp h
  refine foldlM_stops ((perm_insertionSort _ _).mem_iff.mpr hmem) (fun s s' => ?_) s s'
  rw [restoreDir, Option.not_isSome_iff_eq_none.mp hmode]
  exact nofun

theorem restoreBlob_not_givesUp (inputs : ProcessInputs) (file : SerializedFile) (blob : Bytes) (s : State) :
    ¬GivesUp (restoreBlob env inputs file blob s) := by
  unfold restoreBlob
  repeat' split
  all_goals first | exact not_givesUp_aborts | exact not_givesUp_ok _

theorem append_not_givesUp (r : AppendToFd) (s : State) (blobFds : List Bytes) : ¬GivesUp (append env r s blobFds) := by
  unfold append appendToFile
  dsimp only
  repeat' split
  all_goals first | exact not_givesUp_aborts | exact not_givesUp_ok _

theorem restoreContent_inline (h : file.inlineData ≠ []) (s : State) (blobFds : List Bytes) :
    restoreContent env inputs file s blobFds = (restoreInline env file s).map (·, blobFds) := if_pos h

theorem restoreContent_blob (h : file.inlineData = []) (s : State) (blob : Bytes) (blobFds : List Bytes) :
    restoreContent env inputs file s (blob :: blobFds) = (restoreBlob env inputs file blob s).map (·, blobFds) :=
  if_neg (not_not.mpr h)

/-- A file with its content in a blob. -/
theorem restoreFile_not_givesUp (inputs : ProcessInputs) (file : SerializedFile) (s : State) (blobFds : List Bytes)
    (h : file.type = .isReg → file.inlineData = []) : ¬GivesUp (restoreFile env inputs file s blobFds) := by
  unfold restoreFile
  split
  · rename_i ht
    refine not_givesUp_map _ ?_
    cases blobFds with
    | nil =>
      rw [show restoreContent env inputs file s [] = .error .aborts from if_neg (not_not.mpr (h ht))]
      exact not_givesUp_aborts
    | cons blob blobFds =>
      rw [restoreContent_blob (h ht)]
      exact not_givesUp_map _ (restoreBlob_not_givesUp inputs file blob s)
  · exact not_givesUp_ok _
  · exact not_givesUp_aborts

/-- The loop gets to a file with inline content: an output of another type stops it. -/
def inlineReached : List SerializedFile → Bool
  | [] => false
  | file :: files =>
    match file.type with
    | .isReg => file.inlineData != [] || inlineReached files
    | .exist => inlineReached files
    | _ => false

variable {pio : ProcessInputsOutputs}

/-- A file that is not reached does not matter. -/
theorem restoreFiles_not_givesUp (h : inlineReached pio.outputs.pathIsreg = false)
    (s : State) (blobFds : List Bytes) : ¬GivesUp (restoreFiles env pio s blobFds) := by
  unfold restoreFiles
  generalize pio.outputs.pathIsreg = files at h
  induction files generalizing s blobFds with
  | nil => exact not_givesUp_ok _
  | cons file files ih =>
    rw [foldlM_cons]
    have hfile : file.type = .isReg → file.inlineData = [] := by
      intro ht
      simp only [inlineReached, ht, Bool.or_eq_false_iff, bne_eq_false_iff_eq] at h
      exact h.1
    have hrest : file.type = .isReg ∨ file.type = .exist → inlineReached files = false := by
      rintro (ht | ht)
      · simp only [inlineReached, ht, Bool.or_eq_false_iff] at h
        exact h.2
      · simpa only [inlineReached, ht] using h
    by_cases ht : file.type = .isReg ∨ file.type = .exist
    · refine not_givesUp_bind ?_ fun r _ => ih r.1 r.2 (hrest ht)
      refine not_givesUp_bind (restoreFile_not_givesUp _ _ _ _ hfile) fun r _ => ?_
      exact not_givesUp_bind (register_not_givesUp _ _ _ _) fun s _ => not_givesUp_ok _
    have habort : restoreFile env pio.inputs file s blobFds = .error .aborts := by
      unfold restoreFile
      split
      · rename_i he
        exact absurd (.inl he) ht
      · rename_i he
        exact absurd (.inr he) ht
      · rfl
    rw [restoreNext, habort]
    exact not_givesUp_aborts

/-- If no file with inline content is reached, only the blobs decide. -/
theorem applyShortcut_unchanged
    (h : pio.outputs.pathIsdir.all (·.mode.isSome) = false ∨ inlineReached pio.outputs.pathIsreg = false)
    (hrun : applyShortcut env pio s = .error (.returnsFalse s')) : s' = s := by
  unfold applyShortcut at hrun
  split at hrun
  · cases hrun
    rfl
  exfalso
  refine not_givesUp_bind (registerInputs_not_givesUp _ _) (fun s _ => ?_) ⟨s', hrun⟩
  refine not_givesUp_bind (restoreDirs_not_givesUp _ _) fun s hs => ?_
  have hreached : inlineReached pio.outputs.pathIsreg = false :=
    h.resolve_left fun hdirs => restoreDirs_stops hdirs _ _ hs
  refine not_givesUp_bind (restoreFiles_not_givesUp hreached _ _) fun r _ => ?_
  refine not_givesUp_bind (removeFilesAndDirs_not_givesUp _ _) fun s _ => ?_
  exact not_givesUp_bind (not_givesUp_foldlM (fun _ _ r => append_not_givesUp _ _ _) _) fun r _ => not_givesUp_ok _

/-! ## A full disk -/

/-- Everything succeeds, but no file that was created with mode 0644 can be written. -/
def full : Kernel where
  mkdir disk _ _ := .ok disk
  statIsDir _ _ := .ok true
  chmod disk _ _ := .ok disk
  openTrunc disk name mode := .ok (disk.set name (.reg [] mode 0 0))
  openAppend disk _ _ := .ok disk
  write disk name _ := if disk.node name = .reg [] 0o644 0 0 then .error disk else .ok disk
  unlink disk _ := .ok disk
  rmdir disk _ := .ok disk
  utimensat disk _ _ := disk

/-- A process without a parent. All blobs are there, and empty. -/
def fullEnv : Env where
  kernel := full
  cfg := {}
  codec := magicCodec
  blobs _ := some (magicCodec.compress 1 [])
  look _ := .empty
  proc := 0
  fds _ := none

def fresh : State where
  disk := .empty
  books := .init
  pipes _ := {}
  recorders _ := {}

theorem register_fullEnv (h : s.books = .init) (name : FileName) (update : World → FileUsageUpdate) :
    register fullEnv (registrationPoint fullEnv s) name update s = .ok s ∧
      register fullEnv (parentExecPoint fullEnv s) name update s = .ok s := by
  have hp : parentExecPoint fullEnv s = none := by
    rw [parentExecPoint, h]
    rfl
  rw [show registrationPoint fullEnv s = parentExecPoint fullEnv s from rfl, hp]
  exact ⟨rfl, rfl⟩

theorem foldlM_same {f : State → α → Except Stop State} (hf : ∀ a ∈ l, f s a = .ok s) : l.foldlM f s = .ok s := by
  induction l with
  | nil => rfl
  | cons a l ih =>
    rw [foldlM_cons, hf a mem_cons_self]
    exact ih fun a ha => hf a (mem_cons_of_mem _ ha)

theorem registerInputs_fullEnv (inputs : ProcessInputs) (h : s.books = .init) :
    registerInputs fullEnv inputs s = .ok s := by
  unfold registerInputs
  rw [foldlM_same fun _ _ => (register_fullEnv h _ _).1]
  exact foldlM_same fun _ _ => (register_fullEnv h _ _).1

theorem restoreDirs_fullEnv (h : s.books = .init)
    (hmode : outputs.pathIsdir.all (·.mode.isSome) = true) : restoreDirs fullEnv outputs s = .ok s := by
  refine foldlM_same fun dir hdir => ?_
  obtain ⟨mode, hm⟩ := Option.isSome_iff_exists.mp (all_eq_true.mp hmode dir ((perm_insertionSort _ _).mem_iff.mp hdir))
  rw [restoreDir, hm]
  exact (register_fullEnv h _ _).2

theorem restoreBlob_fullEnv (inputs : ProcessInputs) (file : SerializedFile) (s : State) :
    ∃ disk, restoreBlob fullEnv inputs file (magicCodec.compress 1 []) s = .ok { s with disk } := by
  have hread : ∃ content, retrieveFile magicCodec (magicCodec.compress 1 []) [] false file.compressedHash.isSome =
      some content := by
    cases file.compressedHash.isSome <;> exact ⟨_, rfl⟩
  obtain ⟨content, hread⟩ := hread
  refine ⟨s.disk.set file.path (.reg [] 0o666 0 0), ?_⟩
  have hne : (s.disk.set file.path (.reg [] 0o666 0 0)).node file.path ≠ .reg [] 0o644 0 0 := by
    rw [Disk.set_self]
    decide
  have hr : retrieve fullEnv (magicCodec.compress 1 []) file s.disk = some (.ok (s.disk.set file.path (.reg [] 0o666 0 0))) := by
    simp only [retrieve, fullEnv, full, hread, if_neg hne]
  rw [restoreBlob, hr]

theorem restoreMode_fullEnv (file : SerializedFile) (disk : Disk) : restoreMode fullEnv file disk = disk := by
  unfold restoreMode
  cases file.mode <;> cases file.timestampSource <;> rfl

theorem restoreNext_fullEnv
    (hs : s.books = .init) (h : restoreFile fullEnv inputs file s blobFds = .ok ({ s with disk }, rest)) :
    restoreNext fullEnv inputs (s, blobFds) file = .ok ({ s with disk }, rest) := by
  rw [restoreNext, h]
  show register fullEnv _ _ _ { s with disk } >>= _ = _
  rw [(register_fullEnv (s := { s with disk }) hs _ _).1]
  rfl

/-- The loop ends at the first file with inline content, which is there and empty. -/
theorem restoreFiles_fullEnv (inputs : ProcessInputs) (h : inlineReached files = true)
    (hs : s.books = .init) (rest : List Bytes) :
    ∃ s' f, files.foldlM (restoreNext fullEnv inputs)
        (s, (files.filterMap (·.blobRef)).map (fun _ => magicCodec.compress 1 []) ++ rest) =
      .error (.returnsFalse s') ∧ s'.disk.node f ≠ .missing := by
  induction files generalizing s with
  | nil => cases h
  | cons file files ih =>
    rw [foldlM_cons]
    cases ht : file.type with
    | dontKnow | notExist | notExistOrIsReg | isDir => simp [inlineReached, ht] at h
    | exist =>
      have href : file.blobRef = none := by simp [SerializedFile.blobRef, ht]
      have hfile : ∀ blobFds, restoreFile fullEnv inputs file s blobFds = .ok (s, blobFds) := by
        intro blobFds
        rw [restoreFile, ht]
        simp only [restoreMode_fullEnv]
      rw [filterMap_cons_none href, restoreNext_fullEnv hs (hfile _)]
      exact ih (by simpa [inlineReached, ht] using h) hs
    | isReg =>
      by_cases hin : file.inlineData = []
      · have href : file.blobRef = some (.ofHashes file.hash file.compressedHash) := by
          simp [SerializedFile.blobRef, ht, hin]
        obtain ⟨disk, hblob⟩ := restoreBlob_fullEnv inputs file s
        have hfile : ∀ blobFds,
            restoreFile fullEnv inputs file s (magicCodec.compress 1 [] :: blobFds) = .ok ({ s with disk }, blobFds) := by
          intro blobFds
          rw [restoreFile, ht]
          simp only [restoreContent_blob hin, hblob, Except.map, restoreMode_fullEnv]
        rw [filterMap_cons_some href, map_cons, cons_append, restoreNext_fullEnv hs (hfile _)]
        exact ih (by simpa [inlineReached, ht, hin] using h) hs
      · refine ⟨{ s with disk := s.disk.set file.path (.reg [] 0o644 0 0) }, file.path, ?_, by simp⟩
        have hinline : restoreInline fullEnv file s =
            .error (.returnsFalse { s with disk := s.disk.set file.path (.reg [] 0o644 0 0) }) := by
          simp [restoreInline, fullEnv, full]
        rw [restoreNext, restoreFile, ht]
        simp only [restoreContent_inline hin, hinline]
        rfl

/-- A failed replay of an entry leaves everything as it is, whatever the state and whatever
    fails, exactly if it cannot get to a file with inline content. -/
theorem failed_replay_unchanged_iff (pio : ProcessInputsOutputs) :
    (∀ env s s', applyShortcut env pio s = .error (.returnsFalse s') → s' = s) ↔
      pio.outputs.pathIsdir.all (·.mode.isSome) = false ∨ inlineReached pio.outputs.pathIsreg = false := by
  refine ⟨fun hall => ?_, fun h env s s' => applyShortcut_unchanged h⟩
  by_contra hno
  rw [not_or, Bool.not_eq_false, Bool.not_eq_false] at hno
  obtain ⟨hdirs, hreached⟩ := hno
  have hblobs : pio.outputs.blobRefs.mapM (fun ref => fullEnv.blobs ref.key) =
      some (pio.outputs.blobRefs.map fun _ => magicCodec.compress 1 []) := by
    induction pio.outputs.blobRefs with
    | nil => rfl
    | cons ref refs ih => rw [mapM_cons, ih]; rfl
  obtain ⟨s', f, hrun, hf⟩ := restoreFiles_fullEnv (s := fresh) pio.inputs hreached rfl
    ((pio.outputs.appendToFd.filterMap (·.blobRef)).map fun _ => magicCodec.compress 1 [])
  have hfalse : applyShortcut fullEnv pio fresh = .error (.returnsFalse s') := by
    unfold applyShortcut
    rw [hblobs]
    rw [registerInputs_fullEnv _ rfl]
    show restoreDirs fullEnv pio.outputs fresh >>= _ = _
    rw [restoreDirs_fullEnv rfl hdirs]
    show restoreFiles fullEnv pio fresh _ >>= _ = _
    rw [ProcessOutputs.blobRefs, map_append]
    rw [show restoreFiles fullEnv pio fresh _ = _ from hrun]
    rfl
  rw [hall _ _ _ hfalse] at hf
  exact hf rfl

/-- "/d/f" is there, and may not be written. -/
def readOnlyFile : State :=
  { fresh with
    disk := ((Disk.empty.set [] (.dir 0 0o755 0 1)).set ["d"] (.dir 0 0o755 0 2)).set ["d", "f"] (.reg [2] 0o444 0 3) }

/-- The process has created the directory "/d/n" and written one byte to "/d/f". -/
def createsAndWrites : ProcessInputsOutputs where
  outputs :=
    { pathIsdir := [{ path := ["d", "n"], type := .isDir, mode := some 0o755, modeMask := some allModeBits }]
      pathIsreg := [{ path := ["d", "f"], type := .isReg, size := some 1, inlineData := [1] }] }

/-- The file cannot be opened, and the directory is left behind. -/
theorem a_failed_replay_leaves_a_directory :
    ∃ s', applyShortcut { fullEnv with kernel := posix 0o022 5 9 } createsAndWrites readOnlyFile =
        .error (.returnsFalse s') ∧
      readOnlyFile.disk.node ["d", "n"] = .missing ∧ s'.disk.node ["d", "n"] = .dir 0 0o755 5 9 :=
  ⟨_, rfl, rfl, rfl⟩

end Replay

end Firebuild
