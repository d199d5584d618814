/-
  Firebuild.Handlers — what the supervisor makes of a reported call (`process.cc`:
  `handle_open`, `handle_scandirat`, `handle_truncate`, `handle_unlink`, `handle_rmdir`, `handle_fstatat`,
  `handle_statfs`, `handle_mktemp`, `handle_faccessat`, `handle_fchmodat`, `handle_mkdir`,
  `handle_rename`, `handle_symlink`; `message_processor.cc`: the message utime).

  A handler looks at the arguments and the result of the call and at the world, and then does
  one of a few things to the exec point of the process: nothing, disable its shortcutting, or
  register updates. That is its `Handling`; `carryOut` does it to the supervisor.

  A path is the one `get_absolute()` returned, `none` for an invalid dirfd. The error of a
  call is `none` on success.
-/

import Firebuild.Supervision

namespace Firebuild

inductive Reaction where
  | ignore
  | disable (reason : String)
  /-- Register an update for a path. If that fails shortcutting is disabled with the reason,
      if there is one, and nothing more is registered. -/
  | register (name : FileName) (d : FileUsageUpdate) (reason : Option String) (next : Reaction)
  /-- An assertion fails. -/
  | abort

structure Handling where
  /-- The names whose `close_for_writing()` comes first: what a pre_open message opened. -/
  closes : List FileName := []
  reaction : Reaction

def Reaction.registers (name : FileName) (d : FileUsageUpdate) (reason : String) : Reaction :=
  .register name d (some reason) .ignore

/-! ## Carrying out -/

def disable (p : Nat) (reason : String) (s : Supervisor) : Option Supervisor :=
  (s.tree.disableShortcuttingBubbleUp p reason).map fun tree => { s with tree }

def react (quick : Bool) (cfg : Config) (w : World) (p : Nat) : Reaction → Supervisor → Option Supervisor
  | .ignore, s => some s
  | .disable reason, s => disable p reason s
  | .register name d reason next, s =>
    match registerFileUsageUpdate quick cfg w s p name d with
    | none => none
    | some (true, s) => react quick cfg w p next s
    | some (false, s) =>
      match reason with
      | none => some s
      | some reason => disable p reason s
  | .abort, _ => none

def closeAll (cfg : Config) : List FileName → Supervisor → Option Supervisor
  | [], s => some s
  | name :: names, s => (closeForWriting cfg s name).bind (closeAll cfg names)

/-- The ghost log of calls is started anew, as for any event. -/
def carryOut (quick : Bool) (cfg : Config) (w : World) (s : Supervisor) (p : Nat) (h : Handling) : Option Supervisor :=
  (closeAll cfg h.closes { s with uses := [] }).bind (react quick cfg w p h.reaction)

theorem closeAll_closed
    (h : closeAll cfg names s = some s') : Closed s s' := by
  induction names generalizing s with
  | nil =>
    cases h
    exact ⟨rfl, rfl, rfl, rfl, rfl⟩
  | cons name names ih =>
    obtain ⟨s1, h1, h2⟩ := Option.bind_eq_some_iff.mp h
    have hc := closeForWriting_closed h1
    have hr := ih h2
    exact ⟨hr.tree.trans hc.tree, hr.fileUsages.trans hc.fileUsages, hr.generation.trans hc.generation,
      hr.jobserverFifo.trans hc.jobserverFifo, hr.uses.trans hc.uses⟩

/-! ## The handlers -/

namespace Process

/-- `resolveFlags`: openat2() with RESOLVE_* flags. With O_TMPFILE the path is the directory the
    unnamed file is created in, opened with O_RDWR | O_DIRECTORY. -/
def handleOpen (w : World) (name : Option FileName) (flags : OpenFlags) (modeWithUmask : Mode)
    (resolveFlags oTmpfile : Bool) (error : Option Errno) (preOpenSent tmpFile : Bool) : Handling :=
  if resolveFlags then { reaction := .disable "openat2() with RESOLVE_* flags is not supported" }
  else
    match name with
    | none => { reaction := .disable "Invalid dirfd passed to openat()" }
    | some name =>
      { closes := if preOpenSent then [name] else []
        reaction := .registers name
          (.getFromOpenParams w name (if oTmpfile then { write := true } else flags) modeWithUmask error
            (!oTmpfile && tmpFile))
          "Could not register the opening of a file" }

def handleScandirat (w : World) (name : Option FileName) (error : Option Errno) : Handling :=
  match error, name with
  | some .enoent, none | none, none => { reaction := .disable "Invalid dirfd or filename passed to scandirat()" }
  | some .enoent, some name =>
    { reaction := .registers name (.new w name .notExist false false) "Could not register scandirat() on" }
  | some _, _ => { reaction := .disable "scandirat() failed" }
  | none, some name =>
    { reaction := .registers name (.getFromOpenParams w name {} 0 none false) "Could not register scandirat() on" }

/-- "Truncate is basically open(..., O_WRONLY | length == 0 ? O_TRUNC : 0) && ftruncate()." With
    EEXIST `get_from_open_params()` asserts that O_EXCL was given. -/
def handleTruncate (w : World) (name : Option FileName) (length : Nat) (error : Option Errno) : Handling :=
  match name with
  | none => { reaction := .disable "Could not find file to truncate()" }
  | some name =>
    { closes := [name]
      reaction :=
        if error = some .eexist then .abort
        else .registers name (.getFromOpenParams w name { write := true, trunc := length = 0 } 0 error false)
          "Could not register truncate() on" }

def handleUnlink (w : World) (name : Option FileName) (removeDir : Bool) (error : Option Errno) (preOpenSent : Bool) :
    Handling :=
  match name with
  | none => { reaction := .disable "Invalid dirfd passed to unlinkat()" }
  | some name =>
    { closes := if preOpenSent then [name] else []
      reaction :=
        match error with
        | none =>
          .registers name (.new w name (if removeDir then .isDir else .isReg) true false)
            "Could not register the unlink or rmdir"
        | some .enoent =>
          .registers name (.new w name .notExist false false) "Could not register the unlink or rmdir"
        | some _ => .ignore }

def handleRmdir (w : World) (name : Option FileName) (error : Option Errno) (preOpenSent : Bool) : Handling :=
  handleUnlink w name true error preOpenSent

/-- By name, or on an fd: an unknown one, one without a file name, or the name. -/
inductive StatTarget where
  | name (name : Option FileName)
  | fd (file : Option (Option FileName))

def handleFstatat (w : World) (target : StatTarget) (kind : FileUsageUpdate.StatKind) (mode : Mode) (size : Nat)
    (error : Option Errno) : Handling :=
  let named (name : FileName) : Handling :=
    { reaction := .registers name (.getFromStatParams w name kind mode size error) "Could not register fstatat() on" }
  match target with
  | .name none => { reaction := .disable "Invalid dirfd or filename passed to stat() variant" }
  | .name (some name) | .fd (some (some name)) => named name
  | .fd (some none) => { reaction := .ignore }
  | .fd none =>
    if error = none then
      { reaction := .disable
          "Process fstatat()ed an unknown fd successfully, which means interception missed at least one open()" }
    else { reaction := .ignore }

/-- `quirk` is FB_QUIRK_IGNORE_STATFS; without a name it is fstatfs(). -/
def handleStatfs (w : World) (name : Option FileName) (error : Option Errno) (quirk : Bool) : Handling :=
  match name with
  | none =>
    { reaction := if quirk then .ignore else .disable "fstatfs() family operating on fds is not supported" }
  | some name =>
    if error = some .enoent then
      { reaction := .registers name (.new w name .notExist false false) "Could not register failed statfs()" }
    else { reaction := if quirk then .ignore else .disable "Successful statfs() calls are not supported." }

def handleMktemp (w : World) (name : FileName) : Handling :=
  { reaction := .registers name (.getFromOpenParams w name { write := true } 0 (some .enoent) true)
      "Could not register mktemp()" }

structure AccessMode where
  r : Bool := false
  w : Bool := false
  x : Bool := false
  deriving DecidableEq, Repr

/-- The bits of the owner that are asked for; none of them is F_OK. -/
def AccessMode.mask (m : AccessMode) : Mode :=
  (if m.r then 0o400 else 0) ||| (if m.w then 0o200 else 0) ||| (if m.x then 0o100 else 0)

/-- `set_initial_type(EXIST)` and the bits that were asked for, as they are in `mode`. -/
def existsWith (w : World) (name : FileName) (mode : Mode) (asked : AccessMode) : FileUsageUpdate :=
  let d := FileUsageUpdate.new w name .exist false false
  { d with initialState := d.initialState.setModeBits (mode &&& asked.mask) asked.mask }

def handleFaccessat (w : World) (name : Option FileName) (asked : AccessMode) (error : Option Errno) : Handling :=
  match name with
  | none => { reaction := .disable "Invalid dirfd or filename passed faccessat()" }
  | some name =>
    let missing := FileUsageUpdate.new w name .notExist false false
    let registers (d : FileUsageUpdate) : Handling :=
      { reaction := .registers name d "Could not register the faccessat of a file" }
    match error with
    | none => registers (existsWith w name asked.mask asked)
    | some .eacces =>
      if asked.mask = 0 then registers missing
      else
        match w.stat name with
        | .error _ => registers missing
        | .ok (mode, _) =>
          if mode &&& asked.mask = asked.mask then
            { reaction := .disable "stat() returned unexpected permission bits for" }
          else registers (existsWith w name mode asked)
    | some _ => registers missing

def handleMkdir (w : World) (name : Option FileName) (error : Option Errno) (tmpDir : Bool) : Handling :=
  match name with
  | none => { reaction := .disable "Invalid dirfd passed to mkdirat()" }
  | some name =>
    { reaction := .registers name (.getFromMkdirParams w name error tmpDir) "Could not register the directory creation " }

def handleFchmodat (w : World) (name : Option FileName) (error : Option Errno) : Handling :=
  match name with
  | none => { reaction := .disable "Invalid dirfd or filename passed fchmodat()" }
  | some name =>
    if error.isSome then { reaction := .disable "Cannot register a failed fchmodat() on" }
    else { reaction := .registers name (.new w name .exist false true) "Could not register fchmodat() on" }

/-- `isReg`: what lstat() finds at the new name is a regular file. -/
def handleRename (w : World) (oldName newName : Option FileName) (isReg : Bool) (error : Option Errno) : Handling :=
  { closes := oldName.toList ++ newName.toList
    reaction :=
      match error with
      | some .eexist =>
        match newName with
        | none => .abort
        | some newName =>
          .registers newName (.new w newName .exist false false) "Could not register the renaming (to)"
      | some _ => .disable "Failed rename() is not supported"
      | none =>
        match oldName, newName with
        | some oldName, some newName =>
          if !isReg then .disable "Could not register the renaming of non-regular file"
          else
            .register oldName (.getOldfileUsageFromRenameParams w oldName newName error)
              (some "Could not register the renaming (from)")
              (.registers newName (.getNewfileUsageFromRenameParams w newName) "Could not register the renaming (to)")
        | _, _ => .disable "Invalid dirfd passed to renameat()" }

def handleSymlink (error : Option Errno) : Handling :=
  { reaction := if error.isNone then .disable "Process created a symlink" else .ignore }

/-- A touch -r: the timestamps come from a file the process has stat()ed. -/
def touchUpdate (w : World) (name source : FileName) : FileUsageUpdate :=
  { FileUsageUpdate.new w name .dontKnow true false with timestampSource := some source }

/-- The message utime; `source` is what `is_touch_r_operation()` found, if explicit times were
    given. -/
def handleUtime (w : World) (name : Option FileName) (source : Option FileName) (error : Option Errno) : Handling :=
  match error, source with
  | none, some source =>
    match name with
    | some name => { reaction := .register name (touchUpdate w name source) none .ignore }
    | none => { reaction := .disable "Changing timestamp with utime() without filename" }
  | _, _ => { reaction := .disable "Changing file timestamps is not supported" }

end Process

end Firebuild
