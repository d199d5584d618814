/-
  Firebuild.FileUsage — what one process did with one file, and the update a single
  operation contributes (`file_usage.cc`: `FileUsage::merge`; `file_usage_update.cc`:
  `get_initial_type`, `get_initial_hash`, `update_from_enotdir`, `get_from_open_params`,
  `get_from_mkdir_params`, `get_from_stat_params` and the two for rename()).

  `World` is what the supervisor can look up while it handles one message: the hash
  cache, stat(), the generation of a file name. An update may leave its type or its hash
  to be computed on demand. The code keeps the computed value in the update for the next
  process it is merged at; the world is the same until the message is handled, so computing
  it again there gives the same value, and `merge` does not return the update.

  `FileUsage` objects are hash-consed, and two of them are the same object exactly if all
  their fields are equal; so an object is its value here, and `merge()` returning `this`
  when nothing changed is returning an equal value. Errors are non-zero: `none` is success.
-/

import Firebuild.FileInfo

namespace Firebuild

inductive Errno where
  | enoent | eexist | enotdir | einval | eacces | eisdir | enotempty | eperm | erofs | ebusy
  | eloop | enametoolong | eintr | efault
  | other (code : Nat)
  deriving DecidableEq, Repr

inductive HashResult where
  | dir (hash : Hash)
  | reg (size : Nat) (hash : Hash)
  deriving DecidableEq, Repr

structure World where
  generation : FileName → Nat
  /-- `get_hash`, given the number of writers that are tolerated. -/
  getHash : FileName → Nat → Except Errno HashResult
  /-- `get_statinfo`: `is_dir`, unless there is neither a regular file nor a directory. -/
  getStatinfo : FileName → Option Bool
  /-- `stat64`: mode bits and size. -/
  stat : FileName → Except Errno (Mode × Nat)
  isInReadOnlyLocation : FileName → Bool

def World.empty : World where
  generation _ := 0
  getHash _ _ := .error .enoent
  getStatinfo _ := none
  stat _ := .error .enoent
  isInReadOnlyLocation _ := false

structure OpenFlags where
  /-- O_WRONLY or O_RDWR. -/
  write : Bool := false
  creat : Bool := false
  excl : Bool := false
  trunc : Bool := false
  deriving DecidableEq, Repr

structure FileUsageUpdate where
  filename : FileName
  generation : Nat
  initialState : FileInfo := {}
  /-- `type_computer_open_rdonly` is still to be run. -/
  typeComputer : Bool := false
  hashComputer : Bool := false
  maxWriters : Nat := 0
  written : Bool := false
  modeChanged : Bool := false
  tmpFile : Bool := false
  parentType : FileType := .dontKnow
  unknownErr : Option Errno := none
  timestampSource : Option FileName := none
  deriving DecidableEq, Repr

namespace FileUsageUpdate

/-- The constructors: the generation is the file's current one. -/
def new (w : World) (filename : FileName) (type : FileType) (written modeChanged : Bool) : FileUsageUpdate :=
  { filename, generation := w.generation filename, initialState := { type }, written, modeChanged }

def setInitialType (d : FileUsageUpdate) (type : FileType) : FileUsageUpdate :=
  { d with initialState := { d.initialState with type } }

def typeComputerOpenRdonly (w : World) (d : FileUsageUpdate) : FileUsageUpdate :=
  match w.getHash d.filename d.maxWriters with
  | .error e => { d with unknownErr := some e }
  | .ok (.dir hash) =>
    { d with initialState := { d.initialState with type := .isDir, hash := some hash }
             typeComputer := false, hashComputer := false }
  | .ok (.reg size hash) =>
    { d with initialState := { d.initialState with type := .isReg, size := some size, hash := some hash }
             typeComputer := false, hashComputer := false }

/-- `get_initial_type`, with the update as it is then: `none` is an unexpected error. -/
def getInitialType (w : World) (d : FileUsageUpdate) : Option (FileType × FileUsageUpdate) :=
  let d := if d.typeComputer then d.typeComputerOpenRdonly w else d
  if d.unknownErr.isSome then none else some (d.initialState.type, d)

def computeHash (w : World) (d : FileUsageUpdate) : FileUsageUpdate :=
  match w.getHash d.filename d.maxWriters with
  | .ok (.dir hash) | .ok (.reg _ hash) =>
    { d with initialState := { d.initialState with hash := some hash }, hashComputer := false }
  | .error e => { d with unknownErr := some e, hashComputer := false }

/-- `initial_hash_known`: known already, or to be computed. -/
def initialHashKnown (d : FileUsageUpdate) : Bool := d.initialState.hash.isSome || d.hashComputer

/-- `get_initial_hash`: `none` is an unexpected error. -/
def getInitialHash (w : World) (d : FileUsageUpdate) : Option Hash :=
  let d := if d.hashComputer then d.computeHash w else d
  if d.unknownErr.isSome then none else some (d.initialState.hash.getD 0)

def updateFromEnotdir (w : World) (d : FileUsageUpdate) (filename : FileName) : FileUsageUpdate :=
  match w.getStatinfo filename with
  | some true => { d.setInitialType .isDir with unknownErr := some .enotdir, parentType := .isDir }
  | some false => { d.setInitialType .isReg with parentType := .isDir }
  | none =>
    match w.getStatinfo (filename.parentDir.getD []) with
    | some true => { d.setInitialType .isDir with parentType := .isDir, unknownErr := some .enotdir }
    | some false => { d.setInitialType .dontKnow with parentType := .isReg }
    | none => { d with parentType := .dontKnow, unknownErr := some .enotdir }

/-- The open() succeeded for writing, with O_CREAT and without O_EXCL (B and E): a mode
    that is not the one asked for means that the file existed; else pretend that the mode
    was set explicitly. -/
def fromCreatedMode (d : FileUsageUpdate) (stMode modeWithUmask : Mode) : FileUsageUpdate :=
  if stMode ≠ modeWithUmask then d.setInitialType .isReg else { d with modeChanged := true }

/-- The lines after the cases A to F. -/
def openedForWriting (d : FileUsageUpdate) : FileUsageUpdate :=
  { d with parentType := .isDir, written := true, maxWriters := 1 }

def getFromOpenedForWriting (w : World) (filename : FileName) (flags : OpenFlags) (modeWithUmask : Mode)
    (tmpFile : Bool) : FileUsageUpdate :=
  let update := new w filename .dontKnow false false
  if flags.creat && flags.excl then
    -- C, F
    openedForWriting { update.setInitialType .notExist with modeChanged := true, tmpFile }
  else if flags.trunc then
    if !flags.creat then
      -- A
      openedForWriting (update.setInitialType .isReg)
    else
      -- B
      match w.stat filename with
      | .error e => { update with unknownErr := some e }
      | .ok (mode, size) =>
        if size > 0 then { update with unknownErr := some .eexist }
        else openedForWriting ((update.setInitialType .notExistOrIsReg).fromCreatedMode mode modeWithUmask)
  else
    if !flags.creat then
      -- D
      openedForWriting { update.setInitialType .isReg with hashComputer := true }
    else
      -- E
      match w.stat filename with
      | .error e => { update with unknownErr := some e }
      | .ok (mode, size) =>
        let update :=
          if size > 0 then { update.setInitialType .isReg with hashComputer := true }
          else update.setInitialType .notExistOrIsReg
        let update := { update with initialState := { update.initialState with size := some size } }
        openedForWriting (update.fromCreatedMode mode modeWithUmask)

def getFromFailedOpenForWriting (w : World) (filename : FileName) (flags : OpenFlags) (err : Errno)
    (tmpFile : Bool) : FileUsageUpdate :=
  let update := new w filename .dontKnow false false
  match err with
  | .enoent => if !flags.creat then update.setInitialType .notExist else { update with parentType := .notExist }
  | .eexist =>
    if !tmpFile then update.setInitialType .exist else { update with tmpFile, unknownErr := some err }
  | .enotdir => update.updateFromEnotdir w filename
  | .einval => { update with tmpFile := tmpFile, unknownErr := some err }
  | _ => { update with unknownErr := some err }

def getFromOpenParams (w : World) (filename : FileName) (flags : OpenFlags) (modeWithUmask : Mode)
    (err : Option Errno) (tmpFile : Bool) : FileUsageUpdate :=
  match err with
  | none =>
    if flags.write then getFromOpenedForWriting w filename flags modeWithUmask tmpFile
    else { new w filename .dontKnow false false with typeComputer := true, hashComputer := true }
  | some err =>
    if flags.write then getFromFailedOpenForWriting w filename flags err tmpFile
    else
      let update := new w filename .dontKnow false false
      match err with
      | .enoent => update.setInitialType .notExist
      | .enotdir => update.updateFromEnotdir w filename
      | _ => { update with unknownErr := some err }

def getFromMkdirParams (w : World) (filename : FileName) (err : Option Errno) (tmpDir : Bool) : FileUsageUpdate :=
  let update := new w filename .dontKnow false false
  match err with
  | none =>
    { update.setInitialType .notExist with
      parentType := .isDir, written := true, modeChanged := true, tmpFile := tmpDir }
  | some .eexist => update.setInitialType .isDir
  | some .enoent => { update.setInitialType .notExist with parentType := .notExist }
  | some .einval => { update with tmpFile := tmpDir, unknownErr := some .einval }
  | some .eacces =>
    if w.isInReadOnlyLocation filename then update.setInitialType .notExist
    else { update with unknownErr := some .eacces }
  | some err => { update with unknownErr := some err }

inductive StatKind where
  | reg | dir | lnk | other
  deriving DecidableEq, Repr

def getFromStatParams (w : World) (filename : FileName) (kind : StatKind) (mode : Mode) (size : Nat)
    (err : Option Errno) : FileUsageUpdate :=
  let update := new w filename .dontKnow false false
  match err with
  | none =>
    match kind with
    | .reg =>
      { update with initialState :=
          ({ type := .isReg, size := some size } : FileInfo).setModeBits mode allModeBits }
    | .dir => { update with initialState := ({ type := .isDir } : FileInfo).setModeBits mode allModeBits }
    | .lnk => update
    | .other => update.setInitialType .notExist
  | some _ => update.setInitialType .notExist

/-- The hash is read from the new location, the generation is the old name's. -/
def getOldfileUsageFromRenameParams (w : World) (oldName newName : FileName) (err : Option Errno) : FileUsageUpdate :=
  { getFromOpenParams w newName {} 0 err false with
    written := true, modeChanged := true, generation := w.generation oldName }

def getNewfileUsageFromRenameParams (w : World) (newName : FileName) : FileUsageUpdate :=
  new w newName .dontKnow true true

/-! ## What the constructors keep -/

/-- A size comes with a type that has one, a hash with a regular file or a directory, or
    with a type still to be computed, which will be one of these. -/
structure WellFormed (d : FileUsageUpdate) : Prop where
  typeComputer : d.typeComputer = true → d.initialState.type = .dontKnow
  size : d.initialState.size.isSome = true → d.initialState.type.hasSize = true
  hash : d.initialHashKnown = true → d.typeComputer = true ∨ d.initialState.type = .isReg ∨ d.initialState.type = .isDir

/-- Nothing is known or to be computed but the type. -/
structure TypeOnly (d : FileUsageUpdate) : Prop where
  typeComputer : d.typeComputer = false
  size : d.initialState.size = none
  hash : d.initialHashKnown = false

theorem TypeOnly.wellFormed {d : FileUsageUpdate} (h : d.TypeOnly) : d.WellFormed :=
  ⟨fun ht => (by rw [h.typeComputer] at ht; cases ht), fun hs => (by rw [h.size] at hs; cases hs),
    fun hh => (by rw [h.hash] at hh; cases hh)⟩

theorem new_typeOnly (w : World) (f : FileName) (type : FileType) (written modeChanged : Bool) :
    (new w f type written modeChanged).TypeOnly := ⟨rfl, rfl, rfl⟩

theorem getFromStatParams_wellFormed (w : World) (f : FileName) (kind : StatKind) (mode : Mode) (size : Nat)
    (err : Option Errno) : (getFromStatParams w f kind mode size err).WellFormed := by
  unfold getFromStatParams
  split
  · split
    · exact ⟨nofun, fun _ => rfl, nofun⟩
    · exact TypeOnly.wellFormed ⟨rfl, rfl, rfl⟩
    · exact TypeOnly.wellFormed ⟨rfl, rfl, rfl⟩
    · exact TypeOnly.wellFormed ⟨rfl, rfl, rfl⟩
  · exact TypeOnly.wellFormed ⟨rfl, rfl, rfl⟩

end FileUsageUpdate

structure FileUsage where
  initialState : FileInfo := {}
  written : Bool := false
  modeChanged : Bool := false
  tmpFile : Bool := false
  propagated : Bool := true
  generation : Nat := 0
  timestampSource : Option FileName := none
  deriving DecidableEq, Repr

namespace FileUsage

/-- `FileUsage::Get(type)` -/
def get (type : FileType) : FileUsage := { initialState := { type } }

/-- `if (!initial_size_known() && update.initial_size_known())`, with the own state `own`
    and the state being built. -/
def takeSize (own tmp : FileInfo) (d : FileUsageUpdate) : FileInfo :=
  if own.size.isNone && d.initialState.size.isSome then { tmp with size := d.initialState.size } else tmp

/-- The same for the hash, which may have to be computed now. -/
def takeHash (w : World) (own tmp : FileInfo) (d : FileUsageUpdate) : Option FileInfo :=
  if own.hash.isNone && d.initialHashKnown then
    match d.getInitialHash w with
    | none => none
    | some hash => some { tmp with hash := some hash }
  else some tmp

/-- "Copy over the new values" -/
def copyOver (w : World) (own : FileInfo) (type : FileType) (d : FileUsageUpdate) : Option FileInfo :=
  takeHash w own (takeSize own { own with type } d) d

/-- The switch of `merge()` on the own initial type; `type` is the update's. -/
def mergeInitial (w : World) (own : FileInfo) (type : FileType) (d : FileUsageUpdate) : Option FileInfo :=
  match own.type with
  | .dontKnow => copyOver w own type d
  | .exist =>
    match type with
    | .notExist => none
    | .notExistOrIsReg =>
      -- it existed, and now it is known to be missing or a regular file
      some { own with
        type := .isReg, size := if d.initialState.size.isSome then d.initialState.size else own.size }
    | _ => copyOver w own type d
  | .notExist =>
    if type ≠ .dontKnow ∧ type ≠ .notExist ∧ type ≠ .notExistOrIsReg then none else some own
  | .notExistOrIsReg => some own
  | .isReg =>
    if type ≠ .dontKnow ∧ type ≠ .exist ∧ type ≠ .notExistOrIsReg ∧ type ≠ .isReg then none
    else takeHash w own (takeSize own own d) d
  | .isDir =>
    if type ≠ .dontKnow ∧ type ≠ .exist ∧ type ≠ .isDir then none else takeHash w own own d

/-- The part of `merge()` for a file that is not written yet. -/
def mergeUnwritten (w : World) (u : FileUsage) (d : FileUsageUpdate) : Option FileUsage :=
  match d.getInitialType w with
  | none => none
  | some (type, d) =>
    match mergeInitial w u.initialState type d with
    | none => none
    | some initialState => some { u with initialState, written := d.written }

/-- The part of `merge()` for a file whose mode was not changed yet. -/
def mergeMode (u : FileUsage) (d : FileUsageUpdate) : FileUsage :=
  let initialState :=
    if u.initialState.mode ≠ d.initialState.mode ∨ u.initialState.modeMask ≠ d.initialState.modeMask then
      u.initialState.setModeBits d.initialState.mode d.initialState.modeMask
    else u.initialState
  { u with initialState, modeChanged := d.modeChanged }

/-- `merge`: `none` is a contradiction or an error. -/
def merge (w : World) (u : FileUsage) (d : FileUsageUpdate) (propagated : Bool) : Option FileUsage :=
  match if u.written then some u else mergeUnwritten w u d with
  | none => none
  | some tmp =>
    let tmp := if u.modeChanged then tmp else mergeMode tmp d
    some { tmp with
      generation := d.generation, tmpFile := u.tmpFile || d.tmpFile, propagated
      timestampSource := d.timestampSource }

end FileUsage
end Firebuild
