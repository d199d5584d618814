/-
  Firebuild.Store — storing a process in the cache (`execed_process_cacher.cc`: `store`,
  with `tmp_file_or_on_tmp_path`, `rustc_ignored_dir`, `dir_created_or_could_exist` and
  `consistent_implicit_parent_dirs`).

  The inputs of the entry are the initial states of the process's file usages; the outputs
  are the states now of what it wrote, with their contents in the blob cache or inline,
  and what it wrote to inherited pipes and files. `store()` may give up at any point
  (`Refusal`); blobs stored until then stay in the cache, so every function returns the
  caches besides its result.

  `StoreEnv` is what the function looks up: configuration, generations, the file system,
  and which system calls fail. Where `std::sort` compares strings, paths are compared as
  strings; where it compares pointers, `address` is compared.
-/

import Mathlib.Data.List.Sort
import Firebuild.Entry
import Firebuild.PipeRecorder

namespace Firebuild

inductive Refusal where
  | silent
  /-- `disable_shortcutting_only_this()` was called. -/
  | disabled (reason : String)
  /-- The usage of a parent directory was looked up that is not there. -/
  | undefined
  deriving DecidableEq, Repr

inductive InheritedKind where
  | pipeOut (recorder : Option PipeRecorder)
  | file (name : FileName) (startOffset : Nat)
  | other
  deriving DecidableEq, Repr

structure InheritedFile where
  /-- The lowest of its fds. -/
  fd : Nat
  write : Bool
  kind : InheritedKind
  deriving DecidableEq, Repr

structure ParentExecPoint where
  canShortcut : Bool
  executable : FileName
  args : List String
  deriving DecidableEq, Repr

structure StoredProcess where
  fileUsages : List (FileName × FileUsage) := []
  inheritedFiles : List InheritedFile := []
  args : List String := []
  exitStatus : Int := 0
  parentExecPoint : Option ParentExecPoint := none
  deriving DecidableEq, Repr

structure StoreEnv where
  codec : Codec
  cfg : CacheConfig
  noStore : Bool := false
  ccacheDisabled : Bool := false
  shells : List String := []
  /-- `FB_QUIRK_IGNORE_TMP_LISTING` -/
  ignoreTmpListing : Bool := false
  tmpdir : FileName := ["tmp"]
  topDir : FileName := []
  isInReadOnlyLocation : FileName → Bool := fun _ => false
  isInIgnoreLocation : FileName → Bool := fun _ => false
  generation : FileName → Nat := fun _ => 0
  writersCount : FileName → Nat := fun _ => 0
  disk : FileName → FsNode
  /-- open() for reading succeeds. -/
  canOpen : FileName → Bool := fun _ => true
  fileFails : FileName → Option StoreFailure := fun _ => none
  /-- For the data of an inherited fd. -/
  fdFails : Nat → Option StoreFailure := fun _ => none
  /-- Where the string of a file name is in memory. -/
  address : FileName → Nat := fun _ => 0

/-! ## The parent is stored instead -/

def joinedCmdline (args : List String) : String :=
  args.foldl (fun joined arg => joined ++ (if joined = "" then arg else " " ++ arg)) ""

def parentMayBeJustShC (env : StoreEnv) (parent : ParentExecPoint) : Bool :=
  parent.canShortcut &&
    ((parent.args.length == 4 && parent.args[1]? == some "-c" && parent.args[2]? == some "--") ||
      (parent.args.length == 3 && parent.args[1]? == some "-c")) &&
    parent.args[0]?.any env.shells.contains

def shortcutParentInstead (env : StoreEnv) (p : StoredProcess) : Option String :=
  match p.parentExecPoint with
  | none => none
  | some parent =>
    if env.ccacheDisabled && parent.executable.getLast? == some "ccache" && parent.canShortcut then
      some "Shortcut parent ccache ... instead"
    else if parentMayBeJustShC env parent && some (joinedCmdline p.args) == parent.args[2]? then
      some "Shortcut parent sh -c ... instead"
    else none

/-! ## Inputs -/

def FileName.under (name dir : FileName) : Bool := dir.isPrefixOf name && name != dir

def tmpFileOrOnTmpPath (env : StoreEnv) (fu : FileUsage) (name : FileName) : Bool :=
  fu.tmpFile || (name.under env.tmpdir && !name.under env.topDir)

def rustcIgnoredArgs (name : FileName) : List String → Bool
  | [] => false
  | arg :: args =>
    if arg.startsWith "dependency=" then
      arg.drop "dependency=".length == name.str || rustcIgnoredArgs name args
    else (arg == "--out-dir" && args.head? == some name.str) || rustcIgnoredArgs name args

def rustcIgnoredDir (args : List String) (name : FileName) : Bool :=
  match args with
  | [] => false
  | exe :: args => exe.endsWith "rustc" && rustcIgnoredArgs name args

def storeInput (env : StoreEnv) (p : StoredProcess) (name : FileName) (fu : FileUsage) (acc : ProcessInputs) :
    Except Refusal ProcessInputs :=
  if fu.generation ≠ env.generation name then
    .error (.disabled "A file could not be stored because it changed since the process used it.")
  else
    match fu.initialState.type with
    | .dontKnow => .ok acc
    | .notExist => .ok { acc with pathNotexist := acc.pathNotexist ++ [name] }
    | .isDir =>
      let ignored := fu.initialState.hash.isSome &&
        ((env.ignoreTmpListing && name == env.tmpdir) || rustcIgnoredDir p.args name)
      let initialState := if ignored then { fu.initialState with hash := none } else fu.initialState
      .ok { acc with path := acc.path ++ [addFile env.cfg name initialState false none []] }
    | .isReg =>
      if tmpFileOrOnTmpPath env fu name then .error .silent
      else .ok { acc with path := acc.path ++ [addFile env.cfg name fu.initialState false none []] }
    | .exist | .notExistOrIsReg =>
      .ok { acc with path := acc.path ++ [addFile env.cfg name fu.initialState false none []] }

def storeInputsPass (env : StoreEnv) (p : StoredProcess) (system : Bool) :
    List (FileName × FileUsage) → ProcessInputs → Except Refusal ProcessInputs
  | [], acc => .ok acc
  | (name, fu) :: usages, acc =>
    if env.isInReadOnlyLocation name = system then
      match storeInput env p name fu acc with
      | .error r => .error r
      | .ok acc => storeInputsPass env p system usages acc
    else storeInputsPass env p system usages acc

def SerializedFile.le (a b : SerializedFile) : Prop := a.path.str ≤ b.path.str

instance : DecidableRel SerializedFile.le := fun a b => inferInstanceAs (Decidable (a.path.str ≤ b.path.str))

def FileName.le (a b : FileName) : Prop := a.str ≤ b.str

instance : DecidableRel FileName.le := fun a b => inferInstanceAs (Decidable (a.str ≤ b.str))

def storeInputs (env : StoreEnv) (p : StoredProcess) : Except Refusal ProcessInputs :=
  match storeInputsPass env p false p.fileUsages {} with
  | .error r => .error r
  | .ok nonSystem =>
    match storeInputsPass env p true p.fileUsages {} with
    | .error r => .error r
    | .ok system =>
      .ok {
        path := nonSystem.path.insertionSort SerializedFile.le ++ system.path.insertionSort SerializedFile.le
        pathNotexist := nonSystem.pathNotexist.insertionSort FileName.le ++ system.pathNotexist.insertionSort FileName.le }

/-! ## Outputs -/

/-- The outputs so far, unsorted, and the blob bytes they count for. -/
structure OutputAcc where
  outputs : ProcessOutputs := {}
  storedBlobBytes : Nat := 0
  deriving DecidableEq, Repr

/-- The new state of a path that was written or whose mode was changed, with the data to
    inline and the blob bytes it counts for. -/
def newFileInfo (env : StoreEnv) (name : FileName) (fu : FileUsage) (cs : Caches) :
    Caches × Except Refusal (FileInfo × Bytes × Nat) :=
  let withMode (mode : Mode) (info : FileInfo) : FileInfo :=
    if fu.modeChanged then info.setModeBits mode allModeBits else info
  match env.disk name with
  | .missing => (cs, .ok ({ type := .notExist }, [], 0))
  | .reg content mode mtime inode =>
    if fu.written = false then (cs, .ok (withMode mode { type := .exist }, [], 0))
    else if env.canOpen name = false then (cs, .ok (withMode mode { type := .notExist }, [], 0))
    else
      match storeAndGetHash env.codec env.cfg (env.fileFails name) (env.isInIgnoreLocation name)
          (env.isInReadOnlyLocation name) (env.writersCount name) (.reg content mode mtime inode) content name cs with
      | none => (cs, .error (.disabled "Could not store blob in cache, not writing shortcut info"))
      | some (r, cs) =>
        (cs, .ok (withMode mode { type := .isReg, size := some content.length, hash := some r.hash },
          r.inlineData, r.storedBytes))
  | .dir _ mode _ _ => (cs, .ok (withMode mode { type := if fu.written then .isDir else .exist }, [], 0))
  -- "handle other types of entries"
  | .special mode => (cs, .ok (withMode mode { type := if fu.written then .notExist else .exist }, [], 0))

def addOutput (env : StoreEnv) (name : FileName) (fu : FileUsage) (info : FileInfo) (inlineData : Bytes)
    (o : ProcessOutputs) : Except Refusal ProcessOutputs :=
  match info.type with
  | .exist | .isReg =>
    if tmpFileOrOnTmpPath env fu name then .error (.disabled "Process created a temporary file")
    else .ok { o with pathIsreg := o.pathIsreg ++ [addFile env.cfg name info true (some fu) inlineData] }
  | .isDir =>
    if tmpFileOrOnTmpPath env fu name then .error (.disabled "Process created a temporary dir")
    else .ok { o with pathIsdir := o.pathIsdir ++ [addFile env.cfg name info true (some fu) []] }
  | .notExist =>
    .ok (if fu.initialState.type ≠ .notExist then { o with pathNotexist := o.pathNotexist ++ [name] } else o)
  | .dontKnow | .notExistOrIsReg => .ok o

def storeOutput (env : StoreEnv) (name : FileName) (fu : FileUsage) (cs : Caches) (acc : OutputAcc) :
    Caches × Except Refusal OutputAcc :=
  -- "Completely unchanged, nothing to do."
  if fu.written = false ∧ fu.modeChanged = false then (cs, .ok acc)
  else
    match newFileInfo env name fu cs with
    | (cs, .error r) => (cs, .error r)
    | (cs, .ok (info, inlineData, storedBytes)) =>
      if acc.storedBlobBytes + storedBytes > env.cfg.maxEntrySize then (cs, .error .silent)
      else
        match addOutput env name fu info inlineData acc.outputs with
        | .error r => (cs, .error r)
        | .ok outputs => (cs, .ok ⟨outputs, acc.storedBlobBytes + storedBytes⟩)

/-- A loop that ends where its body gives up. -/
def storeEach {α : Type} (f : α → Caches → OutputAcc → Caches × Except Refusal OutputAcc) :
    List α → Caches → OutputAcc → Caches × Except Refusal OutputAcc
  | [], cs, acc => (cs, .ok acc)
  | a :: l, cs, acc =>
    match f a cs acc with
    | (cs, .error r) => (cs, .error r)
    | (cs, .ok acc) => storeEach f l cs acc

def storeOutputs (env : StoreEnv) : List (FileName × FileUsage) → Caches → OutputAcc → Caches × Except Refusal OutputAcc :=
  storeEach fun x => storeOutput env x.1 x.2

def blobAppend (cfg : CacheConfig) (fd : Nat) (hash : Hash) : AppendToFd :=
  if cfg.compressCache then { fd, compressedHash := some hash } else { fd, hash := some hash }

def OutputAcc.addAppend (cfg : CacheConfig) (acc : OutputAcc) (record : Option AppendToFd) (storedBytes : Nat) :
    Except Refusal OutputAcc :=
  if acc.storedBlobBytes + storedBytes > cfg.maxEntrySize then .error .silent
  else
    .ok ⟨{ acc.outputs with appendToFd := acc.outputs.appendToFd ++ record.toList },
      acc.storedBlobBytes + storedBytes⟩

def storeAppend (env : StoreEnv) (f : InheritedFile) (cs : Caches) (acc : OutputAcc) : Caches × Except Refusal OutputAcc :=
  if f.write = false then (cs, .ok acc)
  else
    match f.kind with
    | .other | .pipeOut none => (cs, .ok acc)
    | .pipeOut (some recorder) =>
      match recorder.store env.codec env.cfg (env.fdFails f.fd) cs.blob with
      | none => (cs, .error (.disabled "Could not store pipe traffic in cache, not writing shortcut info"))
      | some (.empty, blob) => ({ cs with blob }, acc.addAppend env.cfg none 0)
      | some (.inlined data, blob) =>
        ({ cs with blob }, acc.addAppend env.cfg (some { fd := f.fd, inlineData := data }) 0)
      | some (.blob hash storedBytes, blob) =>
        ({ cs with blob }, acc.addAppend env.cfg (some (blobAppend env.cfg f.fd hash)) storedBytes)
    | .file name startOffset =>
      match env.disk name with
      | .missing => (cs, .error (.disabled "Could not stat file, not writing shortcut info"))
      | .dir .. | .special _ => (cs, .error (.disabled "Not a regular file, not writing shortcut info"))
      | .reg content _ _ _ =>
        if content.length < startOffset then
          (cs, .error (.disabled "File shrank during appending, not writing shortcut info"))
        else if content.length = startOffset then (cs, .ok acc)
        else
          match storeFile env.codec env.cfg (env.fdFails f.fd) (env.writersCount name) 1 false content startOffset
              cs.blob with
          | none => (cs, .error (.disabled "Could not store file fragment in cache, not writing shortcut info"))
          | some (hash, blob) =>
            ({ cs with blob },
              acc.addAppend env.cfg (some (blobAppend env.cfg f.fd hash)) (content.length - startOffset))

def storeAppends (env : StoreEnv) : List InheritedFile → Caches → OutputAcc → Caches × Except Refusal OutputAcc :=
  storeEach (storeAppend env)

/-! ## The implicit parent directories -/

/-- `dir_created_or_could_exist`, from the given directory upwards: `none` if a usage is looked
    up that is not there. The steps are the components of the path. -/
def dirCreatedOrCouldExist (dirs : List FileName) (usages : List (FileName × FileUsage)) :
    Nat → Option FileName → Option Bool
  | _, none => some true
  | 0, some _ => some true
  | n + 1, some dir =>
    match usages.lookup dir with
    | none => none
    | some fu =>
      match fu.initialState.type with
      | .notExist | .notExistOrIsReg => some (fu.written && dirs.contains dir)
      | .isDir => some true
      | .dontKnow | .exist | .isReg => dirCreatedOrCouldExist dirs usages n dir.parentDir

def parentDirsOk (dirs : List FileName) (usages : List (FileName × FileUsage)) : List FileName → Option Bool
  | [] => some true
  | path :: paths =>
    match dirCreatedOrCouldExist dirs usages (path.length + 1) path.parentDir with
    | none => none
    | some false => some false
    | some true => parentDirsOk dirs usages paths

def consistentImplicitParentDirs (p : StoredProcess) (o : ProcessOutputs) : Option Bool :=
  parentDirsOk (o.pathIsdir.map (·.path)) p.fileUsages (o.pathIsreg.map (·.path) ++ o.pathIsdir.map (·.path))

def ProcessOutputs.sorted (env : StoreEnv) (o : ProcessOutputs) : ProcessOutputs :=
  { o with
    pathIsreg := o.pathIsreg.insertionSort SerializedFile.le
    pathIsdir := o.pathIsdir.insertionSort SerializedFile.le
    pathNotexist := o.pathNotexist.insertionSort fun a b => env.address a ≤ env.address b }

def storeAllOutputs (env : StoreEnv) (p : StoredProcess) (cs : Caches) : Caches × Except Refusal ProcessOutputs :=
  match storeOutputs env p.fileUsages cs {} with
  | (cs, .error r) => (cs, .error r)
  | (cs, .ok acc) =>
    match storeAppends env p.inheritedFiles cs acc with
    | (cs, .error r) => (cs, .error r)
    | (cs, .ok acc) =>
      match consistentImplicitParentDirs p acc.outputs with
      | none => (cs, .error .undefined)
      | some false =>
        (cs, .error (.disabled "Inconsistency: A parent dir of an output file must not exit for shortcutting."))
      | some true => (cs, .ok { acc.outputs.sorted env with exitStatus := p.exitStatus })

/-- `store`: the caches after it, and the entry or why there is none. -/
def store (env : StoreEnv) (p : StoredProcess) (cs : Caches) : Caches × Except Refusal ProcessInputsOutputs :=
  if env.noStore then (cs, .error .silent)
  else
    match shortcutParentInstead env p with
    | some reason => (cs, .error (.disabled reason))
    | none =>
      match storeInputs env p with
      | .error r => (cs, .error r)
      | .ok inputs =>
        match storeAllOutputs env p cs with
        | (cs, .error r) => (cs, .error r)
        | (cs, .ok outputs) => (cs, .ok { inputs, outputs })

/-! ## What a usage adds to the inputs -/

variable {env : StoreEnv} {p : StoredProcess} {cs : Caches} {name : FileName} {fu : FileUsage}

def ProcessInputs.append (i j : ProcessInputs) : ProcessInputs := ⟨i.path ++ j.path, i.pathNotexist ++ j.pathNotexist⟩

/-- A usage adds to the inputs what it adds to none. -/
theorem storeInput_append (env : StoreEnv) (p : StoredProcess) (name : FileName) (fu : FileUsage) (acc : ProcessInputs) :
    storeInput env p name fu acc = (storeInput env p name fu {}).map acc.append := by
  unfold storeInput
  split
  · rfl
  cases fu.initialState.type with
  | dontKnow | notExist | isDir | exist | notExistOrIsReg => simp [Except.map, ProcessInputs.append]
  | isReg =>
    simp only
    split
    · rfl
    · simp [Except.map, ProcessInputs.append]

def inputOf (env : StoreEnv) (p : StoredProcess) (x : FileName × FileUsage) : ProcessInputs :=
  match storeInput env p x.1 x.2 {} with
  | .ok i => i
  | .error _ => {}

/-- The inputs of one pass, and what they are if none is refused. -/
theorem storeInputsPass_iff :
    storeInputsPass env p system us acc = .ok acc' ↔
      (∀ x ∈ us, env.isInReadOnlyLocation x.1 = system → ∃ i, storeInput env p x.1 x.2 {} = .ok i) ∧
        acc' = acc.append ⟨(us.filter (env.isInReadOnlyLocation ·.1 = system)).flatMap fun x => (inputOf env p x).path,
            (us.filter (env.isInReadOnlyLocation ·.1 = system)).flatMap fun x => (inputOf env p x).pathNotexist⟩ := by
  induction us generalizing acc with
  | nil => simp [storeInputsPass, ProcessInputs.append, eq_comm]
  | cons x us ih =>
    obtain ⟨name, fu⟩ := x
    rw [storeInputsPass]
    by_cases hloc : env.isInReadOnlyLocation name = system
    · rw [if_pos hloc, storeInput_append]
      cases hone : storeInput env p name fu {} with
      | error r =>
        simp only [Except.map, reduceCtorEq, false_iff, not_and]
        intro h
        obtain ⟨i, hi⟩ := h (name, fu) (List.mem_cons_self ..) hloc
        rw [hone] at hi
        cases hi
      | ok i =>
        have hpiece : inputOf env p (name, fu) = i := by
          unfold inputOf
          simp only [hone]
        simp only [Except.map]
        rw [ih]
        simp [hloc, hone, hpiece, ProcessInputs.append]
    · rw [if_neg hloc, ih]
      simp [hloc]

/-- The inputs are what the usages add, in another order, if none is refused. -/
theorem storeInputs_perm (h : storeInputs env p = .ok i) :
    (∀ x ∈ p.fileUsages, ∃ one, storeInput env p x.1 x.2 {} = .ok one) ∧
      i.path.Perm (p.fileUsages.flatMap fun x => (inputOf env p x).path) ∧
      i.pathNotexist.Perm (p.fileUsages.flatMap fun x => (inputOf env p x).pathNotexist) := by
  have hparts : ∀ {β : Type} (g : FileName × FileUsage → List β),
      ((p.fileUsages.filter (env.isInReadOnlyLocation ·.1 = false)).flatMap g ++
        (p.fileUsages.filter (env.isInReadOnlyLocation ·.1 = true)).flatMap g).Perm (p.fileUsages.flatMap g) := by
    intro β g
    rw [← List.flatMap_append]
    refine List.Perm.flatMap_right g ?_
    simpa using List.filter_append_perm (fun x => decide (env.isInReadOnlyLocation x.1 = false)) p.fileUsages
  unfold storeInputs at h
  cases h1 : storeInputsPass env p false p.fileUsages {} with
  | error r => simp only [h1] at h; cases h
  | ok nonSystem =>
    cases h2 : storeInputsPass env p true p.fileUsages {} with
    | error r => simp only [h1, h2] at h; cases h
    | ok system =>
      simp only [h1, h2] at h
      cases h
      obtain ⟨hok1, rfl⟩ := storeInputsPass_iff.mp h1
      obtain ⟨hok2, rfl⟩ := storeInputsPass_iff.mp h2
      refine ⟨fun x hx => ?_, ?_, ?_⟩
      · cases hloc : env.isInReadOnlyLocation x.1 with
        | false => exact hok1 x hx hloc
        | true => exact hok2 x hx hloc
      · exact ((List.perm_insertionSort _ _).append (List.perm_insertionSort _ _)).trans (hparts _)
      · exact ((List.perm_insertionSort _ _).append (List.perm_insertionSort _ _)).trans (hparts _)

/-! ## The new state of a file -/

def newType (env : StoreEnv) (name : FileName) (fu : FileUsage) : FileType :=
  match env.disk name with
  | .missing => .notExist
  | .reg .. => if fu.written = false then .exist else if env.canOpen name = false then .notExist else .isReg
  | .dir .. => if fu.written then .isDir else .exist
  | .special _ => if fu.written then .notExist else .exist

/-- What is said about the file, and what became of the content of a regular one. -/
structure NewInfo (env : StoreEnv) (name : FileName) (fu : FileUsage) (cs : Caches) (info : FileInfo) (cs' : Caches) :
    Prop where
  type : info.type = newType env name fu
  mode : fu.modeChanged = true → env.disk name ≠ .missing → info.modeMask = allModeBits
  caches : info.type ≠ .isReg → cs' = cs
  stored : info.type = .isReg → fu.written = true ∧ env.canOpen name = true ∧ ∃ content mode mtime inode r,
    env.disk name = .reg content mode mtime inode ∧ info.hash = some r.hash ∧
      storeAndGetHash env.codec env.cfg (env.fileFails name) (env.isInIgnoreLocation name)
        (env.isInReadOnlyLocation name) (env.writersCount name) (.reg content mode mtime inode) content name cs = some (r, cs')

theorem withMode_eq (changed : Bool) (m : Mode) (i : FileInfo) :
    (if changed then i.setModeBits m allModeBits else i).type = i.type ∧
      (if changed then i.setModeBits m allModeBits else i).hash = i.hash ∧
      (changed = true → i.modeMask = 0 → (if changed then i.setModeBits m allModeBits else i).modeMask = allModeBits) := by
  cases changed with
  | false => exact ⟨rfl, rfl, nofun⟩
  | true => exact ⟨rfl, rfl, fun _ hm => by rw [FileInfo.setModeBits, hm]; exact BitVec.zero_or⟩

variable {info : FileInfo} {data : Bytes}

theorem newFileInfo_ok (h : (newFileInfo env name fu cs).2 = .ok (info, data, n)) :
    NewInfo env name fu cs info (newFileInfo env name fu cs).1 := by
  -- nothing is stored, the info has a type and maybe mode bits
  have hplain : ∀ (m : Mode) (t : FileType), newType env name fu = t → t ≠ .isReg →
      NewInfo env name fu cs
        (if fu.modeChanged then ({ type := t } : FileInfo).setModeBits m allModeBits else { type := t }) cs := by
    intro m t ht hreg
    obtain ⟨htype, _, hmode⟩ := withMode_eq fu.modeChanged m { type := t }
    refine ⟨htype.trans ht.symm, fun hc _ => hmode hc rfl, fun _ => rfl, fun h => ?_⟩
    exact absurd (htype.symm.trans h) hreg
  unfold newFileInfo at h ⊢
  cases hdisk : env.disk name with
  | missing =>
    simp only [hdisk] at h ⊢
    cases h
    exact ⟨by simp [newType, hdisk], fun _ hm => absurd hdisk hm, fun _ => rfl, nofun⟩
  | special mode | dir hash mode mtime inode =>
    simp only [hdisk] at h ⊢
    cases h
    exact hplain mode _ (by simp [newType, hdisk]) (by cases fu.written <;> simp)
  | reg content mode mtime inode =>
    simp only [hdisk] at h ⊢
    by_cases hw : fu.written = false
    · simp only [if_pos hw] at h ⊢
      cases h
      exact hplain mode _ (by simp [newType, hdisk, hw]) (by simp)
    by_cases hopen : env.canOpen name = false
    · simp only [if_neg hw, if_pos hopen] at h ⊢
      cases h
      exact hplain mode _ (by simp [newType, hdisk, hw, hopen]) (by simp)
    simp only [if_neg hw, if_neg hopen] at h ⊢
    cases hst : storeAndGetHash env.codec env.cfg (env.fileFails name) (env.isInIgnoreLocation name)
        (env.isInReadOnlyLocation name) (env.writersCount name) (.reg content mode mtime inode) content name cs with
    | none =>
      rw [hst] at h
      cases h
    | some x =>
      obtain ⟨r, cs'⟩ := x
      rw [hst] at h
      cases h
      obtain ⟨htype, hhash, hmode⟩ := withMode_eq fu.modeChanged mode
        { type := .isReg, size := some content.length, hash := some r.hash }
      refine ⟨htype.trans (by simp [newType, hdisk, hw, hopen]), fun hc _ => hmode hc rfl, fun h => absurd htype h, fun _ => ?_⟩
      exact ⟨by simpa using hw, by simpa using hopen, content, mode, mtime, inode, r, hdisk, hhash, hst⟩

theorem newFileInfo_error (h : (newFileInfo env name fu cs).2 = .error r) : (newFileInfo env name fu cs).1 = cs := by
  revert h
  unfold newFileInfo
  repeat' split
  all_goals first | exact fun _ => rfl | exact nofun

/-! ## Adding the new state -/

inductive AddsOutput (env : StoreEnv) (name : FileName) (fu : FileUsage) (info : FileInfo) (o : ProcessOutputs) :
    ProcessOutputs → Prop
  | file (data : Bytes) (h : info.type ≠ .notExist) : AddsOutput env name fu info o
      { o with pathIsreg := o.pathIsreg ++ [addFile env.cfg name info true (some fu) data] }
  | dir (h : info.type = .isDir) : AddsOutput env name fu info o
      { o with pathIsdir := o.pathIsdir ++ [addFile env.cfg name info true (some fu) []] }
  | removed (h : info.type = .notExist) (hi : fu.initialState.type ≠ .notExist) : AddsOutput env name fu info o
      { o with pathNotexist := o.pathNotexist ++ [name] }
  | nothing (h : info.type = .notExist → fu.initialState.type = .notExist) : AddsOutput env name fu info o o

variable {o : ProcessOutputs}

theorem addOutput_adds
    (h : addOutput env name fu info data o = .ok o') : AddsOutput env name fu info o o' := by
  unfold addOutput at h
  cases ht : info.type with
  | exist | isReg =>
    simp only [ht] at h
    split at h
    · cases h
    cases h
    exact .file data (by simp [ht])
  | isDir =>
    simp only [ht] at h
    split at h
    · cases h
    cases h
    exact .dir ht
  | notExist =>
    simp only [ht] at h
    cases h
    split
    · rename_i hi
      exact .removed ht hi
    · rename_i hi
      exact .nothing fun _ => not_not.mp hi
  | dontKnow | notExistOrIsReg =>
    simp only [ht] at h
    cases h
    exact .nothing (by simp [ht])

def ProcessOutputs.append (o q : ProcessOutputs) : ProcessOutputs :=
  { o with
    pathIsreg := o.pathIsreg ++ q.pathIsreg
    pathIsdir := o.pathIsdir ++ q.pathIsdir
    pathNotexist := o.pathNotexist ++ q.pathNotexist }

theorem addOutput_append (env : StoreEnv) (name : FileName) (fu : FileUsage) (info : FileInfo) (inlineData : Bytes)
    (o : ProcessOutputs) :
    addOutput env name fu info inlineData o = (addOutput env name fu info inlineData {}).map o.append := by
  unfold addOutput
  cases info.type with
  | dontKnow | notExistOrIsReg => simp [Except.map, ProcessOutputs.append]
  | exist | isReg | isDir =>
    dsimp only
    split
    · rfl
    · simp [Except.map, ProcessOutputs.append]
  | notExist =>
    dsimp only
    split
    · simp [Except.map, ProcessOutputs.append]
    · simp [Except.map, ProcessOutputs.append]

/-! ## The loops -/

variable {I : Caches → OutputAcc → Prop} {J : Caches → Prop}

/-- What every step keeps holds at the end of a loop, and what it leaves in the caches when
    it gives up. -/
theorem storeEach_keeps (hJ : ∀ cs acc, I cs acc → J cs)
    (hf : ∀ a ∈ l, ∀ cs acc, I cs acc → J (f a cs acc).1 ∧ ∀ acc', (f a cs acc).2 = .ok acc' → I (f a cs acc).1 acc')
    (h : I cs acc) :
    J (storeEach f l cs acc).1 ∧ ∀ acc', (storeEach f l cs acc).2 = .ok acc' → I (storeEach f l cs acc).1 acc' := by
  induction l generalizing cs acc with
  | nil =>
    refine ⟨hJ cs acc h, fun acc' hok => ?_⟩
    cases hok
    exact h
  | cons a l ih =>
    obtain ⟨hleft, hone⟩ := hf a List.mem_cons_self cs acc h
    rw [storeEach]
    generalize f a cs acc = r at hleft hone
    obtain ⟨cs1, r⟩ := r
    cases r with
    | error e => exact ⟨hleft, fun _ => nofun⟩
    | ok acc1 => exact ih (fun a ha => hf a (List.mem_cons_of_mem _ ha)) (hone acc1 rfl)

theorem storeAllOutputs_keeps (hJ : ∀ cs acc, I cs acc → J cs)
    (houtput : ∀ x ∈ p.fileUsages, ∀ cs acc, I cs acc → J (storeOutput env x.1 x.2 cs acc).1 ∧
      ∀ acc', (storeOutput env x.1 x.2 cs acc).2 = .ok acc' → I (storeOutput env x.1 x.2 cs acc).1 acc')
    (happend : ∀ f ∈ p.inheritedFiles, ∀ cs acc, I cs acc → J (storeAppend env f cs acc).1 ∧
      ∀ acc', (storeAppend env f cs acc).2 = .ok acc' → I (storeAppend env f cs acc).1 acc')
    (h : I cs {}) :
    J (storeAllOutputs env p cs).1 ∧ ∀ o, (storeAllOutputs env p cs).2 = .ok o →
      ∃ acc, I (storeAllOutputs env p cs).1 acc ∧ o = { acc.outputs.sorted env with exitStatus := p.exitStatus } := by
  obtain ⟨hleft, hfiles⟩ := storeEach_keeps hJ houtput h
  unfold storeAllOutputs storeOutputs storeAppends
  generalize storeEach (fun x => storeOutput env x.1 x.2) p.fileUsages cs {} = r at hleft hfiles
  obtain ⟨cs1, r⟩ := r
  cases r with
  | error e => exact ⟨hleft, fun _ => nofun⟩
  | ok acc =>
    obtain ⟨hleft, happends⟩ := storeEach_keeps hJ happend (hfiles acc rfl)
    dsimp only at hleft happends ⊢
    generalize storeEach (storeAppend env) p.inheritedFiles cs1 acc = r at hleft happends
    obtain ⟨cs2, r⟩ := r
    cases r with
    | error e => exact ⟨hleft, fun _ => nofun⟩
    | ok acc' =>
      dsimp only
      split
      · exact ⟨hleft, fun _ => nofun⟩
      · exact ⟨hleft, fun _ => nofun⟩
      refine ⟨hleft, fun o hok => ⟨acc', happends acc' rfl, ?_⟩⟩
      cases hok
      rfl

/-- The stages of storing the outputs, if none of them gives up. -/
theorem storeAllOutputs_iff : (storeAllOutputs env p cs).2 = .ok o ↔
      ∃ acc acc', (storeOutputs env p.fileUsages cs {}).2 = .ok acc ∧
        (storeAppends env p.inheritedFiles (storeOutputs env p.fileUsages cs {}).1 acc).2 = .ok acc' ∧
        consistentImplicitParentDirs p acc'.outputs = some true ∧
        o = { acc'.outputs.sorted env with exitStatus := p.exitStatus } := by
  unfold storeAllOutputs
  obtain ⟨cs1, r⟩ := storeOutputs env p.fileUsages cs {}
  cases r with
  | error r => simp
  | ok acc =>
    simp only [Except.ok.injEq, exists_and_left, exists_eq_left']
    obtain ⟨cs2, r⟩ := storeAppends env p.inheritedFiles cs1 acc
    cases r with
    | error r => simp
    | ok acc' =>
      simp only
      split
      · rename_i h; simp [h]
      · rename_i h; simp [h]
      · rename_i h; simp [h, eq_comm]

theorem store_iff : (store env p cs).2 = .ok e ↔
      env.noStore = false ∧ shortcutParentInstead env p = none ∧ storeInputs env p = .ok e.inputs ∧
        (storeAllOutputs env p cs).2 = .ok e.outputs := by
  unfold store
  cases env.noStore with
  | true => simp
  | false =>
    cases shortcutParentInstead env p with
    | some reason => simp
    | none =>
      cases storeInputs env p with
      | error r => simp
      | ok inputs =>
        obtain ⟨cs1, r⟩ := storeAllOutputs env p cs
        cases r with
        | error r => simp
        | ok outputs =>
          obtain ⟨i, o⟩ := e
          simp

end Firebuild
