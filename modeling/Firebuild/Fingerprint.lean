/-
  Firebuild.Fingerprint — the bytes a process's fingerprint is the hash of
  (`execed_process_cacher.cc`: `add_to_hash_state`, `env_fingerprintable`, `hash_param_file`,
  `fingerprint`).

  The stream is a concatenation: strings with their ending NUL, hashes as their 16 bytes, and
  everything else converted to an int of 4 bytes. A file name is its string here; two file
  names are the same object exactly if their strings are equal. Strings have no NUL byte
  (`CString`), open fds are non-negative ints, and arguments, environment and libraries come
  from arrays of a message, whose counts have 32 bits (`fbb_size_t`).

  The environment is where the stream is not what it seems: the number in front is that of all
  variables, what follows are those that are not skipped. The list is still delimited, by the
  executable, which is the first string that starts with "/". But the number lets the skipped
  variables in.

  Proved: `fingerprint_encoding_is_injective`; `skipped_variables_do_not_matter`, with
  `a_skipped_variable_changes_the_fingerprint`.
-/

import Firebuild.BlobCache
import Firebuild.Lib.Encoding

namespace Firebuild

open Lib.Encoding
open List

abbrev CString := { b : Bytes // (0 : UInt8) ∉ b }

/-- `XXH128_hash_t` -/
abbrev Hash128 := BitVec 128

abbrev Fd := Fin (2 ^ 31)

def Fd.toInt (fd : Fd) : BitVec 32 := BitVec.ofNat 32 fd.val

/-- `fd_type` -/
inductive FdType where
  | uninitialized
  | ignored
  | file
  | pipeIn
  | pipeOut
  | special
  | scmRights
  deriving DecidableEq, Repr

def FdType.toInt : FdType → BitVec 32
  | uninitialized => 0
  | ignored => 1
  | file => 2
  | pipeIn => 3
  | pipeOut => 4
  | special => 5
  | scmRights => 6

/-- `inherited_file_t`, as far as it is fingerprinted. -/
structure InheritedFds where
  type : FdType
  fds : List Fd
  deriving DecidableEq, Repr

structure FingerprintedProcess where
  initialWd : CString
  args : List CString
  envVars : List CString
  executable : CString
  executedPath : CString
  originalExecutedPath : CString
  libs : List CString
  /-- `mode_t` -/
  umask : BitVec 32
  inheritedFiles : List InheritedFds
  argsCount : args.length < 2 ^ 32
  envVarsCount : envVars.length < 2 ^ 32
  libsCount : libs.length < 2 ^ 32

structure FingerprintEnv where
  ignoreLocationsHash : Hash128
  /-- `env_vars.fingerprint_skip` -/
  envsSkip : List Bytes
  /-- `FB_QUIRK_GUESS_FILE_PARAMS` -/
  guessFileParams : Bool := false
  /-- `get_hash`: the hash and `is_dir`. -/
  getHash : CString → Option (Hash128 × Bool)
  /-- The process's `get_absolute(AT_FDCWD, ...)`. -/
  getAbsolute : FingerprintedProcess → CString → CString := fun _ name => name

/-! ## The fields -/

def stringBytes (s : CString) : Bytes := s.val ++ [0]

def intBytes (i : BitVec 32) : Bytes := leBytes 4 i.toNat

def sizeBytes (n : Nat) : Bytes := intBytes (BitVec.ofNat 32 n)

def hashBytes (h : Hash128) : Bytes := leBytes 16 h.toNat

def fileBytes (file : CString × Hash128) : Bytes := stringBytes file.1 ++ hashBytes file.2

def ascii (s : String) : Bytes := s.toList.map fun c => UInt8.ofNat c.toNat

/-- Strip off the "=value" part and look it up. -/
def envFingerprintable (env : FingerprintEnv) (nameAndValue : CString) : Bool :=
  !env.envsSkip.contains (nameAndValue.val.takeWhile (· != 61))

def foundParamFile (args : List CString) : Option CString :=
  args.foldl (fun found arg =>
    if arg.val = ascii "conftest.c" ∨ arg.val = ascii "objs/autotest.c" then some arg else found) none

/-- `hash_param_file`: a directory, or what is not a file, has the hash 0. -/
def hashParamFile (env : FingerprintEnv) (p : FingerprintedProcess) (file : CString) : Hash128 :=
  match env.getHash (env.getAbsolute p file) with
  | some (hash, isDir) => if isDir then 0 else hash
  | none => 0

def paramFileHash (env : FingerprintEnv) (p : FingerprintedProcess) : Option Hash128 :=
  if env.guessFileParams then (foundParamFile p.args).map (hashParamFile env p) else none

def paramFileBytes : Option Hash128 → Bytes
  | none => intBytes 0
  | some hash => intBytes 1 ++ hashBytes hash

/-- "Workaround for #938." -/
def pretendedType (type : FdType) : FdType := if type = .pipeIn then .ignored else type

/-- "Append an invalid value to each inherited file to avoid collisions." -/
def inheritedBytes (file : InheritedFds) : Bytes :=
  intBytes file.type.toInt ++ ((file.fds.map Fd.toInt).flatMap intBytes ++ intBytes (-1))

def pretended (file : InheritedFds) : InheritedFds := { file with type := pretendedType file.type }

def hashOf (env : FingerprintEnv) (name : CString) : Option Hash128 := (env.getHash name).map Prod.fst

/-- The libraries with their hashes, unless one of them is missing. -/
def libsWithHashes (env : FingerprintEnv) : List CString → Option (List (CString × Hash128))
  | [] => some []
  | lib :: libs =>
    match hashOf env lib, libsWithHashes env libs with
    | some hash, some rest => some ((lib, hash) :: rest)
    | _, _ => none

def fingerprintStream (env : FingerprintEnv) (p : FingerprintedProcess) : Option Bytes :=
  match hashOf env p.executable with
  | none => none
  | some hash =>
    -- "Those often match. Don't calculate the same hash twice then."
    match if p.executable = p.executedPath then some hash else hashOf env p.executedPath with
    | none => none
    | some executedHash =>
      match libsWithHashes env p.libs with
      | none => none
      | some libs =>
        some (hashBytes env.ignoreLocationsHash ++ (stringBytes p.initialWd ++
          (sizeBytes p.args.length ++ (p.args.flatMap stringBytes ++
          (paramFileBytes (paramFileHash env p) ++
          (sizeBytes p.envVars.length ++ ((p.envVars.filter (envFingerprintable env)).flatMap stringBytes ++
          (fileBytes (p.executable, hash) ++ (fileBytes (p.executedPath, executedHash) ++
          (stringBytes p.originalExecutedPath ++
          (sizeBytes p.libs.length ++ (libs.flatMap fileBytes ++
          (intBytes p.umask ++ p.inheritedFiles.flatMap fun file => inheritedBytes (pretended file))))))))))))))

def fingerprint (digest : Bytes → Hash) (env : FingerprintEnv) (p : FingerprintedProcess) : Option Hash :=
  (fingerprintStream env p).map digest

/-! ## What the stream is made of -/

structure Covered where
  ignoreLocationsHash : Hash128
  initialWd : CString
  args : List CString
  paramFileHash : Option Hash128
  /-- The variables that are not skipped. -/
  envVars : List CString
  executable : CString × Hash128
  executedPath : CString × Hash128
  originalExecutedPath : CString
  libs : List (CString × Hash128)
  umask : BitVec 32
  /-- With FD_PIPE_IN and FD_IGNORED identified. -/
  inheritedFiles : List InheritedFds
  deriving DecidableEq

def covered (env : FingerprintEnv) (p : FingerprintedProcess) : Option Covered :=
  match hashOf env p.executable, hashOf env p.executedPath, libsWithHashes env p.libs with
  | some hash, some executedHash, some libs =>
    some {
      ignoreLocationsHash := env.ignoreLocationsHash
      initialWd := p.initialWd
      args := p.args
      paramFileHash := paramFileHash env p
      envVars := p.envVars.filter (envFingerprintable env)
      executable := (p.executable, hash)
      executedPath := (p.executedPath, executedHash)
      originalExecutedPath := p.originalExecutedPath
      libs
      umask := p.umask
      inheritedFiles := p.inheritedFiles.map pretended }
  | _, _, _ => none

/-- The stream, with the number that is written in front of the environment. -/
def Covered.stream (v : Covered) (envCount : Nat) : Bytes :=
  hashBytes v.ignoreLocationsHash ++ (stringBytes v.initialWd ++ (sizeBytes v.args.length ++ (v.args.flatMap stringBytes ++
    (paramFileBytes v.paramFileHash ++ (sizeBytes envCount ++ (v.envVars.flatMap stringBytes ++
    (fileBytes v.executable ++ (fileBytes v.executedPath ++ (stringBytes v.originalExecutedPath ++
    (sizeBytes v.libs.length ++ (v.libs.flatMap fileBytes ++
    (intBytes v.umask ++ v.inheritedFiles.flatMap inheritedBytes))))))))))))

theorem libsWithHashes_length
    (h : libsWithHashes env libs = some l) : l.length = libs.length := by
  induction libs generalizing l with
  | nil =>
    cases h
    rfl
  | cons lib libs ih =>
    rw [libsWithHashes] at h
    split at h
    · rename_i hrest
      cases h
      rw [length_cons, length_cons, ih hrest]
    · cases h

theorem fingerprintStream_eq (env : FingerprintEnv) (p : FingerprintedProcess) :
    fingerprintStream env p = (covered env p).map fun v => v.stream p.envVars.length := by
  -- the hash that is not calculated twice is the same
  have htwice : ∀ hash, hashOf env p.executable = some hash →
      (if p.executable = p.executedPath then some hash else hashOf env p.executedPath) = hashOf env p.executedPath := by
    intro hash hh
    split
    · rename_i he
      rw [← he, hh]
    · rfl
  unfold fingerprintStream covered
  cases h1 : hashOf env p.executable with
  | none => rfl
  | some hash =>
    dsimp only
    rw [htwice hash h1]
    cases h2 : hashOf env p.executedPath with
    | none => rfl
    | some executedHash =>
      cases h3 : libsWithHashes env p.libs with
      | none => rfl
      | some libs =>
        simp only [Option.map_some, Covered.stream, flatMap_map, libsWithHashes_length h3]

/-! ## Reading the stream -/

theorem stringBytes_delimited : SelfDelimiting stringBytes := by
  intro a b s t h
  simp only [stringBytes, append_assoc] at h
  obtain ⟨hab, hst⟩ := append_stop a.2 b.2 h
  exact ⟨Subtype.ext hab, hst⟩

theorem intBytes_delimited : SelfDelimiting intBytes := leBytes_bitVec 4 (by decide)

theorem hashBytes_delimited : SelfDelimiting hashBytes := leBytes_bitVec 16 (by decide)

theorem fileBytes_delimited : SelfDelimiting fileBytes := stringBytes_delimited.pair hashBytes_delimited

theorem sizeBytes_append (hi : i < 2 ^ 32) (hj : j < 2 ^ 32)
    (h : sizeBytes i ++ s = sizeBytes j ++ t) : i = j ∧ s = t := by
  obtain ⟨hij, hst⟩ := intBytes_delimited _ _ _ _ h
  have := congrArg BitVec.toNat hij
  rw [BitVec.toNat_ofNat, BitVec.toNat_ofNat, Nat.mod_eq_of_lt hi, Nat.mod_eq_of_lt hj] at this
  exact ⟨this, hst⟩

theorem paramFileBytes_delimited : SelfDelimiting paramFileBytes := by
  intro a b s t h
  cases a with
  | none =>
    cases b with
    | none => exact ⟨rfl, (intBytes_delimited _ _ _ _ h).2⟩
    | some y =>
      exact absurd (intBytes_delimited _ _ _ _ h).1 (by decide)
  | some x =>
    cases b with
    | none =>
      exact absurd (intBytes_delimited _ _ _ _ h).1 (by decide)
    | some y =>
      obtain ⟨_, h⟩ := intBytes_delimited _ _ _ _ h
      obtain ⟨hxy, hst⟩ := hashBytes_delimited _ _ _ _ h
      exact ⟨by rw [hxy], hst⟩

theorem FdType.toInt_injective : Function.Injective FdType.toInt := by
  intro a b h
  cases a <;> cases b <;> first | rfl | exact absurd h (by decide)

theorem Fd.toInt_toNat (fd : Fd) : (Fd.toInt fd).toNat = fd.val := by
  rw [Fd.toInt, BitVec.toNat_ofNat]
  omega

theorem Fd.toInt_injective : Function.Injective Fd.toInt := by
  intro x y h
  have := congrArg BitVec.toNat h
  rw [Fd.toInt_toNat, Fd.toInt_toNat] at this
  exact Fin.ext this

theorem invalid_not_mem (fds : List Fd) : (-1 : BitVec 32) ∉ fds.map Fd.toInt := by
  intro h
  obtain ⟨fd, _, hfd⟩ := mem_map.mp h
  have := congrArg BitVec.toNat hfd
  rw [Fd.toInt_toNat, show (-1 : BitVec 32).toNat = 2 ^ 32 - 1 by decide] at this
  omega

theorem inheritedBytes_delimited : SelfDelimiting inheritedBytes := by
  intro a b s t h
  simp only [inheritedBytes, append_assoc] at h
  obtain ⟨htype, h⟩ := intBytes_delimited _ _ _ _ h
  obtain ⟨hfds, hst⟩ := intBytes_delimited.flatMap_stop (invalid_not_mem _) (invalid_not_mem _) h
  cases a with | mk type fds =>
  cases b with | mk type' fds' =>
  have hfds : fds = fds' := map_injective_iff.mpr Fd.toInt_injective hfds
  have htype : type = type' := FdType.toInt_injective htype
  exact ⟨by rw [hfds, htype], hst⟩

/-- NAME=value, and the first character is not "/". -/
def EnvEntry (e : CString) : Prop := (61 : UInt8) ∈ e.val ∧ e.val.head? ≠ some 47

instance : DecidablePred EnvEntry := fun e => inferInstanceAs (Decidable ((61 : UInt8) ∈ e.val ∧ e.val.head? ≠ some 47))

def Absolute (path : CString) : Prop := path.val.head? = some 47

theorem EnvEntry.first (h : EnvEntry e) : ∃ x xs, stringBytes e = x :: xs ∧ x ≠ 47 := by
  obtain ⟨e, he⟩ := e
  cases e with
  | nil => exact absurd h.1 not_mem_nil
  | cons x xs => exact ⟨x, xs ++ [0], rfl, fun hx => h.2 (congrArg some hx)⟩

theorem Absolute.first {hash : Hash128} (h : Absolute path) :
    ∃ x xs, fileBytes (path, hash) ++ s = x :: xs ∧ ¬x ≠ 47 := by
  obtain ⟨path, hp⟩ := path
  cases path with
  | nil => cases h
  | cons x xs => exact ⟨x, _, rfl, not_not.mpr (Option.some.inj h)⟩

/-- What the fields of a stream have to be like for it to be read. -/
structure Covered.Readable (v : Covered) : Prop where
  args : v.args.length < 2 ^ 32
  libs : v.libs.length < 2 ^ 32
  envVars : ∀ e ∈ v.envVars, EnvEntry e
  executable : Absolute v.executable.1

/-- A stream has one reading, and one number of variables. -/
theorem Covered.stream_inj {v v' : Covered} (hv : v.Readable) (hv' : v'.Readable) (hn : n < 2 ^ 32)
    (hn' : n' < 2 ^ 32) (h : v.stream n = v'.stream n') : v = v' ∧ n = n' := by
  obtain ⟨hignore, h⟩ := hashBytes_delimited _ _ _ _ h
  obtain ⟨hwd, h⟩ := stringBytes_delimited _ _ _ _ h
  obtain ⟨hargs, h⟩ := stringBytes_delimited.counted (fun _ _ _ _ => sizeBytes_append) hv.args hv'.args h
  obtain ⟨hparam, h⟩ := paramFileBytes_delimited _ _ _ _ h
  obtain ⟨hcount, h⟩ := sizeBytes_append hn hn' h
  -- the number says nothing here: the variables end where a string starts with "/"
  obtain ⟨henv, h⟩ := stringBytes_delimited.flatMap_until (· ≠ 47)
    (fun e he => (he.elim (hv.envVars e) (hv'.envVars e)).first) hv.executable.first hv'.executable.first h
  obtain ⟨hexe, h⟩ := fileBytes_delimited _ _ _ _ h
  obtain ⟨hexecuted, h⟩ := fileBytes_delimited _ _ _ _ h
  obtain ⟨horiginal, h⟩ := stringBytes_delimited _ _ _ _ h
  obtain ⟨hlibs, h⟩ := fileBytes_delimited.counted (fun _ _ _ _ => sizeBytes_append) hv.libs hv'.libs h
  obtain ⟨humask, h⟩ := intBytes_delimited _ _ _ _ h
  have hfiles : v.inheritedFiles = v'.inheritedFiles := by
    refine inheritedBytes_delimited.flatMap_end (fun file hnil => ?_) h
    have := congrArg List.length hnil
    simp [inheritedBytes, intBytes, leBytes_length] at this
  refine ⟨?_, hcount⟩
  cases v
  cases v'
  simp only [Covered.mk.injEq]
  exact ⟨hignore, hwd, hargs, hparam, henv, hexe, hexecuted, horiginal, hlibs, humask, hfiles⟩

/-! ## Two processes -/

section

variable {env : FingerprintEnv} {p : FingerprintedProcess} {v : Covered}

/-- What the fields of a process are in the covered ones. -/
theorem covered_fields (h : covered env p = some v) :
    v.args = p.args ∧ v.envVars = p.envVars.filter (envFingerprintable env) ∧ v.executable.1 = p.executable ∧
      v.libs.length = p.libs.length := by
  unfold covered at h
  split at h
  · rename_i hlibs
    cases h
    exact ⟨rfl, rfl, rfl, libsWithHashes_length hlibs⟩
  · cases h

theorem covered_readable (h : covered env p = some v) (henv : ∀ e ∈ p.envVars, EnvEntry e)
    (hexe : Absolute p.executable) : v.Readable := by
  obtain ⟨hargs, hvars, hpath, hlibs⟩ := covered_fields h
  refine ⟨hargs ▸ p.argsCount, hlibs ▸ p.libsCount, fun e he => ?_, hpath ▸ hexe⟩
  rw [hvars] at he
  exact henv e (mem_of_mem_filter he)

/-- Of two streams of the same fields, only the number of variables can differ. -/
theorem Covered.stream_count (v : Covered) (hn : n < 2 ^ 32) (hn' : n' < 2 ^ 32) :
    v.stream n = v.stream n' ↔ n = n' := by
  refine ⟨fun h => ?_, fun h => by rw [h]⟩
  have h := append_cancel_left (append_cancel_left (append_cancel_left (append_cancel_left (append_cancel_left h))))
  exact (sizeBytes_append hn hn' h).1

end

/-- Two processes with the same stream, also of different supervisors, agree on everything the
    fingerprint covers. -/
theorem fingerprint_encoding_is_injective (env env' : FingerprintEnv) (p q : FingerprintedProcess)
    (hp : ∀ e ∈ p.envVars, EnvEntry e) (hq : ∀ e ∈ q.envVars, EnvEntry e) (hpe : Absolute p.executable)
    (hqe : Absolute q.executable) (stream : Bytes) (h : fingerprintStream env p = some stream)
    (h' : fingerprintStream env' q = some stream) : ∃ v, covered env p = some v ∧ covered env' q = some v := by
  rw [fingerprintStream_eq] at h h'
  obtain ⟨v, hv, hstream⟩ := Option.map_eq_some_iff.mp h
  obtain ⟨v', hv', hstream'⟩ := Option.map_eq_some_iff.mp h'
  obtain ⟨rfl, _⟩ := Covered.stream_inj (covered_readable hv hp hpe) (covered_readable hv' hq hqe) p.envVarsCount
    q.envVarsCount (hstream.trans hstream'.symm)
  exact ⟨v, hv, hv'⟩

def shWith (envVars : List CString) (envVarsCount : envVars.length < 2 ^ 32) : FingerprintedProcess where
  initialWd := ⟨ascii "/", by decide⟩
  args := [⟨ascii "sh", by decide⟩]
  envVars
  executable := ⟨ascii "/sh", by decide⟩
  executedPath := ⟨ascii "/sh", by decide⟩
  originalExecutedPath := ⟨ascii "sh", by decide⟩
  libs := []
  umask := 0o022
  inheritedFiles := [⟨.pipeIn, [0]⟩, ⟨.pipeOut, [1, 2]⟩]
  argsCount := by decide
  envVarsCount
  libsCount := by decide

/-- A=1, and S=x or S=y or no S. -/
def withX : FingerprintedProcess := shWith [⟨ascii "A=1", by decide⟩, ⟨ascii "S=x", by decide⟩] (by decide)

def withY : FingerprintedProcess := shWith [⟨ascii "A=1", by decide⟩, ⟨ascii "S=y", by decide⟩] (by decide)

def withoutS : FingerprintedProcess := shWith [⟨ascii "A=1", by decide⟩] (by decide)

def skippingS : FingerprintEnv where
  ignoreLocationsHash := 5
  envsSkip := [ascii "S"]
  getHash _ := some (7, false)

theorem fingerprint_encoding_is_injective_for_sh :
    ∃ v, covered skippingS withX = some v ∧ covered skippingS withY = some v :=
  fingerprint_encoding_is_injective skippingS skippingS withX withY (by decide) (by decide) rfl rfl _ rfl (by decide)

/-- Two processes that agree on what the fingerprint covers, with a hash without collisions: the
    fingerprints are equal exactly if the numbers of variables are. -/
theorem skipped_variables_do_not_matter (digest : Bytes → Hash) (hd : Function.Injective digest) (env : FingerprintEnv)
    (p q : FingerprintedProcess) (v : Covered) (hp : covered env p = some v) (hq : covered env q = some v) :
    fingerprint digest env p = fingerprint digest env q ↔ p.envVars.length = q.envVars.length := by
  rw [← v.stream_count p.envVarsCount q.envVarsCount]
  unfold fingerprint
  rw [fingerprintStream_eq, fingerprintStream_eq, hp, hq]
  simp only [Option.map_some, Option.some.injEq]
  exact hd.eq_iff

theorem skipped_variables_do_not_matter_for_sh :
    fingerprint digits skippingS withX = fingerprint digits skippingS withY :=
  (skipped_variables_do_not_matter digits digits_injective skippingS withX withY _ rfl (by decide)).mpr rfl

/-- With and without S. -/
theorem a_skipped_variable_changes_the_fingerprint :
    ∃ v, covered skippingS withX = some v ∧ covered skippingS withoutS = some v ∧
      fingerprint digits skippingS withX ≠ fingerprint digits skippingS withoutS := by
  refine ⟨_, rfl, by decide, fun h => ?_⟩
  have hstream : fingerprintStream skippingS withX = fingerprintStream skippingS withoutS :=
    Option.map_injective digits_injective h
  revert hstream
  decide

end Firebuild
