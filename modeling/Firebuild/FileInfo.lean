/-
  Firebuild.FileInfo — what is known about a path, and which states of the path satisfy
  it (`file_info.h`: `FileType`, `FileInfo`; `hash_cache.cc`: `update_statinfo`,
  `file_info_matches`; `file_name.cc`: `GetParentDir`).

  A path is the list of its components; `[]` is "/". Sizes and hashes are optional
  instead of -1 and a separate flag. The twelve mode bits come with a mask that says
  which of them are known.

  `FsEntry` is what the file system has at a path. The hash cache sees a regular file or
  a directory; anything else counts as missing (`statinfo`).
-/

import Mathlib.Algebra.Ring.Nat

namespace Firebuild

abbrev FileName := List String

/-- "/" has no parent directory. -/
def FileName.parentDir (name : FileName) : Option FileName := if name = [] then none else some name.dropLast

abbrev Hash := Nat

abbrev Mode := BitVec 12

def allModeBits : Mode := BitVec.allOnes 12

inductive FileType where
  | dontKnow
  | exist
  | notExist
  | notExistOrIsReg
  | isReg
  | isDir
  deriving DecidableEq, Repr

structure FileInfo where
  type : FileType := .dontKnow
  size : Option Nat := none
  hash : Option Hash := none
  mode : Mode := 0
  modeMask : Mode := 0
  deriving DecidableEq, Repr

namespace FileInfo

def setModeBits (i : FileInfo) (mode mask : Mode) : FileInfo :=
  { i with mode := (i.mode &&& ~~~mask) ||| (mode &&& mask), modeMask := i.modeMask ||| mask }

end FileInfo

inductive FsEntry where
  | missing
  | reg (size : Nat) (hash : Hash) (mode : Mode)
  | dir (hash : Hash) (mode : Mode)
  /-- A fifo, a socket, a device. -/
  | special (mode : Mode)
  deriving DecidableEq, Repr

namespace FsEntry

/-- `update_statinfo` on a new entry. -/
def statinfo : FsEntry → FileInfo
  | missing | special _ => { type := .notExist }
  | reg size _ mode => ({ type := .isReg, size := some size } : FileInfo).setModeBits mode allModeBits
  | dir _ mode => ({ type := .isDir } : FileInfo).setModeBits mode allModeBits

/-- The hash computed for an entry that is a regular file or a directory. -/
def contentHash : FsEntry → Option Hash
  | missing | special _ => none
  | reg _ hash _ | dir hash _ => some hash

end FsEntry

/-- The type and size part of `file_info_matches`: no match, a match already, or the rest
    has to be looked at. -/
def typeMatches (query entry : FileInfo) : Option Bool :=
  match query.type with
  | .dontKnow => some true
  | .exist => if entry.type = .notExist then some false else none
  | .notExist => some (entry.type = .notExist)
  | .notExistOrIsReg =>
    if entry.type = .notExist then some true
    else if entry.type = .isReg then
      if query.size.isSome && query.size != entry.size then some false else none
    else some false
  | .isReg =>
    if entry.type ≠ .isReg then some false
    else if query.size.isSome && query.size != entry.size then some false
    else none
  | .isDir => if entry.type ≠ .isDir then some false else none

/-- `file_info_matches`: does the state of the path satisfy the query? -/
def fileInfoMatches (query : FileInfo) (e : FsEntry) : Bool :=
  match typeMatches query e.statinfo with
  | some b => b
  | none =>
    if query.mode &&& query.modeMask ≠ e.statinfo.mode &&& query.modeMask then false
    else if query.hash = none then true
    else e.contentHash = query.hash

/-! ## The same, one attribute at a time -/

/-- The kinds of entry a type allows: missing, a regular file, a directory. -/
def FileType.allowsMissing : FileType → Bool
  | .dontKnow | .notExist | .notExistOrIsReg => true
  | .exist | .isReg | .isDir => false

def FileType.allowsReg : FileType → Bool
  | .dontKnow | .exist | .notExistOrIsReg | .isReg => true
  | .notExist | .isDir => false

def FileType.allowsDir : FileType → Bool
  | .dontKnow | .exist | .isDir => true
  | .notExist | .notExistOrIsReg | .isReg => false

def FileType.hasSize : FileType → Bool
  | .notExistOrIsReg | .isReg => true
  | .dontKnow | .exist | .notExist | .isDir => false

/-- An optional value that constrains only when it is known. -/
def Pins {α : Type} (known : Option α) (v : α) : Prop := known = none ∨ known = some v

def ModePins (i : FileInfo) (m : Mode) : Prop := i.mode &&& i.modeMask = m &&& i.modeMask

namespace FileInfo

/-- The constraints on mode and content of an existing entry, unless nothing is known. -/
def Rest (i : FileInfo) (hash : Hash) (mode : Mode) : Prop :=
  i.type = .dontKnow ∨ (ModePins i mode ∧ Pins i.hash hash)

theorem matches_missing (i : FileInfo) : fileInfoMatches i .missing = i.type.allowsMissing := by
  cases h : i.type <;> simp [fileInfoMatches, typeMatches, FsEntry.statinfo, h, FileType.allowsMissing]

theorem matches_special (i : FileInfo) (m : Mode) :
    fileInfoMatches i (.special m) = i.type.allowsMissing := matches_missing i

theorem setModeBits_all (i : FileInfo) (m : Mode) : (i.setModeBits m allModeBits).mode = m := by
  show (i.mode &&& ~~~(BitVec.allOnes 12)) ||| (m &&& BitVec.allOnes 12) = m
  rw [BitVec.not_allOnes, BitVec.and_zero, BitVec.and_allOnes, BitVec.zero_or]

theorem setModeBits_zero (i : FileInfo) (mode : Mode) : i.setModeBits mode 0 = i := by
  show { i with mode := (i.mode &&& BitVec.allOnes 12) ||| (mode &&& 0#12), modeMask := i.modeMask ||| 0#12 } = i
  rw [BitVec.and_allOnes, BitVec.and_zero, BitVec.or_zero, BitVec.or_zero]

theorem statinfo_reg_mode (size : Nat) (hash : Hash) (m : Mode) : (FsEntry.reg size hash m).statinfo.mode = m :=
  setModeBits_all _ _

theorem statinfo_dir_mode (hash : Hash) (m : Mode) : (FsEntry.dir hash m).statinfo.mode = m :=
  setModeBits_all _ _

/-- Mode and content, once the type has been found to allow the entry. -/
theorem rest_iff (i : FileInfo) (m : Mode) {e : FsEntry} {hash : Hash} (he : e.contentHash = some hash) :
    (if i.mode &&& i.modeMask ≠ m &&& i.modeMask then false
      else if i.hash = none then true else decide (e.contentHash = i.hash)) = true ↔
      ModePins i m ∧ Pins i.hash hash := by
  unfold ModePins Pins
  by_cases hm : i.mode &&& i.modeMask = m &&& i.modeMask
  · cases hh : i.hash with
    | none => simp [hm]
    | some h => simp [hm, he, eq_comm]
  · simp [hm]

theorem matches_reg (i : FileInfo) (size : Nat) (hash : Hash) (m : Mode) : fileInfoMatches i (.reg size hash m) = true ↔
      i.type.allowsReg = true ∧ (i.type.hasSize = true → Pins i.size size) ∧ i.Rest hash m := by
  have hrest := rest_iff i m (rfl : (FsEntry.reg size hash m).contentHash = some hash)
  have hsize : (FsEntry.reg size hash m).statinfo.size = some size := rfl
  have htype : (FsEntry.reg size hash m).statinfo.type = .isReg := rfl
  have hpins : ¬(i.size.isSome && i.size != some size) = true ↔ Pins i.size size := by
    unfold Pins
    cases i.size <;> simp
  unfold fileInfoMatches Rest
  rw [statinfo_reg_mode]
  cases h : i.type with
  | dontKnow => simp [typeMatches, h, FileType.allowsReg, FileType.hasSize]
  | exist => simpa [typeMatches, h, htype, FileType.allowsReg, FileType.hasSize] using hrest
  | notExist | isDir => simp [typeMatches, h, htype, FileType.allowsReg]
  | notExistOrIsReg | isReg =>
    by_cases hp : Pins i.size size
    · simpa [typeMatches, h, htype, hsize, hpins.mpr hp, FileType.allowsReg, hp] using hrest
    · have hn := Decidable.not_not.mp (mt hpins.mp hp)
      simp [typeMatches, h, htype, hsize, hn, FileType.hasSize, hp]

theorem matches_dir (i : FileInfo) (hash : Hash) (m : Mode) :
    fileInfoMatches i (.dir hash m) = true ↔ i.type.allowsDir = true ∧ i.Rest hash m := by
  have hrest := rest_iff i m (rfl : (FsEntry.dir hash m).contentHash = some hash)
  have htype : (FsEntry.dir hash m).statinfo.type = .isDir := rfl
  unfold fileInfoMatches Rest
  rw [statinfo_dir_mode]
  cases h : i.type with
  | dontKnow => simp [typeMatches, h, FileType.allowsDir]
  | exist | isDir => simpa [typeMatches, h, htype, FileType.allowsDir] using hrest
  | notExist | notExistOrIsReg | isReg => simp [typeMatches, h, htype, FileType.allowsDir]

end FileInfo
end Firebuild
