/-
  Firebuild.Entry — a cache entry as it is serialized (`fbbstore.def`), and the conversions
  to and from it (`execed_process_cacher.cc`: `add_file`, `file_to_file_info`,
  `file_to_file_usage_update`, `find_input_file`).

  A content is inlined, or referred to by its hash. `compressed_hash` is the same hash: it
  tells the reader that the blob is compressed. An empty `inlineData` is data that is not
  inlined.
-/

import Firebuild.FileUsage
import Firebuild.BlobCache

namespace Firebuild

def FileName.str (name : FileName) : String :=
  if name = [] then "/" else name.foldl (fun s component => s ++ "/" ++ component) ""

structure SerializedFile where
  path : FileName
  type : FileType
  size : Option Nat := none
  hash : Option Hash := none
  compressedHash : Option Hash := none
  mode : Option Mode := none
  modeMask : Option Mode := none
  inlineData : Bytes := []
  timestampSource : Option FileName := none
  deriving DecidableEq, Repr

structure AppendToFd where
  fd : Nat
  hash : Option Hash := none
  compressedHash : Option Hash := none
  inlineData : Bytes := []
  deriving DecidableEq, Repr

structure ProcessInputs where
  path : List SerializedFile := []
  pathNotexist : List FileName := []
  deriving DecidableEq, Repr

structure ProcessOutputs where
  pathIsreg : List SerializedFile := []
  pathIsdir : List SerializedFile := []
  pathNotexist : List FileName := []
  appendToFd : List AppendToFd := []
  exitStatus : Int := 0
  deriving DecidableEq, Repr

structure ProcessInputsOutputs where
  inputs : ProcessInputs := {}
  outputs : ProcessOutputs := {}
  deriving DecidableEq, Repr

/-- The key a blob is opened by, and whether it is said to be compressed. -/
structure BlobRef where
  key : Hash
  compressed : Bool
  deriving DecidableEq, Repr

/-- `has_compressed_hash() ? get_compressed_hash() : get_hash()` -/
def BlobRef.ofHashes (hash compressedHash : Option Hash) : BlobRef :=
  match compressedHash with
  | some key => ⟨key, true⟩
  | none => ⟨hash.getD 0, false⟩

def SerializedFile.blobRef (f : SerializedFile) : Option BlobRef :=
  if f.type = .isReg ∧ f.inlineData = [] then some (.ofHashes f.hash f.compressedHash) else none

def AppendToFd.blobRef (r : AppendToFd) : Option BlobRef :=
  if r.inlineData = [] then some (.ofHashes r.hash r.compressedHash) else none

/-- Every blob that `apply_shortcut()` opens, in this order. -/
def ProcessOutputs.blobRefs (o : ProcessOutputs) : List BlobRef :=
  o.pathIsreg.filterMap (·.blobRef) ++ o.appendToFd.filterMap (·.blobRef)

def addFile (cfg : CacheConfig) (name : FileName) (fi : FileInfo) (outputFile : Bool) (fu : Option FileUsage)
    (inlineData : Bytes) : SerializedFile where
  path := name
  type := fi.type
  size := fi.size
  hash := if inlineData = [] ∧ ¬(outputFile = true ∧ cfg.compressCache = true) then fi.hash else none
  compressedHash := if inlineData = [] ∧ outputFile = true ∧ cfg.compressCache = true then fi.hash else none
  mode := if fi.modeMask ≠ 0 then some fi.mode else none
  modeMask := if fi.modeMask ≠ 0 then some fi.modeMask else none
  inlineData
  timestampSource :=
    if outputFile = true ∧ fi.type ≠ .notExist then fu.bind (·.timestampSource) else none

def fileToFileInfo (f : SerializedFile) : FileInfo :=
  ({ type := f.type, size := f.size, hash := f.hash } : FileInfo).setModeBits (f.mode.getD 0) (f.modeMask.getD 0)

/-- The file's new state says nothing about its initial state. -/
def fileToFileUsageUpdate (w : World) (f : SerializedFile) : FileUsageUpdate :=
  .new w f.path .dontKnow ((f.type = .isReg ∧ f.size.isSome = true) ∨ f.type = .isDir) f.mode.isSome

def findInputFile (i : ProcessInputs) (path : FileName) : Option SerializedFile := i.path.find? (·.path = path)

end Firebuild
