/-
  Firebuild.CacheDirs — the files of the object cache and of the blob cache (`obj_cache.cc`:
  `construct_cached_dir_name`, `list_subkeys`; `blob_cache.cc`: `construct_cached_file_name`,
  `get_fd_for_file`; `base64.h`).

  A cache is the list of the directories under its base directory that have files, those
  inside of a directory before it: this is the order in which the collector finishes them.
  The base directory itself is `[]`. The entries of a key are the files of one directory,
  "k/ke/key", and are tried from the newest on; the blobs whose names start alike are
  together, in "k/ke".

  Besides entries and blobs there are files for debugging, next to what they describe, files
  that are left over (`unexpected`) and files that are not regular (`special`).
-/

import Mathlib.Data.List.Sort
import Firebuild.Entry

namespace Firebuild

abbrev DirPath := List (List Char)

def base64Map : List Char := "+0123456789ABCDEFGHIJKLMNOPQRSTUVWXYZ^abcdefghijklmnopqrstuvwxyz".toList

def base64Digit (n : Nat) : Char := base64Map.getD (n % 64) '+'

/-- Six bits for each of the first 21 characters, and two for the last. -/
def Hash.ascii (key : Hash) : List Char :=
  (List.range 21).map (fun i => base64Digit (key / 2 ^ (122 - 6 * i))) ++ [base64Digit (key % 4 * 16)]

def objDir (key : Hash) : DirPath := [key.ascii.take 1, key.ascii.take 2, key.ascii]

def blobDir (key : Hash) : DirPath := [key.ascii.take 1, key.ascii.take 2]

/-! ## Objects -/

/-- The time of creation, seconds and nanoseconds. Its characters are in the order of the
    number. -/
abbrev Subkey := Nat

def kMagicHeader : Bytes := [0x46, 0x42, 0x42, 0, 0, 0, 0, 0]

inductive ObjContent where
  /-- Too short, no magic header, or it does not decompress. -/
  | unretrievable
  /-- Not `process_inputs_outputs` with `process_inputs`. -/
  | otherTag
  | entry (pio : ProcessInputsOutputs)
  deriving DecidableEq, Repr

structure ObjFile where
  subkey : Subkey
  content : ObjContent
  size : Nat
  mtime : Nat := 0
  deriving DecidableEq, Repr

structure ObjDir where
  path : DirPath
  entries : List ObjFile := []
  /-- The sizes of "subkey_debug.json". -/
  debug : List (Subkey × Nat) := []
  /-- The size of "%_directory_debug.json". -/
  dirDebug : Option Nat := none
  unexpected : List (String × Nat) := []
  special : List String := []
  deriving DecidableEq, Repr

/-- With FB_DEBUG_CACHE the time of the last use counts. -/
def TriedBefore (debugCache : Bool) (a b : ObjFile) : Prop :=
  if debugCache then b.mtime ≤ a.mtime else b.subkey ≤ a.subkey

instance (debugCache : Bool) : DecidableRel (TriedBefore debugCache) := fun a b =>
  inferInstanceAs (Decidable (if debugCache then b.mtime ≤ a.mtime else b.subkey ≤ a.subkey))

instance (debugCache : Bool) : Std.Total (TriedBefore debugCache) where
  total a b := by
    cases debugCache with
    | false => exact le_total b.subkey a.subkey
    | true => exact le_total b.mtime a.mtime

instance (debugCache : Bool) : IsTrans ObjFile (TriedBefore debugCache) where
  trans a b c hab hbc := by
    cases debugCache with
    | false => exact Nat.le_trans (m := b.subkey) hbc hab
    | true => exact Nat.le_trans (m := b.mtime) hbc hab

/-- In the order to be tried for shortcutting. -/
def listSubkeysInternal (debugCache : Bool) (entries : List ObjFile) : List ObjFile :=
  entries.insertionSort (TriedBefore debugCache)

/-- `list_subkeys`: none where there is no directory. -/
def listSubkeys (debugCache : Bool) (objs : List ObjDir) (key : Hash) : List ObjFile :=
  match objs.find? (·.path = objDir key) with
  | none => []
  | some d => listSubkeysInternal debugCache d.entries

theorem mem_listSubkeysInternal :
    f ∈ listSubkeysInternal debugCache entries ↔ f ∈ entries :=
  (List.perm_insertionSort _ entries).mem_iff

/-! ## Blobs -/

structure BlobDir where
  path : DirPath
  blobs : List (Hash × Bytes) := []
  /-- The sizes of "key_debug.txt". -/
  debug : List (Hash × Nat) := []
  unexpected : List (String × Nat) := []
  special : List String := []
  deriving DecidableEq, Repr

/-- `get_fd_for_file`, with the data. -/
def blobAt (blobs : List BlobDir) (key : Hash) : Option Bytes :=
  (blobs.find? (·.path = blobDir key)).bind fun d => d.blobs.lookup key

end Firebuild
