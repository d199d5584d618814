/-
  Firebuild.Hashing — the hash of an open file (`hash.cc`: `pread_checked_eof`,
  `set_from_fd_pread`, `set_from_fd`).

  A regular file that cannot be mapped is read with pread() in pieces of the buffer's size. The
  file does not change meanwhile: pread() returns any number of the bytes that are there, and
  none only where there are none or none are asked for (`Preads`). What XXH3 computes is not
  looked into. Its streaming form gives the hash of all it was given, so that is its state.

  Proved: `chunked_hash_agrees`, `directory_hash_is_of_the_names`.
-/

import Mathlib.Data.List.Sort
import Firebuild.BlobCache
import Firebuild.Lib.Encoding

namespace Firebuild.Hashing

open Lib.Encoding
open List

/-- What pread() returns, by the number of the call, the count and the offset. -/
structure Preads (data : Bytes) where
  read : Nat → Nat → Nat → Option Nat
  le : ∀ {i count offset n}, read i count offset = some n → n ≤ min count (data.length - offset)
  eof : ∀ {i count offset}, read i count offset = some 0 → min count (data.length - offset) = 0

def Preads.full (data : Bytes) : Preads data where
  read _ count offset := some (min count (data.length - offset))
  le h := (Option.some.inj h).ge
  eof h := Option.some.inj h

def EntryName := { name : Bytes // name ≠ [] ∧ 0 ∉ name }

inductive Mmap where
  | mapped
  | enodev
  | failed

inductive Opened where
  | reg (data : Bytes) (mmap : Mmap) (reads : Preads data)
  /-- The entries as readdir() returns them, unless fdopendir() fails. -/
  | dir (listing : Option (List EntryName))
  | special

def kHashingBufSize : Nat := 4096

variable (xxh3 : Bytes → Hash) {data : Bytes}

def preadCheckedEof (reads : Preads data) (i count offset : Nat) : Option Nat :=
  match reads.read i count offset with
  | none => none
  | some readBytes =>
    if readBytes < count ∧ reads.read (i + 1) (count - readBytes) (offset + readBytes) ≠ some 0 then none
    else some readBytes

/-- The loop, with the number of the next call. A piece that ends early ends the file. -/
def preadLoop (reads : Preads data) (i pos size : Nat) (state : Bytes) : Option (Hash × Nat) :=
  if pos < size then
    match preadCheckedEof reads i (min kHashingBufSize (size - pos)) pos with
    | none => none
    | some readBytes =>
      preadLoop reads (i + 2) (pos + readBytes)
        (if readBytes < min kHashingBufSize (size - pos) then pos + readBytes else size)
        (state ++ (data.drop pos).take readBytes)
  else some (xxh3 state, size)
termination_by size - pos
decreasing_by
  have hbuf : 0 < kHashingBufSize := by decide
  split <;> omega

def setFromFdPread (reads : Preads data) (size : Nat) : Option (Hash × Nat) :=
  if size ≤ kHashingBufSize then
    (preadCheckedEof reads 0 size 0).map fun readBytes => (xxh3 (data.take readBytes), readBytes)
  else preadLoop xxh3 reads 0 0 size []

def EntryName.le (a b : EntryName) : Prop := a.1 ≤ b.1

instance : DecidableRel EntryName.le := fun a b => inferInstanceAs (Decidable (a.1 ≤ b.1))

/-- The listing is sorted, with NUL after each entry. -/
def concat (listing : List EntryName) : Bytes := (listing.insertionSort EntryName.le).flatMap (·.1 ++ [0])

/-- The hash, `is_dir_out` and `size_out`. -/
def setFromFd : Opened → Option (Hash × Bool × Option Nat)
  | .reg data mmap reads =>
    if data.length = 0 then some (xxh3 [], false, some 0)
    else match mmap with
      | .mapped => some (xxh3 data, false, some data.length)
      | .enodev => (setFromFdPread xxh3 reads data.length).map fun (hash, size) => (hash, false, some size)
      | .failed => none
  | .dir none | .special => none
  | .dir (some listing) => some (xxh3 (concat listing), true, none)

/-! ## Regular files -/

variable {xxh3} {reads : Preads data} {i count offset pos n : Nat}

/-- What passes the check is all that is there. -/
theorem preadCheckedEof_eq (h : preadCheckedEof reads i count offset = some n) : n = min count (data.length - offset) := by
  unfold preadCheckedEof at h
  split at h
  · cases h
  rename_i hread
  split at h <;> cases h
  rename_i hcheck
  have hle := reads.le hread
  by_cases hn : n < count
  · have heof := reads.eof (not_not.mp fun h => hcheck ⟨hn, h⟩)
    omega
  · omega

theorem preadCheckedEof_full : preadCheckedEof (.full data) i count offset = some (min count (data.length - offset)) := by
  refine if_neg (not_and_not_right.mpr fun _ => congrArg some ?_)
  omega

def Hashed (xxh3 : Bytes → Hash) (reads : Preads data) (r : Option (Hash × Nat)) : Prop :=
  r = some (xxh3 data, data.length) ∨ r = none ∧ ∃ i count offset, preadCheckedEof reads i count offset = none

theorem preadLoop_hashed (hpos : pos ≤ data.length) :
    Hashed xxh3 reads (preadLoop xxh3 reads i pos data.length (data.take pos)) := by
  induction hk : data.length - pos using Nat.strong_induction_on generalizing i pos with
  | _ k ih =>
  unfold preadLoop
  split
  · split
    · rename_i hnone
      exact .inr ⟨rfl, _, _, _, hnone⟩
    rename_i hsome
    have hn := preadCheckedEof_eq hsome
    have hbuf : 0 < kHashingBufSize := by decide
    rw [if_neg (by omega), ← take_add]
    exact ih _ (by omega) (by omega) rfl
  · rw [take_of_length_le (by omega)]
    exact .inl rfl

theorem setFromFdPread_hashed (xxh3 : Bytes → Hash) (reads : Preads data) :
    Hashed xxh3 reads (setFromFdPread xxh3 reads data.length) := by
  unfold setFromFdPread
  split
  · cases hread : preadCheckedEof reads 0 data.length 0 with
    | none => exact .inr ⟨rfl, _, _, _, hread⟩
    | some n =>
      have hn := preadCheckedEof_eq hread
      rw [Nat.sub_zero, Nat.min_self] at hn
      rw [hn, Option.map_some, take_length]
      exact .inl rfl
  · exact preadLoop_hashed (Nat.zero_le _)

/-- On a file that does not change, mapping gives the hash and the size of its content. Reading
    in pieces fails or gives them, too, and it gives them if every read is full. -/
theorem chunked_hash_agrees (xxh3 : Bytes → Hash) (data : Bytes) (reads : Preads data) :
    let hashed := some (xxh3 data, false, some data.length)
    setFromFd xxh3 (.reg data .mapped reads) = hashed ∧
    (setFromFd xxh3 (.reg data .enodev reads) = none ∨ setFromFd xxh3 (.reg data .enodev reads) = hashed) ∧
    setFromFd xxh3 (.reg data .enodev (.full data)) = hashed := by
  simp only [setFromFd]
  split
  · rename_i hempty
    obtain rfl := length_eq_zero_iff.mp hempty
    exact ⟨rfl, .inr rfl, rfl⟩
  refine ⟨rfl, ?_, ?_⟩
  · rcases setFromFdPread_hashed xxh3 reads with h | ⟨h, -⟩ <;> simp [h]
  · rcases setFromFdPread_hashed xxh3 (.full data) with h | ⟨-, i, count, offset, h⟩
    · simp [h]
    · rw [preadCheckedEof_full] at h
      cases h

/-! ## Directories -/

instance : Std.Total EntryName.le := ⟨fun a b => List.le_total a.1 b.1⟩

instance : IsTrans EntryName EntryName.le := ⟨fun _ _ _ => List.le_trans⟩

theorem nameBytes_delimited : SelfDelimiting fun name : EntryName => name.1 ++ [0] := by
  intro a b s t h
  simp only [append_assoc] at h
  obtain ⟨hab, hst⟩ := append_stop a.2.2 b.2.2 h
  exact ⟨Subtype.ext hab, hst⟩

/-- The hash of a directory is that of its names in one stream. It does not depend on the order of
    the entries, and directories for which the same stream is hashed have the same names. -/
theorem directory_hash_is_of_the_names (xxh3 : Bytes → Hash) (xs ys : List EntryName) :
    setFromFd xxh3 (.dir (some xs)) = some (xxh3 (concat xs), true, none) ∧
      (xs.Perm ys → setFromFd xxh3 (.dir (some xs)) = setFromFd xxh3 (.dir (some ys))) ∧
      (concat xs = concat ys → ∀ name, name ∈ xs ↔ name ∈ ys) := by
  refine ⟨rfl, fun h => ?_, fun h name => ?_⟩
  · have hsorted : xs.insertionSort EntryName.le = ys.insertionSort EntryName.le :=
      Perm.eq_of_pairwise (fun a b _ _ hab hba => Subtype.ext (List.le_antisymm hab hba)) (pairwise_insertionSort _ _)
        (pairwise_insertionSort _ _) (((perm_insertionSort _ _).trans h).trans (perm_insertionSort _ _).symm)
    simp only [setFromFd, concat, hsorted]
  · have hsorted := nameBytes_delimited.flatMap_end (fun a => by simp) h
    rw [← mem_insertionSort EntryName.le, hsorted, mem_insertionSort]

end Firebuild.Hashing
