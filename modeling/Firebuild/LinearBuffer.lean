/-
  Firebuild.LinearBuffer — the buffer of a pipe (`linear_buffer.h`).

  The data is a stretch of the allocated memory: it grows at its end and is discarded from
  its start. It is moved to the front of the memory if it got too far, and the memory is
  reallocated if what is to be added does not fit. Fresh memory holds anything, zeros here.

  What the kernel answers to the read() calls is given (`ReadResult`); it never returns more
  than was asked for.

  Proved, with respect to the data (`bytes`): `bytes_ensureSpace`, `bytes_add`, `readAll_spec`,
  `readAtMost_spec`, `bytes_discard`.
-/

import Firebuild.BlobCache

namespace Firebuild

inductive ReadError where
  /-- EAGAIN or EWOULDBLOCK -/
  | eagain
  | other
  deriving DecidableEq, Repr

inductive ReadResult where
  /-- No data is EOF. -/
  | data (d : Bytes)
  | error (e : ReadError)
  deriving DecidableEq, Repr

structure LinearBuffer where
  buffer : Nat → UInt8
  size : Nat
  dataStartOffset : Nat := 0
  length : Nat := 0
  fits : dataStartOffset + length ≤ size

namespace LinearBuffer

def new : LinearBuffer where
  buffer _ := 0
  size := 8 * 1024
  fits := by decide

/-- What `data()` and `length()` give access to. -/
def bytes (b : LinearBuffer) : Bytes := (List.range b.length).map fun i => b.buffer (b.dataStartOffset + i)

/-- memmove() to the beginning -/
def moveToStart (b : LinearBuffer) : LinearBuffer where
  buffer i := if i < b.length then b.buffer (b.dataStartOffset + i) else b.buffer i
  size := b.size
  length := b.length
  fits := by have := b.fits; omega

/-- "In the unlucky case of not processing all the data for many read cycles" -/
def compact (b : LinearBuffer) : LinearBuffer := if b.dataStartOffset > 256 * 1024 then b.moveToStart else b

/-- realloc() if there is less memory than needed -/
def reserve (b : LinearBuffer) (neededSize : Nat) : LinearBuffer where
  buffer := b.buffer
  size := if b.size < neededSize then (if neededSize > b.size * 2 then neededSize else b.size * 2) else b.size
  dataStartOffset := b.dataStartOffset
  length := b.length
  fits := by
    have := b.fits
    split
    · split
      · omega
      · omega
    · exact this

def ensureSpace (b : LinearBuffer) (howmuch : Nat) : LinearBuffer :=
  b.compact.reserve (b.compact.dataStartOffset + b.compact.length + howmuch)

def room (b : LinearBuffer) : Nat := b.size - b.dataStartOffset - b.length

/-- memcpy() or read() to the end of the data -/
def put (b : LinearBuffer) (d : Bytes) (h : d.length ≤ b.room) : LinearBuffer where
  buffer i := if b.dataStartOffset + b.length ≤ i then d.getD (i - (b.dataStartOffset + b.length)) (b.buffer i) else b.buffer i
  size := b.size
  dataStartOffset := b.dataStartOffset
  length := b.length + d.length
  fits := by have := b.fits; unfold room at h; omega

theorem room_ensureSpace (b : LinearBuffer) (howmuch : Nat) : howmuch ≤ (b.ensureSpace howmuch).room := by
  simp only [ensureSpace, reserve, room]
  split
  · split
    · omega
    · omega
  · omega

def add (b : LinearBuffer) (d : Bytes) : LinearBuffer := (b.ensureSpace d.length).put d (b.room_ensureSpace _)

def discard (b : LinearBuffer) (howmuch : Nat) : LinearBuffer where
  buffer := b.buffer
  size := b.size
  length := b.length - howmuch
  dataStartOffset := if b.length - howmuch = 0 then 0 else b.dataStartOffset + howmuch
  fits := by
    have := b.fits
    split
    · omega
    · omega

def readInto (b : LinearBuffer) (attempt : Nat) (h : attempt ≤ b.room) : ReadResult → Except ReadError Nat × LinearBuffer
  | .error e => (.error e, b)
  | .data d => (.ok (d.take attempt).length, b.put (d.take attempt) (Nat.le_trans (List.length_take_le _ _) h))

/-- `read` with a number of bytes: a single read() -/
def readAtMost (b : LinearBuffer) (howmuch : Nat) (r : ReadResult) : Except ReadError Nat × LinearBuffer :=
  (b.ensureSpace howmuch).readInto howmuch (b.room_ensureSpace _) r

/-- The answers to the calls of one `read` of all there is. -/
structure ReadAnswers where
  first : ReadResult
  /-- FIONREAD; an error is 0, too. -/
  readable : Nat := 0
  second : ReadResult := .error .eagain
  deriving DecidableEq, Repr

/-- A read() that is as large as the free memory, and another one if that was filled. -/
def readTwice (b : LinearBuffer) (a : ReadAnswers) : Except ReadError Nat × LinearBuffer :=
  match b.readInto b.room (Nat.le_refl _) a.first with
  | (.error e, b) => (.error e, b)
  | (.ok received1, b') =>
    if received1 < b.room ∨ a.readable = 0 then (.ok received1, b')
    else
      match b'.readAtMost a.readable a.second with
      | (.error _, b) => (.ok received1, b)
      | (.ok received2, b) => (.ok (received1 + received2), b)

def readAll (b : LinearBuffer) (a : ReadAnswers) : Except ReadError Nat × LinearBuffer :=
  (b.ensureSpace (8 * 1024)).readTwice a

/-! ## The data -/

@[simp] theorem length_bytes (b : LinearBuffer) : b.bytes.length = b.length := by simp [bytes]

theorem bytes_eq_nil {b : LinearBuffer} : b.bytes = [] ↔ b.length = 0 := by
  rw [← List.length_eq_zero_iff, length_bytes]

section

variable (b : LinearBuffer)
include b

theorem getElem_bytes (h : i < b.bytes.length) : b.bytes[i] = b.buffer (b.dataStartOffset + i) := by
  simp [bytes]

@[simp] theorem bytes_moveToStart : b.moveToStart.bytes = b.bytes := by
  unfold bytes moveToStart
  refine List.map_congr_left fun i hi => ?_
  simp [List.mem_range.mp hi]

@[simp] theorem bytes_ensureSpace (howmuch : Nat) : (b.ensureSpace howmuch).bytes = b.bytes := by
  show b.compact.bytes = b.bytes
  unfold compact
  split
  · exact b.bytes_moveToStart
  · rfl

@[simp] theorem bytes_put (d : Bytes) (h : d.length ≤ b.room) : (b.put d h).bytes = b.bytes ++ d := by
  refine List.ext_getElem (by simp [put]) fun i hi _ => ?_
  rw [getElem_bytes]
  rw [length_bytes] at hi
  by_cases hlt : i < b.length
  · -- the old data is in front of what is written
    rw [List.getElem_append_left (by rwa [length_bytes]), getElem_bytes]
    have hbefore : ¬b.dataStartOffset + b.length ≤ b.dataStartOffset + i := by omega
    simp only [put, if_neg hbefore]
  · have hlen : i < b.length + d.length := hi
    rw [List.getElem_append_right (by rw [length_bytes]; omega)]
    have hafter : b.dataStartOffset + b.length ≤ b.dataStartOffset + i := by omega
    have hindex : b.dataStartOffset + i - (b.dataStartOffset + b.length) = i - b.length := by omega
    have hin : i - b.length < d.length := by omega
    simp only [put, if_pos hafter, hindex, length_bytes]
    rw [List.getD_eq_getElem?_getD, List.getElem?_eq_getElem hin, Option.getD_some]

@[simp] theorem bytes_add (d : Bytes) : (b.add d).bytes = b.bytes ++ d := by simp [add]

@[simp] theorem bytes_discard (n : Nat) : (b.discard n).bytes = b.bytes.drop n := by
  refine List.ext_getElem (by simp [discard]) fun i hi _ => ?_
  rw [getElem_bytes, List.getElem_drop, getElem_bytes]
  rw [length_bytes] at hi
  have hlt : i < b.length - n := hi
  simp only [discard, if_neg (show ¬b.length - n = 0 by omega)]
  congr 1
  omega

end

/-- What is counted is what was appended. -/
def Reads (b : LinearBuffer) (r : Except ReadError Nat × LinearBuffer) : Prop :=
  (∃ d, r.1 = .ok d.length ∧ r.2.bytes = b.bytes ++ d) ∨ ((∃ e, r.1 = .error e) ∧ r.2.bytes = b.bytes)

theorem readInto_spec (b : LinearBuffer) (n : Nat) (h : n ≤ b.room) (r : ReadResult) : b.Reads (b.readInto n h r) := by
  cases r with
  | error e => exact .inr ⟨⟨e, rfl⟩, rfl⟩
  | data d => exact .inl ⟨d.take n, rfl, by simp [readInto]⟩

theorem readAtMost_spec (b : LinearBuffer) (n : Nat) (r : ReadResult) : b.Reads (b.readAtMost n r) := by
  have h := readInto_spec (b.ensureSpace n) n (b.room_ensureSpace n) r
  unfold Reads at h
  rwa [bytes_ensureSpace] at h

theorem readTwice_spec (b : LinearBuffer) (a : ReadAnswers) : b.Reads (b.readTwice a) := by
  unfold readTwice
  have hfirst := readInto_spec b b.room (Nat.le_refl _) a.first
  generalize b.readInto b.room (Nat.le_refl _) a.first = r at hfirst
  obtain ⟨res, b'⟩ := r
  rcases hfirst with ⟨d, hres, hbytes⟩ | ⟨⟨e, hres⟩, hbytes⟩
  · subst hres
    dsimp only
    split
    · exact .inl ⟨d, rfl, hbytes⟩
    have hsecond := readAtMost_spec b' a.readable a.second
    generalize b'.readAtMost a.readable a.second = r at hsecond
    obtain ⟨res, b''⟩ := r
    rcases hsecond with ⟨d', hres, hbytes'⟩ | ⟨⟨e, hres⟩, hbytes'⟩
    · subst hres
      exact .inl ⟨d ++ d', by simp, by rw [hbytes', hbytes, List.append_assoc]⟩
    · subst hres
      exact .inl ⟨d, rfl, hbytes'.trans hbytes⟩
  · subst hres
    exact .inr ⟨⟨e, rfl⟩, hbytes⟩

theorem readAll_spec (b : LinearBuffer) (a : ReadAnswers) : b.Reads (b.readAll a) := by
  have h := readTwice_spec (b.ensureSpace (8 * 1024)) a
  unfold Reads at h
  rwa [bytes_ensureSpace] at h

end LinearBuffer
end Firebuild
