/-
  Firebuild.ObjFiles — the bytes in the files of the object cache (`obj_cache.cc`:
  `ObjCache::store`, `ObjCache::retrieve`; `utils.cc`: `decompress_zstd`).

  An entry follows a header of 8 bytes, and both may be compressed together. They are
  written to a temporary file, which is renamed. Each call may fail; what fb_write() returns
  is not looked at. Sizes are those of `Accounting`. Where open(), fstat() or mmap() fails,
  retrieve() fails. The debugging files are left out.
-/

import Mathlib.Data.List.TakeDrop
import Firebuild.CacheDirs

namespace Firebuild.ObjFiles

open List Lib.WriteOnce

def kZstdMagicHeader : Bytes := [0x28, 0xb5, 0x2f, 0xfd]

structure Zstd extends Codec where
  framed : ∀ level b, kZstdMagicHeader <+: compress level b
  longer : ∀ level b, kMagicHeader.length < b.length → kMagicHeader.length < (compress level b).length

/-- A serialized entry, with its length in a size_t. -/
def Serial := { b : Bytes // 0 < b.length ∧ b.length < 2 ^ 64 }

def Serial.file (c : Codec) (cfg : CacheConfig) (entry : Serial) : Bytes :=
  let data := kMagicHeader ++ entry.1
  if cfg.compressCache then c.compress cfg.compressionLevel data else data

/-! ## Reading -/

/-- `retrieve`: the bytes that were mapped or decompressed, and `entry_len`. -/
def retrieve (c : Codec) (file : Bytes) : Option (Bytes × Nat) :=
  if file.length ≤ kMagicHeader.length then none
  -- "Verify magic header", of which four bytes are compared
  else if kMagicHeader.take 4 <+: file then some (file, file.length - kMagicHeader.length)
  else if kZstdMagicHeader <+: file then
    (c.decompress file).map fun data => (data, (data.length + (2 ^ 64 - kMagicHeader.length)) % 2 ^ 64)
  else none

theorem retrieve_compressed (c : Codec) (h : kMagicHeader.length < file.length) (hz : kZstdMagicHeader <+: file) :
    retrieve c file =
      (c.decompress file).map fun data => (data, (data.length + (2 ^ 64 - kMagicHeader.length)) % 2 ^ 64) := by
  have hm : ¬ kMagicHeader.take 4 <+: file := by
    obtain ⟨t, rfl⟩ := hz
    simp [kMagicHeader, kZstdMagicHeader]
  rw [retrieve, if_neg (by omega), if_neg hm, if_pos hz]

theorem retrieve_file (z : Zstd) (cfg : CacheConfig) (entry : Serial) :
    retrieve z.toCodec (entry.file z.toCodec cfg) = some (kMagicHeader ++ entry.1, entry.1.length) := by
  have hlen : (kMagicHeader ++ entry.1).length = 8 + entry.1.length := length_append
  have h8 : kMagicHeader.length = 8 := rfl
  have hpos := entry.2.1
  have hlt := entry.2.2
  cases hc : cfg.compressCache with
  | false =>
    simp only [Serial.file, hc, Bool.false_eq_true, if_false]
    have hmagic : kMagicHeader.take 4 <+: kMagicHeader ++ entry.1 := by simp [kMagicHeader]
    rw [retrieve, if_neg (by omega), if_pos hmagic, hlen, h8, Nat.add_sub_cancel_left]
  | true =>
    simp only [Serial.file, hc, if_true]
    rw [retrieve_compressed _ (z.longer _ _ (by omega)) (z.framed _ _), z.decompress_compress, Option.map_some, hlen, h8]
    have : (8 + entry.1.length + (2 ^ 64 - 8)) % 2 ^ 64 = entry.1.length := by omega
    rw [this]

/-- A file fails to be retrieved, or the length is that of the payload. -/
def RetrievesPayload (c : Codec) (file : Bytes) : Prop :=
  ∀ data len, retrieve c file = some (data, len) → len = (data.drop kMagicHeader.length).length ∧ len ≤ data.length

theorem retrieved_length_is_of_the_payload (z : Zstd) :
    (∀ file, RetrievesPayload z.toCodec file ↔
      (kMagicHeader.length < file.length → kZstdMagicHeader <+: file → ∀ data, z.decompress file = some data →
        kMagicHeader.length ≤ data.length ∧ data.length < 2 ^ 64 + kMagicHeader.length)) ∧
    ∀ cfg (entry : Serial),
      retrieve z.toCodec (entry.file z.toCodec cfg) = some (kMagicHeader ++ entry.1, entry.1.length) := by
  refine ⟨fun file => ⟨fun h hlen hz data hd => ?_, fun h data len hr => ?_⟩, retrieve_file z⟩
  · have := (h data _ (by rw [retrieve_compressed _ hlen hz, hd]; rfl)).1
    simp only [kMagicHeader, length_drop, length_cons, length_nil] at this ⊢
    omega
  · rcases Nat.lt_or_ge kMagicHeader.length file.length with hlen | hlen
    · by_cases hm : kMagicHeader.take 4 <+: file
      · rw [retrieve, if_neg (by omega), if_pos hm] at hr
        cases hr
        exact ⟨length_drop.symm, Nat.sub_le _ _⟩
      · by_cases hz : kZstdMagicHeader <+: file
        · rw [retrieve_compressed _ hlen hz] at hr
          obtain ⟨_, hd, hr⟩ := Option.map_eq_some_iff.mp hr
          cases hr
          have := h hlen hz data hd
          simp only [kMagicHeader, length_drop, length_cons, length_nil] at this ⊢
          omega
        · rw [retrieve, if_neg (by omega), if_neg hm, if_neg hz] at hr
          cases hr
    · rw [retrieve, if_pos hlen] at hr
      cases hr

def emptyFrame : Bytes := [0x28, 0xb5, 0x2f, 0xfd, 0x20, 0, 1, 0, 0]

/-- Compressing puts it in front. -/
def frameCodec : Zstd where
  toCodec :=
    { magicCodec with
      compress := fun _ b => emptyFrame ++ b
      decompress := fun b => if emptyFrame <+: b then some (b.drop 9) else none
      decompress_compress := fun _ _ => if_pos (prefix_append _ _) }
  framed _ b := (show kZstdMagicHeader <+: emptyFrame by decide).trans (prefix_append _ b)
  longer _ b _ := by simp only [length_append, emptyFrame, kMagicHeader, length_cons]; omega

theorem length_of_no_bytes_is_huge : retrieve frameCodec.toCodec emptyFrame = some ([], 2 ^ 64 - 8) ∧
    ¬ RetrievesPayload frameCodec.toCodec emptyFrame :=
  ⟨by decide, fun h => absurd (h [] (2 ^ 64 - 8) (by decide)).2 (by decide)⟩

/-! ## Writing -/

inductive ObjPath where
  | tmpfile (name : String)
  | entry (key : Hash) (subkey : Subkey)
  deriving DecidableEq

abbrev Files := ObjPath → Option Bytes

structure Calls (s : Files) where
  /-- The name is a new one. -/
  mkstemp : Option { name : String // s (.tmpfile name) = none }
  compressFails : Bool
  /-- The bytes that fb_write() has written. -/
  written : Nat
  subkey : Subkey
  /-- Other than with EEXIST. -/
  renameFails : Bool

/-- `store`, where assert() does nothing. -/
def store (c : Codec) (cfg : CacheConfig) (key : Hash) (entry : Serial) (storedBlobBytes : Nat) (s : Files)
    (o : Calls s) : Bool × Files :=
  match o.mkstemp with
  | none => (false, s)
  | some tmp =>
    let leftBehind := place s (.tmpfile tmp.1) []
    if storedBlobBytes + entry.1.length > cfg.maxEntrySize then (false, leftBehind)
    else if cfg.compressCache = true ∧ o.compressFails = true then (false, leftBehind)
    else if o.renameFails then (false, s)
    -- EEXIST: "cache object is already stored"
    else (true, place s (.entry key o.subkey) ((entry.file c cfg).take o.written))

def AllOrNothing (key : Hash) (file : Bytes) (s : Files) (r : Bool × Files) : Prop :=
  (r.1 = false → r.2 = s) ∧ (r.1 = true → ∃ subkey, r.2 (.entry key subkey) = some file)

theorem place_holds_iff (s : Files) (key : Hash) (sub : Subkey) (v file : Bytes) :
    (∃ subkey, place s (.entry key sub) v (.entry key subkey) = some file) ↔
      (∃ subkey, s (.entry key subkey) = some file) ∨ s (.entry key sub) = none ∧ v = file := by
  constructor
  · rintro ⟨subkey, h⟩
    by_cases hk : subkey = sub
    · subst hk
      rw [place, Function.update_self] at h
      cases hs : s (.entry key subkey) with
      | none =>
        rw [hs] at h
        exact .inr ⟨rfl, Option.some.inj h⟩
      | some old =>
        rw [hs] at h
        exact .inl ⟨subkey, hs.trans h⟩
    · rw [place, Function.update_of_ne (by simpa using hk)] at h
      exact .inl ⟨subkey, h⟩
  · rintro (⟨subkey, h⟩ | ⟨hs, rfl⟩)
    · exact ⟨subkey, place_extends _ _ _ _ _ h⟩
    · exact ⟨sub, by rw [place, Function.update_self, hs]; rfl⟩

theorem place_new_ne {s : Files} (h : s k = none) (v : Bytes) : place s k v ≠ s := by
  intro he
  have := place_isSome s k v
  rw [he, h] at this
  cases this

/-- The temporary file stays where an entry is too large or is not compressed. An entry is
    not complete if its file was not, or if another one has its subkey. -/
theorem store_is_all_or_nothing (c : Codec) (cfg : CacheConfig) (key : Hash) (entry : Serial) (storedBlobBytes : Nat)
    (s : Files) (o : Calls s) :
    AllOrNothing key (entry.file c cfg) s (store c cfg key entry storedBlobBytes s o) ↔
      (o.mkstemp.isSome = true → storedBlobBytes + entry.1.length ≤ cfg.maxEntrySize ∧
        ¬ (cfg.compressCache = true ∧ o.compressFails = true) ∧
        (o.renameFails = false → (∃ subkey, s (.entry key subkey) = some (entry.file c cfg)) ∨
          s (.entry key o.subkey) = none ∧ (entry.file c cfg).length ≤ o.written)) := by
  unfold store AllOrNothing
  cases o.mkstemp with
  | none => simp
  | some tmp =>
    have hne := place_new_ne tmp.2 []
    rcases Nat.lt_or_ge cfg.maxEntrySize (storedBlobBytes + entry.1.length) with hlen | hlen
    · simp [hlen, hne]
    · by_cases hc : cfg.compressCache = true ∧ o.compressFails = true
      · simp [hc, hne]
      · cases hr : o.renameFails with
        | true => simp [Nat.not_lt.mpr hlen, hlen, hc]
        | false => simp [Nat.not_lt.mpr hlen, hlen, hc, place_holds_iff]

theorem large_entry_leaves_a_file : ∃ o : Calls fun _ => none,
    ¬ AllOrNothing 0 (Serial.file magicCodec { maxEntrySize := 64 } ⟨[1], by decide⟩) (fun _ => none)
      (store magicCodec { maxEntrySize := 64 } 0 ⟨[1], by decide⟩ 64 (fun _ => none) o) :=
  ⟨⟨some ⟨"new.000000", rfl⟩, false, 9, 0, false⟩, fun h => place_new_ne rfl [] (h.1 rfl)⟩

end Firebuild.ObjFiles
