/-
  Firebuild.PipeRecorder — what a process wrote to an inherited pipe
  (`pipe_recorder.cc`).

  A recorder keeps its data in memory up to the size that is inlined in a cache entry and
  in a backing file after that (`RecorderData`; `offset_` is the length of a buffer in
  memory, and a field of its own next to a file). If a reallocation fails, the code falls
  back to the file, but frees the buffer first: what was recorded so far is lost
  (`Loses`). `alloc` says which sizes can be allocated.

  Recorders are numbered, and the static `record_data_*()` functions take a list of
  numbers. A recorder that gets data in spite of an assertion is `none`.

  Proved, as long as no recorder loses its buffer: `recordDataFromBuffer_spec`,
  `recordDataFromRegularFd_eq`, `recordDataFromUnixPipe_eq`.
-/

import Firebuild.BlobCache

namespace Firebuild

inductive RecorderData where
  | memory (buffer : Bytes) (capacity : Nat)
  | file (content : Bytes) (offset : Nat)
  deriving DecidableEq, Repr

structure PipeRecorder where
  data : RecorderData := .memory [] 0
  /-- The data is dropped, and so is what comes. -/
  deactivated : Bool := false
  /-- The data is stored or thrown away, and nothing comes. -/
  abandoned : Bool := false
  deriving DecidableEq, Repr

namespace RecorderData

def bytes : RecorderData → Bytes
  | memory buffer _ => buffer
  | file content _ => content

def prepareForAppend (alloc : Nat → Bool) (maxInline len : Nat) : RecorderData → RecorderData
  | memory buffer capacity =>
    if buffer.length + len ≤ maxInline then
      if capacity < buffer.length + len then
        if alloc (buffer.length + len) then memory buffer (buffer.length + len)
        -- the buffer is freed before the file is opened
        else file [] buffer.length
      else memory buffer capacity
    else file buffer buffer.length
  | file content offset => file content offset

def append (d : Bytes) : RecorderData → RecorderData
  | memory buffer capacity => memory (buffer ++ d) capacity
  | file content offset => file (content ++ d) (offset + d.length)

/-- The `len` bytes that came last, as the next recorders copy them. -/
def last (len : Nat) : RecorderData → Option Bytes
  | memory buffer _ => some ((buffer.drop (buffer.length - len)).take len)
  | file content offset =>
    if ((content.drop (offset - len)).take len).length = len then some ((content.drop (offset - len)).take len)
    else none

/-- Appending `len` bytes needs a larger buffer than there is memory for. -/
def Loses (alloc : Nat → Bool) (maxInline len : Nat) : RecorderData → Prop
  | memory buffer capacity =>
    buffer ≠ [] ∧ buffer.length + len ≤ maxInline ∧ capacity < buffer.length + len ∧
      alloc (buffer.length + len) = false
  | file _ _ => False

instance (alloc : Nat → Bool) (maxInline len : Nat) : (r : RecorderData) → Decidable (r.Loses alloc maxInline len)
  | memory _ _ => inferInstanceAs (Decidable (_ ∧ _ ∧ _ ∧ _))
  | file _ _ => inferInstanceAs (Decidable False)

/-- Nothing was lost: the offset is the size of the file. -/
def Exact : RecorderData → Prop
  | memory _ _ => True
  | file content offset => offset = content.length

theorem bytes_append (d : Bytes) (r : RecorderData) : (r.append d).bytes = r.bytes ++ d := by
  cases r <;> rfl

/-- Preparing keeps the data, or loses all of it. -/
theorem prepareForAppend_bytes (alloc : Nat → Bool) (maxInline len : Nat) (r : RecorderData) :
    (r.prepareForAppend alloc maxInline len).bytes = if r.Loses alloc maxInline len then [] else r.bytes := by
  cases r with
  | file => rfl
  | memory buffer capacity =>
    by_cases hl : (memory buffer capacity).Loses alloc maxInline len
    · obtain ⟨_, hlen, hcap, ha⟩ := id hl
      rw [if_pos hl, prepareForAppend, if_pos hlen, if_pos hcap, if_neg (by rw [ha]; decide)]
      rfl
    rw [prepareForAppend]
    split
    · rename_i hlen
      split
      · rename_i hcap
        split
        · rfl
        rename_i ha
        -- the buffer that is freed is empty
        by_contra hb
        exact hl ⟨fun h => hb (by rw [h]; rfl), hlen, hcap, by simpa using ha⟩
      · rfl
    · rfl

variable {r : RecorderData}

theorem prepareForAppend_exact (h : r.Exact)
    (hl : ¬r.Loses alloc maxInline len) : (r.prepareForAppend alloc maxInline len).Exact := by
  cases r with
  | file => exact h
  | memory buffer capacity =>
    simp only [prepareForAppend]
    split
    · rename_i hlen
      split
      · rename_i hcap
        split
        · trivial
        rename_i ha
        have hb : buffer = [] := by
          by_contra hb
          exact hl ⟨hb, hlen, hcap, by simpa using ha⟩
        show buffer.length = ([] : Bytes).length
        rw [hb]
      · trivial
    · rfl

theorem Exact.append (h : r.Exact) (d : Bytes) : (r.append d).Exact := by
  cases r with
  | memory => trivial
  | file content offset =>
    show offset + d.length = (content ++ d).length
    rw [List.length_append, show offset = content.length from h]

theorem Exact.last_append (h : r.Exact) (d : Bytes) : (r.append d).last d.length = some d := by
  cases r with
  | memory buffer => simp [RecorderData.append, last]
  | file content offset =>
    have h : offset = content.length := h
    simp [RecorderData.append, last, h]

end RecorderData

namespace PipeRecorder

def Active (r : PipeRecorder) : Prop := r.deactivated = false

instance (r : PipeRecorder) : Decidable r.Active := inferInstanceAs (Decidable (_ = _))

def addDataFromBuffer (alloc : Nat → Bool) (maxInline : Nat) (d : Bytes) (r : PipeRecorder) : Option PipeRecorder :=
  if r.deactivated = true ∨ r.abandoned = true ∨ d = [] then none
  else some { r with data := (r.data.prepareForAppend alloc maxInline d.length).append d }

/-- `add_data_from_regular_fd`, with the content of the file -/
def addDataFromRegularFd (alloc : Nat → Bool) (maxInline : Nat) (file : Bytes) (off len : Nat) (r : PipeRecorder) :
    Option PipeRecorder :=
  if ((file.drop off).take len).length = len then addDataFromBuffer alloc maxInline ((file.drop off).take len) r
  else none

def deactivate (r : PipeRecorder) : PipeRecorder := { r with data := .memory [] 0, deactivated := true }

end PipeRecorder

/-- What `PipeRecorder::store` returns. -/
inductive RecorderStored where
  | empty
  | inlined (data : Bytes)
  | blob (hash : Hash) (storedBytes : Nat)
  deriving DecidableEq, Repr

/-- `PipeRecorder::store`: `none` is a failure, or a recorder that is no longer recording. -/
def PipeRecorder.store (c : Codec) (cfg : CacheConfig) (fail : Option StoreFailure) (r : PipeRecorder)
    (b : BlobCache) : Option (RecorderStored × BlobCache) :=
  if r.deactivated = true ∨ r.abandoned = true then none
  else
    match r.data with
    | .memory buffer _ => some (if buffer = [] then .empty else .inlined buffer, b)
    | .file content offset =>
      match moveStoreFile c cfg fail content b with
      | none => none
      | some (hash, b) => some (.blob hash offset, b)

variable {r : PipeRecorder}

theorem PipeRecorder.store_spec
    (h : r.store c cfg fail b = some (x, b')) :
    (x = .empty ∧ b' = b) ∨ (∃ data, data ≠ [] ∧ x = .inlined data ∧ b' = b) ∨
      ∃ content offset key, r.data = .file content offset ∧ x = .blob key offset ∧
        moveStoreFile c cfg fail content b = some (key, b') := by
  unfold PipeRecorder.store at h
  split at h
  · cases h
  cases hd : r.data with
  | memory buffer capacity =>
    simp only [hd] at h
    by_cases hb : buffer = []
    · rw [if_pos hb] at h
      cases h
      exact .inl ⟨rfl, rfl⟩
    rw [if_neg hb] at h
    cases h
    exact .inr (.inl ⟨buffer, hb, rfl, rfl⟩)
  | file content offset =>
    simp only [hd] at h
    cases hm : moveStoreFile c cfg fail content b with
    | none =>
      rw [hm] at h
      cases h
    | some y =>
      rw [hm] at h
      cases h
      exact .inr (.inr ⟨content, offset, _, rfl, rfl, hm⟩)

/-! ## Recording to several recorders -/

/-- The loop over the recorders, with what is done to an active one. -/
def recordEach (f : PipeRecorder → Option PipeRecorder) :
    List Nat → (Nat → PipeRecorder) → Option (Nat → PipeRecorder)
  | [], recs => some recs
  | i :: is, recs =>
    if (recs i).deactivated then recordEach f is recs
    else
      match f (recs i) with
      | none => none
      | some r => recordEach f is (Function.update recs i r)

def recordDataFromBuffer (alloc : Nat → Bool) (maxInline : Nat) (d : Bytes) (is : List Nat)
    (recs : Nat → PipeRecorder) : Option (Nat → PipeRecorder) :=
  if d = [] then none else recordEach (·.addDataFromBuffer alloc maxInline d) is recs

def recordDataFromRegularFd (alloc : Nat → Bool) (maxInline : Nat) (file : Bytes) (len : Nat) (is : List Nat)
    (recs : Nat → PipeRecorder) : Option (Nat → PipeRecorder) :=
  if len = 0 then none else recordEach (·.addDataFromRegularFd alloc maxInline file 0 len) is recs

/-- The first active recorder takes the data out of the pipe, the others copy it from that. -/
def recordDataFromUnixPipe (alloc : Nat → Bool) (maxInline : Nat) (d : Bytes) :
    List Nat → (Nat → PipeRecorder) → Option (Nat → PipeRecorder)
  | [], _ => none
  | i :: is, recs =>
    if (recs i).deactivated then recordDataFromUnixPipe alloc maxInline d is recs
    else
      match (recs i).addDataFromBuffer alloc maxInline d with
      | none => none
      | some first =>
        recordEach (fun r => (first.data.last d.length).bind fun d => r.addDataFromBuffer alloc maxInline d) is
          (Function.update recs i first)

variable {alloc : Nat → Bool} {maxInline : Nat} {d : Bytes} {is : List Nat} {recs recs' : Nat → PipeRecorder}
  {f : PipeRecorder → Option PipeRecorder}

/-- In a list without duplicates every active recorder is visited once. -/
theorem recordEach_spec (hnd : is.Nodup) (h : recordEach f is recs = some recs') (i : Nat) :
    if i ∈ is ∧ (recs i).Active then f (recs i) = some (recs' i) else recs' i = recs i := by
  induction is generalizing recs with
  | nil =>
    cases h
    rw [if_neg fun hi => absurd hi.1 List.not_mem_nil]
  | cons j js ih =>
    obtain ⟨hj, hnd⟩ := List.nodup_cons.mp hnd
    rw [recordEach] at h
    split at h
    · rename_i hd
      have := ih hnd h
      by_cases hij : i = j
      · subst hij
        rw [if_neg fun hi => hj hi.1] at this
        rw [if_neg fun hi => Bool.noConfusion (hd.symm.trans hi.2)]
        exact this
      · simpa [hij] using this
    · rename_i hd
      cases hf : f (recs j) with
      | none =>
        rw [hf] at h
        cases h
      | some r =>
        rw [hf] at h
        have := ih hnd h
        by_cases hij : i = j
        · subst hij
          rw [if_neg fun hi => hj hi.1, Function.update_self] at this
          rw [if_pos ⟨List.mem_cons_self, by simpa [PipeRecorder.Active] using hd⟩, hf, this]
        · simpa [hij] using this

/-- All active recorders have to take the data. -/
theorem recordEach_isSome_iff (hnd : is.Nodup) :
    (recordEach f is recs).isSome = true ↔ ∀ i ∈ is, (recs i).Active → (f (recs i)).isSome = true := by
  induction is generalizing recs with
  | nil => simp [recordEach]
  | cons j js ih =>
    obtain ⟨hj, hnd⟩ := List.nodup_cons.mp hnd
    rw [recordEach, List.forall_mem_cons]
    by_cases hd : (recs j).deactivated = true
    · simp [hd, ih hnd, PipeRecorder.Active]
    cases hf : f (recs j) with
    | none => simp [hd, PipeRecorder.Active]
    | some r =>
      have hrest : ∀ i ∈ js, Function.update recs j r i = recs i := fun i hi =>
        Function.update_of_ne (by rintro rfl; exact hj hi) ..
      rw [if_neg hd]
      refine (ih hnd).trans ?_
      simp +contextual [hrest]

theorem recordEach_congr (h : ∀ r, f r = g r) :
    recordEach f is recs = recordEach g is recs := by
  rw [show f = g from funext h]

theorem addDataFromBuffer_spec (h : r.addDataFromBuffer alloc maxInline d = some r') :
    r'.deactivated = r.deactivated ∧
      r'.data.bytes = (if r.data.Loses alloc maxInline d.length then [] else r.data.bytes) ++ d := by
  unfold PipeRecorder.addDataFromBuffer at h
  split at h
  · cases h
  cases h
  refine ⟨rfl, ?_⟩
  rw [RecorderData.bytes_append, RecorderData.prepareForAppend_bytes]

/-- Every active recorder gets the data once, and no other is touched. -/
theorem recordDataFromBuffer_spec (hnd : is.Nodup) (h : recordDataFromBuffer alloc maxInline d is recs = some recs')
    (i : Nat) :
    if i ∈ is ∧ (recs i).Active then
      (recs' i).Active ∧ (recs' i).data.bytes =
        (if (recs i).data.Loses alloc maxInline d.length then [] else (recs i).data.bytes) ++ d
    else recs' i = recs i := by
  unfold recordDataFromBuffer at h
  split at h
  · cases h
  have := recordEach_spec hnd h i
  split
  · rename_i hi
    rw [if_pos hi] at this
    obtain ⟨hd, hb⟩ := addDataFromBuffer_spec this
    exact ⟨hd.trans hi.2, hb⟩
  · rename_i hi
    rwa [if_neg hi] at this

theorem recordDataFromBuffer_isSome_iff (hnd : is.Nodup) :
    (recordDataFromBuffer alloc maxInline d is recs).isSome = true ↔
      d ≠ [] ∧ ∀ i ∈ is, (recs i).Active → (recs i).abandoned = false := by
  unfold recordDataFromBuffer
  split
  · simp_all
  next hd =>
  rw [recordEach_isSome_iff hnd]
  simp only [hd, ne_eq, not_false_eq_true, true_and]
  refine forall₂_congr fun i _ => imp_congr_right fun ha => ?_
  simp [PipeRecorder.addDataFromBuffer, show (recs i).deactivated = false from ha, hd]

/-- From a file that is recorded whole, as from a buffer with its content. -/
theorem recordDataFromRegularFd_eq (file : Bytes) :
    recordDataFromRegularFd alloc maxInline file file.length is recs = recordDataFromBuffer alloc maxInline file is recs := by
  unfold recordDataFromRegularFd recordDataFromBuffer
  by_cases hf : file = []
  · rw [if_pos hf, if_pos (List.length_eq_zero_iff.mpr hf)]
  · rw [if_neg hf, if_neg fun h => hf (List.length_eq_zero_iff.mp h)]
    exact recordEach_congr fun r => by simp [PipeRecorder.addDataFromRegularFd]

def firstActive (recs : Nat → PipeRecorder) (is : List Nat) : Option Nat := is.find? fun i => !(recs i).deactivated

/-- The recorders that copy from the first one get the data that it took out of the pipe, as long as it
    did not lose what it had. -/
theorem recordDataFromUnixPipe_eq_of_first (hfirst : firstActive recs is = some j)
    (hex : (recs j).data.Exact) (hl : ¬(recs j).data.Loses alloc maxInline d.length) :
    recordDataFromUnixPipe alloc maxInline d is recs = recordDataFromBuffer alloc maxInline d is recs := by
  induction is with
  | nil => cases hfirst
  | cons i is ih =>
    rw [recordDataFromUnixPipe, recordDataFromBuffer, recordEach]
    by_cases hd : (recs i).deactivated = true
    · rw [if_pos hd, if_pos hd]
      refine ih ?_
      simpa [firstActive, hd] using hfirst
    obtain rfl : i = j := by simpa [firstActive, hd] using hfirst
    rw [if_neg hd, if_neg hd]
    unfold PipeRecorder.addDataFromBuffer
    by_cases hbad : (recs i).deactivated = true ∨ (recs i).abandoned = true ∨ d = []
    · simp only [if_pos hbad]
      split <;> rfl
    rw [if_neg fun h => hbad (.inr (.inr h))]
    simp only [if_neg hbad]
    refine recordEach_congr fun r => ?_
    rw [(RecorderData.prepareForAppend_exact hex hl).last_append, Option.bind_some]

theorem firstActive_of_exists (hact : ∃ i ∈ is, (recs i).Active) :
    ∃ j ∈ is, firstActive recs is = some j ∧ (recs j).Active := by
  have hsome : (firstActive recs is).isSome := by
    obtain ⟨i, hi, ha⟩ := hact
    exact List.find?_isSome.mpr ⟨i, hi, by rw [show (recs i).deactivated = false from ha]; rfl⟩
  obtain ⟨j, hj⟩ := Option.isSome_iff_exists.mp hsome
  exact ⟨j, List.mem_of_find?_eq_some hj, hj, by simpa [PipeRecorder.Active] using List.find?_some hj⟩

theorem recordDataFromUnixPipe_eq (hex : ∀ i ∈ is, (recs i).Active → (recs i).data.Exact)
    (hl : ∀ i ∈ is, (recs i).Active → ¬(recs i).data.Loses alloc maxInline d.length)
    (hact : ∃ i ∈ is, (recs i).Active) :
    recordDataFromUnixPipe alloc maxInline d is recs = recordDataFromBuffer alloc maxInline d is recs := by
  obtain ⟨j, hj, hfirst, ha⟩ := firstActive_of_exists hact
  exact recordDataFromUnixPipe_eq_of_first hfirst (hex j hj ha) (hl j hj ha)

end Firebuild
