/-
  Firebuild.PipeReplay — replaying what a process wrote to its inherited fds
  (`execed_process_cacher.cc`: the loop over `append_to_fd` at the end of
  `apply_shortcut`).

  A record has its data inline, in a plain blob or in a compressed blob. Each form has its
  own branch, and each branch has to do two things for a pipe: put the data into the pipe,
  and record it for the ancestors, as if the process had written it. The branch for a
  compressed blob does only the first (`a_compressed_fragment_is_not_recorded`).

  `blobFds` are the contents of the blobs that were opened and not yet used, `writes` is
  what the kernel answers to the calls of send_buf() to come. An assertion that fails is
  `none`. The call of `handle_write_to_inherited()` after each record does nothing for an
  inherited pipe or file.

  Proved: `replayed_pipe_output`, `replayAppends_deliver`.
-/

import Mathlib.Data.List.TakeDrop
import Firebuild.Entry
import Firebuild.Pipe

namespace Firebuild

open List

inductive FileFd where
  | pipeOut (pipe : Nat)
  | file (name : FileName)
  | other
  deriving DecidableEq, Repr

structure ReplayEnv where
  codec : Codec
  maxInlineBlobSize : Nat := 4096
  alloc : Nat → Bool := fun _ => true
  fds : Nat → Option FileFd
  parentExecPoint : Option Nat

structure ReplayState where
  pipes : Nat → Pipe
  recorders : Nat → PipeRecorder
  files : FileName → Option Bytes := fun _ => none
  blobFds : List Bytes := []
  writes : List (List WriteResult) := []
  fdsAppendedTo : List Nat := []

namespace ReplayState

def setPipe (st : ReplayState) (i : Nat) (p : Pipe) : ReplayState :=
  { st with pipes := Function.update st.pipes i p, writes := st.writes.tail }

def bubbleUp (env : ReplayEnv) (st : ReplayState) (recorded : Option (Nat → PipeRecorder)) : Option ReplayState :=
  match env.parentExecPoint with
  | none => some st
  | some _ => recorded.map fun recorders => { st with recorders }

end ReplayState

inductive StorageForm where
  | inlined | plainBlob | compressedBlob
  deriving DecidableEq, Repr

def AppendToFd.form (r : AppendToFd) : StorageForm :=
  if r.inlineData ≠ [] then .inlined else if r.compressedHash.isSome then .compressedBlob else .plainBlob

def replayInline (env : ReplayEnv) (d : Bytes) (i : Nat) (st : ReplayState) : Option ReplayState :=
  match (st.pipes i).addDataFromBuffer (st.writes.headD []) d with
  | none => none
  | some p =>
    (st.setPipe i p).bubbleUp env
      (recordDataFromBuffer env.alloc env.maxInlineBlobSize d (p.recordersOf env.parentExecPoint) st.recorders)

def replayPlain (env : ReplayEnv) (blob : Bytes) (i : Nat) (st : ReplayState) : Option ReplayState :=
  match (st.pipes i).addDataFromFd (st.writes.headD []) blob blob.length with
  | none => none
  | some p =>
    (st.setPipe i p).bubbleUp env
      (recordDataFromRegularFd env.alloc env.maxInlineBlobSize blob blob.length (p.recordersOf env.parentExecPoint)
        st.recorders)

def replayCompressed (env : ReplayEnv) (blob : Bytes) (i : Nat) (st : ReplayState) : Option ReplayState :=
  match env.codec.decompress blob with
  | none => none
  | some d => ((st.pipes i).addDataFromBuffer (st.writes.headD []) d).map (st.setPipe i)

def replayPipe (env : ReplayEnv) (r : AppendToFd) (i : Nat) (st : ReplayState) : Option ReplayState :=
  match r.form, st.blobFds with
  | .inlined, _ => replayInline env r.inlineData i st
  | .plainBlob, blob :: blobFds => replayPlain env blob i { st with blobFds }
  | .compressedBlob, blob :: blobFds => replayCompressed env blob i { st with blobFds }
  | _, [] => none

/-- An inherited regular file: it is created only for inline data. -/
def replayFile (env : ReplayEnv) (r : AppendToFd) (name : FileName) (st : ReplayState) : Option ReplayState :=
  let written (st : ReplayState) (content : Bytes) : ReplayState :=
    { st with
      files := Function.update st.files name (some content), fdsAppendedTo := st.fdsAppendedTo ++ [r.fd] }
  if r.form = .inlined then some (written st ((st.files name).getD [] ++ r.inlineData))
  else
    match st.blobFds, st.files name with
    | blob :: blobFds, some old =>
      (retrieveFile env.codec blob old true (r.form = .compressedBlob)).map (written { st with blobFds })
    | _, _ => none

def replayAppend (env : ReplayEnv) (r : AppendToFd) (st : ReplayState) : Option ReplayState :=
  match env.fds r.fd with
  | some (.pipeOut i) => replayPipe env r i st
  | some (.file name) => replayFile env r name st
  | some .other | none => none

def replayAppends (env : ReplayEnv) : List AppendToFd → ReplayState → Option ReplayState
  | [], st => some st
  | r :: rs, st => (replayAppend env r st).bind (replayAppends env rs)

/-! ## Where the data has to go -/

def recordedBytes (c : Codec) (r : AppendToFd) (blob : Option Bytes) : Option Bytes :=
  match r.form with
  | .inlined => some r.inlineData
  | .plainBlob => blob
  | .compressedBlob => blob.bind c.decompress

def ReplayState.parentRecorders (env : ReplayEnv) (st : ReplayState) (i : Nat) : List Nat :=
  (st.pipes i).recordersOf env.parentExecPoint

/-- The data is in the pipe once and in every active recorder of the parent's end once, and
    nowhere else. -/
structure Delivered (env : ReplayEnv) (i : Nat) (d : Bytes) (st st' : ReplayState) : Prop where
  pipe : (st'.pipes i).stream = (st.pipes i).stream ++ d
  otherPipes : ∀ j, j ≠ i → st'.pipes j = st.pipes j
  recorders : ∀ k ∈ st.parentRecorders env i, (st.recorders k).Active →
    (st'.recorders k).data.bytes = (st.recorders k).data.bytes ++ d
  otherRecorders : ∀ k, ¬(k ∈ st.parentRecorders env i ∧ (st.recorders k).Active) → st'.recorders k = st.recorders k

/-- No recorder runs out of memory while it holds data in memory. -/
def NoneLoses (env : ReplayEnv) (i : Nat) (d : Bytes) (st : ReplayState) : Prop :=
  ∀ k ∈ st.parentRecorders env i, (st.recorders k).Active →
    ¬(st.recorders k).data.Loses env.alloc env.maxInlineBlobSize d.length

/-- The parent has something to record, in recorders that still record. -/
def Recording (env : ReplayEnv) (i : Nat) (d : Bytes) (st : ReplayState) : Prop :=
  (env.parentExecPoint.isSome = true → d ≠ []) ∧
    ∀ k ∈ st.parentRecorders env i, (st.recorders k).Active → (st.recorders k).abandoned = false

/-- The pipe is not finished, a compressed blob has no one to be recorded for, and a plain one fits in one read(). -/
def Replayable (env : ReplayEnv) (r : AppendToFd) (i : Nat) (d : Bytes) (st : ReplayState) : Prop :=
  (d ≠ [] → (st.pipes i).finished = false) ∧
  match r.form with
  | .inlined => Recording env i d st ∧ NoneLoses env i d st
  | .plainBlob => d.length ≤ Pipe.maxReadSize ∧ Recording env i d st ∧ NoneLoses env i d st
  | .compressedBlob => d = [] ∨ ∀ k ∈ st.parentRecorders env i, ¬(st.recorders k).Active

variable {env : ReplayEnv} {i : Nat} {d : Bytes} {st st' : ReplayState} {r : AppendToFd}

variable {alloc : Nat → Bool} {maxInline : Nat}

theorem loses_bytes {r : RecorderData} (h : r.Loses alloc maxInline len) : r.bytes ≠ [] := by
  cases r with
  | memory => exact h.1
  | file => exact h.elim

variable {st1 : ReplayState}

/-- What is recorded at the parent is there once if nothing gets lost, and nowhere else. -/
theorem bubbleUp_spec (st : ReplayState) (hrec : st1.recorders = st.recorders)
    (h : st1.bubbleUp env (recordDataFromBuffer env.alloc env.maxInlineBlobSize d (st.parentRecorders env i)
      st.recorders) = some st') :
    st'.pipes = st1.pipes ∧
      ((∀ k ∈ st.parentRecorders env i, (st.recorders k).Active →
        (st'.recorders k).data.bytes = (st.recorders k).data.bytes ++ d) ↔ NoneLoses env i d st) ∧
      ∀ k, ¬(k ∈ st.parentRecorders env i ∧ (st.recorders k).Active) → st'.recorders k = st.recorders k := by
  unfold ReplayState.bubbleUp at h
  split at h
  · rename_i hnone
    cases h
    -- without a parent there is no recorder
    have hnil : st.parentRecorders env i = [] := by rw [ReplayState.parentRecorders, hnone]; rfl
    refine ⟨rfl, ⟨fun _ k hk => ?_, fun _ k hk => ?_⟩, fun k _ => by rw [hrec]⟩
    · rw [hnil] at hk
      exact absurd hk not_mem_nil
    · rw [hnil] at hk
      exact absurd hk not_mem_nil
  · obtain ⟨recs', hr, rfl⟩ := Option.map_eq_some_iff.mp h
    have hnd : (st.parentRecorders env i).Nodup := (st.pipes i).recordersOf_nodup env.parentExecPoint
    have hspec := recordDataFromBuffer_spec hnd hr
    refine ⟨rfl, ⟨fun hall k hk ha hl => ?_, fun hall k hk ha => ?_⟩, fun k hk => ?_⟩
    · have hbytes := hspec k
      rw [if_pos ⟨hk, ha⟩, if_pos hl, hall k hk ha] at hbytes
      exact loses_bytes hl (append_cancel_right hbytes.2)
    · have hbytes := hspec k
      rw [if_pos ⟨hk, ha⟩, if_neg (hall k hk ha)] at hbytes
      exact hbytes.2
    · have hsame := hspec k
      rwa [if_neg hk] at hsame

variable {p : Pipe}

theorem recordersOf_congr {p' : Pipe} (h : p'.proc2recorders = p.proc2recorders) (proc : Option Nat) :
    p'.recordersOf proc = p.recordersOf proc := by
  cases proc with
  | none => rfl
  | some proc => exact congrFun h proc

theorem bubbleUp_isSome_iff (st st1 : ReplayState) :
    (st1.bubbleUp env (recordDataFromBuffer env.alloc env.maxInlineBlobSize d (st.parentRecorders env i)
      st.recorders)).isSome = true ↔ Recording env i d st := by
  have hnd : (st.parentRecorders env i).Nodup := (st.pipes i).recordersOf_nodup env.parentExecPoint
  cases hparent : env.parentExecPoint with
  | none => simp [ReplayState.bubbleUp, Recording, ReplayState.parentRecorders, Pipe.recordersOf, hparent]
  | some q =>
    rw [ReplayState.bubbleUp, hparent, Option.isSome_map, recordDataFromBuffer_isSome_iff hnd, Recording, hparent]
    simp

/-- Data in the pipe `i`, recorded at the parent from a buffer. -/
theorem delivered_iff (hp : p.stream = (st.pipes i).stream ++ got)
    (hr : p.proc2recorders = (st.pipes i).proc2recorders) :
    (∃ st', (st.setPipe i p).bubbleUp env (recordDataFromBuffer env.alloc env.maxInlineBlobSize d
      (p.recordersOf env.parentExecPoint) st.recorders) = some st' ∧ Delivered env i d st st') ↔
      got = d ∧ Recording env i d st ∧ NoneLoses env i d st := by
  rw [recordersOf_congr hr]
  have hsame : (st.setPipe i p).recorders = st.recorders := rfl
  constructor
  · rintro ⟨st', h, hd⟩
    obtain ⟨hpipes, hrecs, -⟩ := bubbleUp_spec st hsame h
    have hgot := hd.pipe
    rw [hpipes, show (st.setPipe i p).pipes i = p from Function.update_self .., hp] at hgot
    exact ⟨append_cancel_left hgot, (bubbleUp_isSome_iff st _).mp (Option.isSome_of_eq_some h), hrecs.mp hd.recorders⟩
  · rintro ⟨rfl, hrec, hl⟩
    obtain ⟨st', h⟩ := Option.isSome_iff_exists.mp ((bubbleUp_isSome_iff st (st.setPipe i p)).mpr hrec)
    obtain ⟨hpipes, hrecs, hother⟩ := bubbleUp_spec st hsame h
    refine ⟨st', h, ?_, fun j hj => ?_, hrecs.mpr hl, hother⟩
    · rw [hpipes, show (st.setPipe i p).pipes i = p from Function.update_self .., hp]
    · rw [hpipes]
      exact Function.update_of_ne hj ..

theorem replayInline_iff : (∃ st', replayInline env d i st = some st' ∧ Delivered env i d st st') ↔
    (d ≠ [] → (st.pipes i).finished = false) ∧ Recording env i d st ∧ NoneLoses env i d st := by
  rw [← Pipe.addDataFromBuffer_isSome_iff (st.writes.headD []), replayInline]
  cases hp : (st.pipes i).addDataFromBuffer (st.writes.headD []) d with
  | none => simp
  | some p =>
    obtain ⟨hs, hr⟩ := Pipe.addDataFromBuffer_stream hp
    refine (delivered_iff hs hr).trans ?_
    simp

theorem replayPlain_iff : (∃ st', replayPlain env d i st = some st' ∧ Delivered env i d st st') ↔
    (d ≠ [] → (st.pipes i).finished = false) ∧ d.length ≤ Pipe.maxReadSize ∧ Recording env i d st ∧ NoneLoses env i d st := by
  rw [← Pipe.addDataFromFd_isSome_iff (st.writes.headD []), replayPlain]
  cases hp : (st.pipes i).addDataFromFd (st.writes.headD []) d d.length with
  | none => simp
  | some p =>
    obtain ⟨hs, hr⟩ := Pipe.addDataFromFd_stream hp
    simp only [recordDataFromRegularFd_eq]
    refine (delivered_iff hs hr).trans ?_
    simp [take_eq_self_iff]

theorem replayCompressed_iff (hd : env.codec.decompress blob = some d) :
    (∃ st', replayCompressed env blob i st = some st' ∧ Delivered env i d st st') ↔
      (d ≠ [] → (st.pipes i).finished = false) ∧
        (d = [] ∨ ∀ k ∈ st.parentRecorders env i, ¬(st.recorders k).Active) := by
  rw [← Pipe.addDataFromBuffer_isSome_iff (st.writes.headD []), replayCompressed, hd]
  dsimp only
  cases hp : (st.pipes i).addDataFromBuffer (st.writes.headD []) d with
  | none => simp
  | some p =>
    obtain ⟨hs, -⟩ := Pipe.addDataFromBuffer_stream hp
    have hpipe : (st.setPipe i p).pipes i = p := Function.update_self ..
    simp only [Option.map_some, Option.some.injEq, exists_eq_left', Option.isSome_some, true_and]
    constructor
    · intro hdel
      by_cases hnil : d = []
      · exact .inl hnil
      · -- an active recorder has not changed
        refine .inr fun k hk ha => hnil ?_
        exact self_eq_append_right.mp (hdel.recorders k hk ha)
    · intro hno
      refine ⟨by rw [hpipe, hs], fun j hj => Function.update_of_ne hj .., fun k hk ha => ?_, fun _ _ => rfl⟩
      rcases hno with rfl | hno
      · exact (append_nil _).symm
      · exact absurd ha (hno k hk)

/-- The blobs that are left say nothing about where the data went. -/
theorem delivered_blobFds (st : ReplayState) (blobFds : List Bytes) :
    Delivered env i d { st with blobFds } st' ↔ Delivered env i d st st' :=
  ⟨fun h => { h with }, fun h => { h with }⟩

theorem replayPipe_iff (hd : recordedBytes env.codec r st.blobFds.head? = some d) :
    (∃ st', replayPipe env r i st = some st' ∧ Delivered env i d st st') ↔ Replayable env r i d st := by
  unfold recordedBytes at hd
  unfold replayPipe Replayable
  cases hform : r.form with
  | inlined =>
    rw [hform] at hd
    cases hd
    exact replayInline_iff
  | plainBlob | compressedBlob =>
    rw [hform] at hd
    cases hblob : st.blobFds with
    | nil =>
      rw [hblob] at hd
      cases hd
    | cons blob blobFds =>
      simp only [hblob, head?_cons, Option.bind_some, Option.some.injEq] at hd
      simp only [← delivered_blobFds st blobFds]
      first
        | exact hd ▸ replayPlain_iff
        | exact replayCompressed_iff hd

/-- A record for a pipe is replayed, and its data reaches the pipe once and every active recorder of
    the parent's end once, exactly if it is `Replayable`. -/
theorem replayed_pipe_output {r : AppendToFd} (hfd : env.fds r.fd = some (.pipeOut i))
    (hd : recordedBytes env.codec r st.blobFds.head? = some d) :
    (∃ st', replayAppend env r st = some st' ∧ Delivered env i d st st') ↔ Replayable env r i d st := by
  rw [replayAppend, hfd]
  exact replayPipe_iff hd

/-- Process 1 writes to the pipe 7, for which its parent 0 has the recorder 0. -/
def pipeToParent : ReplayEnv where
  codec := magicCodec
  fds fd := if fd = 1 then some (.pipeOut 7) else none
  parentExecPoint := some 0

def withBlob (blob : Bytes) : ReplayState where
  pipes _ := { proc2recorders := fun _ => [0], nodup := fun _ => nodup_cons.mpr ⟨not_mem_nil, nodup_nil⟩ }
  recorders _ := {}
  blobFds := [blob]

/-- A child wrote three bytes, which are in a plain blob: they are in the parent's recorder. -/
theorem replayed_pipe_output_of_a_plain_blob : ∃ st',
    replayAppend pipeToParent { fd := 1, hash := some 0 } (withBlob [1, 2, 3]) = some st' ∧
      Delivered pipeToParent 7 [1, 2, 3] (withBlob [1, 2, 3]) st' := by
  have hfd : pipeToParent.fds 1 = some (.pipeOut 7) := rfl
  have hd : recordedBytes magicCodec { fd := 1, hash := some 0 } (withBlob [1, 2, 3]).blobFds.head? = some [1, 2, 3] := rfl
  refine (replayed_pipe_output hfd hd).mpr ⟨fun _ => rfl, by decide, ⟨fun _ => by decide, fun _ _ _ => rfl⟩, ?_⟩
  exact fun k _ _ hl => hl.1 rfl

/-- The same bytes in a compressed blob reach the pipe, but not the parent's recorder. And a pipe that is
    finished fails an assertion. -/
theorem a_compressed_fragment_is_not_recorded : (∃ st', replayAppend pipeToParent { fd := 1, compressedHash := some 0 }
        (withBlob (magicCodec.compress 1 [1, 2, 3])) = some st' ∧
      recordedBytes magicCodec { fd := 1, compressedHash := some 0 } (some (magicCodec.compress 1 [1, 2, 3])) =
        some [1, 2, 3] ∧
      0 ∈ (withBlob []).parentRecorders pipeToParent 7 ∧ ((withBlob []).recorders 0).Active ∧
      (st'.pipes 7).stream = [1, 2, 3] ∧ (st'.recorders 0).data.bytes = []) ∧
    replayAppend pipeToParent { fd := 1, hash := some 0 }
      { withBlob [1, 2, 3] with pipes := fun _ => { finished := true } } = none :=
  ⟨⟨_, rfl, rfl, mem_cons_self, rfl, rfl, rfl⟩, rfl⟩

/-! ## The whole entry -/

variable {recs : Nat → PipeRecorder}

theorem recordDataFromBuffer_deactivated
    (hnd : is.Nodup) (h : recordDataFromBuffer alloc maxInline d is recs = some recs')
    (k : Nat) : (recs' k).Active ↔ (recs k).Active := by
  have hspec := recordDataFromBuffer_spec hnd h k
  split at hspec
  · rename_i hk
    exact ⟨fun _ => hk.2, fun _ => hspec.1⟩
  · rw [hspec]

/-- What replaying a record leaves alone, and the blobs that are left after it. -/
structure ReplayFrame (r : AppendToFd) (st st' : ReplayState) : Prop where
  recorders : ∀ j, (st'.pipes j).proc2recorders = (st.pipes j).proc2recorders
  active : ∀ k, (st'.recorders k).Active ↔ (st.recorders k).Active
  blobFds : st'.blobFds = if r.form = .inlined then st.blobFds else st.blobFds.tail

theorem setPipe_recorders (hp : p.proc2recorders = (st.pipes i).proc2recorders) (j : Nat) :
    ((st.setPipe i p).pipes j).proc2recorders = (st.pipes j).proc2recorders := by
  by_cases hj : j = i
  · subst hj
    rw [show (st.setPipe j p).pipes j = p from Function.update_self .., hp]
  · rw [show (st.setPipe i p).pipes j = st.pipes j from Function.update_of_ne hj ..]

theorem bubbleUp_frame (st : ReplayState) (hrec : st1.recorders = st.recorders)
    (h : st1.bubbleUp env (recordDataFromBuffer env.alloc env.maxInlineBlobSize d (st.parentRecorders env i)
      st.recorders) = some st') :
    st'.pipes = st1.pipes ∧ st'.blobFds = st1.blobFds ∧ ∀ k, (st'.recorders k).Active ↔ (st.recorders k).Active := by
  unfold ReplayState.bubbleUp at h
  split at h
  · cases h
    exact ⟨rfl, rfl, fun k => by rw [hrec]⟩
  · obtain ⟨recs', hr, rfl⟩ := Option.map_eq_some_iff.mp h
    exact ⟨rfl, rfl, recordDataFromBuffer_deactivated ((st.pipes i).recordersOf_nodup env.parentExecPoint) hr⟩

/-- The frame of data that is put into a pipe and recorded from a buffer. -/
theorem delivered_frame (hr : p.proc2recorders = (st.pipes i).proc2recorders)
    (h : (st.setPipe i p).bubbleUp env (recordDataFromBuffer env.alloc env.maxInlineBlobSize d
      (p.recordersOf env.parentExecPoint) st.recorders) = some st') :
    (∀ j, (st'.pipes j).proc2recorders = (st.pipes j).proc2recorders) ∧ st'.blobFds = st.blobFds ∧
      ∀ k, (st'.recorders k).Active ↔ (st.recorders k).Active := by
  rw [recordersOf_congr hr] at h
  have hsame : (st.setPipe i p).recorders = st.recorders := rfl
  obtain ⟨hpipes, hblobs, hactive⟩ := bubbleUp_frame st hsame h
  exact ⟨fun j => by rw [hpipes]; exact setPipe_recorders hr j, hblobs, hactive⟩

theorem replayPipe_frame (h : replayPipe env r i st = some st') : ReplayFrame r st st' := by
  unfold replayPipe at h
  split at h
  · rename_i hform
    unfold replayInline at h
    split at h
    · cases h
    rename_i p hp
    obtain ⟨hr, hb, ha⟩ := delivered_frame (Pipe.addDataFromBuffer_stream hp).2 h
    exact ⟨hr, ha, by rw [hb, if_pos hform]⟩
  · rename_i blob blobFds hform hblob
    unfold replayPlain at h
    split at h
    · cases h
    rename_i p hp
    rw [recordDataFromRegularFd_eq] at h
    obtain ⟨hr, hb, ha⟩ := delivered_frame (Pipe.addDataFromFd_stream hp).2 h
    exact ⟨hr, ha, by rw [hb, if_neg (by rw [hform]; decide), hblob]; rfl⟩
  · rename_i blob blobFds hform hblob
    unfold replayCompressed at h
    split at h
    · cases h
    obtain ⟨p, hp, rfl⟩ := Option.map_eq_some_iff.mp h
    refine ⟨setPipe_recorders (Pipe.addDataFromBuffer_stream hp).2, fun _ => Iff.rfl, ?_⟩
    rw [if_neg (by rw [hform]; decide), hblob]
    rfl
  · cases h

theorem replayFile_frame (h : replayFile env r name st = some st') :
    st'.pipes = st.pipes ∧ st'.recorders = st.recorders ∧
      st'.blobFds = if r.form = .inlined then st.blobFds else st.blobFds.tail := by
  unfold replayFile at h
  split at h
  · rename_i hform
    cases h
    exact ⟨rfl, rfl, (if_pos hform).symm⟩
  rename_i hform
  split at h
  · rename_i blob blobFds old hblob _
    obtain ⟨content, _, rfl⟩ := Option.map_eq_some_iff.mp h
    refine ⟨rfl, rfl, ?_⟩
    rw [if_neg hform, hblob]
    rfl
  · cases h

/-- The data of the records for pipes, in the order in which it is replayed. -/
def deliveries (env : ReplayEnv) : List AppendToFd → List Bytes → List (Nat × Bytes)
  | [], _ => []
  | r :: rs, blobs =>
    let rest := deliveries env rs (if r.form = .inlined then blobs else blobs.tail)
    match env.fds r.fd, recordedBytes env.codec r blobs.head? with
    | some (.pipeOut i), some d => (i, d) :: rest
    | _, _ => rest

/-- A record for a file has its data, and finds the file if that is a blob. -/
def FileReplayable (env : ReplayEnv) (r : AppendToFd) (name : FileName) (st : ReplayState) : Prop :=
  r.form = .inlined ∨ (st.files name).isSome = true ∧ (recordedBytes env.codec r st.blobFds.head?).isSome = true

def AllReplayable (env : ReplayEnv) : List AppendToFd → ReplayState → Prop
  | [], _ => True
  | r :: rs, st =>
    (match env.fds r.fd with
      | some (.pipeOut i) => ∃ d, recordedBytes env.codec r st.blobFds.head? = some d ∧ Replayable env r i d st
      | some (.file name) => FileReplayable env r name st
      | some .other | none => False) ∧
    ∀ st', replayAppend env r st = some st' → AllReplayable env rs st'

def forPipe (j : Nat) (ds : List (Nat × Bytes)) : Bytes := (ds.filter (·.1 = j)).flatMap (·.2)

/-- The data for the pipes whose parent's end has the recorder `k`. -/
def forRecorder (env : ReplayEnv) (st : ReplayState) (k : Nat) (ds : List (Nat × Bytes)) : Bytes :=
  (ds.filter fun x => k ∈ st.parentRecorders env x.1).flatMap (·.2)

theorem forPipe_cons (j i : Nat) (d : Bytes) (ds : List (Nat × Bytes)) :
    forPipe j ((i, d) :: ds) = (if i = j then d else []) ++ forPipe j ds := by
  by_cases h : i = j <;> simp [forPipe, h]

theorem forRecorder_cons (k i : Nat) (d : Bytes) (ds : List (Nat × Bytes)) : forRecorder env st k ((i, d) :: ds) =
      (if k ∈ st.parentRecorders env i then d else []) ++ forRecorder env st k ds := by
  by_cases h : k ∈ st.parentRecorders env i <;> simp [forRecorder, h]

theorem replayFile_exists (h : FileReplayable env r name st) : ∃ st', replayFile env r name st = some st' := by
  unfold replayFile
  by_cases hinlined : r.form = .inlined
  · exact ⟨_, if_pos hinlined⟩
  obtain ⟨hfile, hdata⟩ := h.resolve_left hinlined
  obtain ⟨old, hold⟩ := Option.isSome_iff_exists.mp hfile
  obtain ⟨d, hd⟩ := Option.isSome_iff_exists.mp hdata
  rw [if_neg hinlined, hold]
  cases hblob : st.blobFds with
  | nil => cases hform : r.form <;> simp_all [recordedBytes]
  | cons blob blobFds =>
    cases hform : r.form with
    | inlined => exact absurd hform hinlined
    | plainBlob => exact ⟨_, rfl⟩
    | compressedBlob =>
      have hd : env.codec.decompress blob = some d := by simpa [recordedBytes, hform, hblob] using hd
      simp [retrieveFile, hd]

/-- Every pipe and every active recorder gets the data of all the records that are for it,
    in their order, and nothing else. -/
theorem replayAppends_deliver (hall : AllReplayable env rs st) : ∃ st', replayAppends env rs st = some st' ∧
    (∀ j, (st'.pipes j).stream = (st.pipes j).stream ++ forPipe j (deliveries env rs st.blobFds)) ∧
      ∀ k, (st.recorders k).Active →
        (st'.recorders k).data.bytes =
          (st.recorders k).data.bytes ++ forRecorder env st k (deliveries env rs st.blobFds) := by
  induction rs generalizing st with
  | nil => exact ⟨st, rfl, fun j => (append_nil _).symm, fun k _ => (append_nil _).symm⟩
  | cons r rs ih =>
    obtain ⟨hr, hrest⟩ := hall
    rw [deliveries]
    cases hfd : env.fds r.fd with
    | none => simp [hfd] at hr
    | some ffd =>
      cases ffd with
      | other => simp [hfd] at hr
      | file name =>
        simp only [hfd] at hr
        obtain ⟨st1, hfile⟩ := replayFile_exists hr
        have h1 : replayAppend env r st = some st1 := by rw [replayAppend, hfd]; exact hfile
        obtain ⟨st', h2, hpipes, hrecs⟩ := ih (hrest st1 h1)
        obtain ⟨hp, hr, hb⟩ := replayFile_frame hfile
        have hpar : ∀ j, st1.parentRecorders env j = st.parentRecorders env j := fun j => by
          rw [ReplayState.parentRecorders, hp]
          rfl
        refine ⟨st', by rw [replayAppends, h1]; exact h2, fun j => ?_, fun k ha => ?_⟩
        · rw [hpipes j, hp, hb]
        · rw [hrecs k (by rw [hr]; exact ha), hr, hb]
          simp only [forRecorder, hpar]
      | pipeOut i =>
        simp only [hfd] at hr
        obtain ⟨d, hd, hr⟩ := hr
        obtain ⟨st1, hpipe, hdel⟩ := (replayPipe_iff hd).mpr hr
        have h1 : replayAppend env r st = some st1 := by rw [replayAppend, hfd]; exact hpipe
        obtain ⟨st', h2, hpipes, hrecs⟩ := ih (hrest st1 h1)
        have hframe := replayPipe_frame hpipe
        have hpar : ∀ j, st1.parentRecorders env j = st.parentRecorders env j :=
          fun j => recordersOf_congr (hframe.recorders j) _
        simp only [hd, ← hframe.blobFds, forPipe_cons, forRecorder_cons]
        refine ⟨st', by rw [replayAppends, h1]; exact h2, fun j => ?_, fun k ha => ?_⟩
        · rw [hpipes j, ← append_assoc]
          by_cases hj : i = j
          · rw [if_pos hj, ← hj, hdel.pipe]
          · rw [if_neg hj, append_nil, hdel.otherPipes j (Ne.symm hj)]
        · rw [hrecs k ((hframe.active k).mpr ha), ← append_assoc]
          have hsame : forRecorder env st1 k = forRecorder env st k := by
            funext ds
            simp only [forRecorder, hpar]
          rw [hsame]
          by_cases hk : k ∈ st.parentRecorders env i
          · rw [if_pos hk, hdel.recorders k hk ha]
          · rw [if_neg hk, append_nil, hdel.otherRecorders k fun h => hk h.1]

/-- A byte of the entry and two of a blob. -/
theorem replayAppends_deliver_two_records : ∃ st',
    replayAppends pipeToParent [{ fd := 1, inlineData := [1] }, { fd := 1, hash := some 0 }] (withBlob [2, 3]) = some st' ∧
      (st'.pipes 7).stream = [1, 2, 3] ∧ (st'.recorders 0).data.bytes = [1, 2, 3] := by
  have hnone : ∀ d st, NoneLoses pipeToParent 7 d st := fun d st k _ _ hl => by
    cases hk : (st.recorders k).data <;> simp [hk, RecorderData.Loses, pipeToParent] at hl
  have hall : AllReplayable pipeToParent [{ fd := 1, inlineData := [1] }, { fd := 1, hash := some 0 }] (withBlob [2, 3]) := by
    refine ⟨⟨[1], rfl, fun _ => rfl, ⟨fun _ => by decide, fun _ _ _ => rfl⟩, hnone _ _⟩, ?_⟩
    rintro _ ⟨⟩
    refine ⟨⟨[2, 3], rfl, fun _ => rfl, by decide, ⟨fun _ => by decide, fun k hk _ => ?_⟩, hnone _ _⟩, fun _ _ => trivial⟩
    obtain rfl : k = 0 := mem_singleton.mp hk
    rfl
  obtain ⟨st', hst', hpipes, hrecs⟩ := replayAppends_deliver hall
  exact ⟨st', hst', hpipes 7, hrecs 0 rfl⟩

end Firebuild
