/-
  Firebuild.Pipe — a pipe that the supervisor forwards (`pipe.cc`: `send_buf`,
  `add_data_from_fd`, `add_data_from_buffer`, `add_fd1_and_proc`; `message_processor.cc`:
  the recorders of a reopened pipe in `accept_exec_child`).

  Data waits in the buffer until the reading end takes it. `sent` is what the reading end
  got so far, and `stream` is everything that was put into the pipe, in order. What the
  kernel answers to the write() calls is given (`WriteResult`); running out of answers is
  EAGAIN.

  Each exec()ed process that inherits the writing end has the recorders its data goes to:
  those of its parent, and its own. They are distinct, because its own is a new one.
-/

import Firebuild.PipeRecorder

namespace Firebuild

inductive WriteResult where
  | sent (n : Nat)
  | eagain
  /-- EPIPE, or any other error -/
  | error
  deriving DecidableEq, Repr

inductive PipeOpResult where
  | wouldBlock | fd0Epipe | success
  deriving DecidableEq, Repr

structure Pipe where
  sent : Bytes := []
  buf : Bytes := []
  sendOnlyMode : Bool := false
  finished : Bool := false
  proc2recorders : Nat → List Nat := fun _ => []
  nodup : ∀ proc, (proc2recorders proc).Nodup := by exact fun _ => List.nodup_nil

namespace Pipe

def stream (p : Pipe) : Bytes := p.sent ++ p.buf

/-- `send_buf` on a pipe that is not finished. -/
def sendBuf (p : Pipe) : List WriteResult → PipeOpResult × Pipe
  | [] => if p.buf = [] then (.success, p) else (.wouldBlock, { p with sendOnlyMode := true })
  | w :: ws =>
    if p.buf = [] then (.success, p)
    else
      match w with
      | .eagain => (.wouldBlock, { p with sendOnlyMode := true })
      | .error | .sent 0 => (.fd0Epipe, p)
      | .sent n =>
        sendBuf { p with
          sent := p.sent ++ p.buf.take n, buf := p.buf.drop n
          sendOnlyMode := p.sendOnlyMode && (p.buf.drop n != []) } ws

def maxReadSize : Nat := 0x7ffff000

/-- `buf_.read(fd, len)`: a single read() -/
def addDataFromFd (p : Pipe) (ws : List WriteResult) (file : Bytes) (len : Nat) : Option Pipe :=
  if len = 0 then some p
  else if p.finished then none
  else some ({ p with buf := p.buf ++ file.take (min len maxReadSize) }.sendBuf ws).2

def addDataFromBuffer (p : Pipe) (ws : List WriteResult) (d : Bytes) : Option Pipe :=
  if d = [] then some p
  else if p.finished then none
  else some ({ p with buf := p.buf ++ d }.sendBuf ws).2

/-- The recorders of the data that comes from below a process, none without a process. -/
def recordersOf (p : Pipe) : Option Nat → List Nat
  | none => []
  | some proc => p.proc2recorders proc

theorem recordersOf_nodup (p : Pipe) (proc : Option Nat) : (p.recordersOf proc).Nodup := by
  cases proc with
  | none => exact List.nodup_nil
  | some proc => exact p.nodup proc

/-! ## The stream -/

theorem sendBuf_stream (p : Pipe) (ws : List WriteResult) :
    (p.sendBuf ws).2.stream = p.stream ∧ (p.sendBuf ws).2.proc2recorders = p.proc2recorders := by
  induction ws generalizing p with
  | nil =>
    unfold sendBuf
    split <;> exact ⟨rfl, rfl⟩
  | cons w ws ih =>
    unfold sendBuf
    split
    · exact ⟨rfl, rfl⟩
    split
    · exact ⟨rfl, rfl⟩
    · exact ⟨rfl, rfl⟩
    · exact ⟨rfl, rfl⟩
    rename_i n _
    obtain ⟨hs, hr⟩ := ih { p with
      sent := p.sent ++ p.buf.take n, buf := p.buf.drop n
      sendOnlyMode := p.sendOnlyMode && (p.buf.drop n != []) }
    refine ⟨hs.trans ?_, hr⟩
    simp [stream]

variable {p p' : Pipe} {ws : List WriteResult}

theorem addDataFromBuffer_stream (h : p.addDataFromBuffer ws d = some p') :
    p'.stream = p.stream ++ d ∧ p'.proc2recorders = p.proc2recorders := by
  unfold addDataFromBuffer at h
  split at h
  · rename_i hd
    cases h
    exact ⟨by rw [hd, List.append_nil], rfl⟩
  split at h
  · cases h
  cases h
  obtain ⟨hs, hr⟩ := sendBuf_stream { p with buf := p.buf ++ d } ws
  refine ⟨hs.trans ?_, hr⟩
  simp [stream]

theorem addDataFromBuffer_isSome_iff (ws : List WriteResult) :
    (p.addDataFromBuffer ws d).isSome = true ↔ (d ≠ [] → p.finished = false) := by
  unfold addDataFromBuffer
  by_cases hd : d = [] <;> by_cases hf : p.finished = true <;> simp [hd, hf]

theorem addDataFromFd_isSome_iff (ws : List WriteResult) :
    (p.addDataFromFd ws file file.length).isSome = true ↔ (file ≠ [] → p.finished = false) := by
  unfold addDataFromFd
  by_cases hd : file = [] <;> by_cases hf : p.finished = true <;> simp [hd, hf]

theorem addDataFromFd_stream (h : p.addDataFromFd ws file file.length = some p') :
    p'.stream = p.stream ++ file.take maxReadSize ∧ p'.proc2recorders = p.proc2recorders := by
  unfold addDataFromFd at h
  split at h
  · rename_i hd
    cases h
    rw [List.length_eq_zero_iff.mp hd]
    exact ⟨by simp, rfl⟩
  split at h
  · cases h
  cases h
  obtain ⟨hs, hr⟩ := sendBuf_stream { p with buf := p.buf ++ file.take (min file.length maxReadSize) } ws
  refine ⟨hs.trans ?_, hr⟩
  have htake : file.take (min file.length maxReadSize) = file.take maxReadSize := by
    rw [Nat.min_comm, ← List.take_take, List.take_length]
  simp [stream, htake]

end Pipe
end Firebuild
