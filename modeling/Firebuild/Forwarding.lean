/-
  Firebuild.Forwarding — the pipe object of the supervisor, with its ends and its epoll
  registrations (`pipe.cc`, `epoll.cc`).

  Every process that writes to the pipe has an end of its own (`PipeEnd`), which is found by
  the connection it is read from (`conn2fd1Ends`) and by the FileFDs of the process
  (`ffd2fd1Ends`). Ends are numbered: both maps refer to the same object. While the reading
  end (fd0) is full the pipe is in send-only mode: the connections are not in epoll, fd0 is.

  Three fields are not in the code: what the reading end got (`sent`), what arrived and
  through which end (`arrived`), and whether the reading end is known to be closed or a write()
  to it has failed (`fd0Failed`: `send_buf()` takes every error but EAGAIN for EPIPE). What the
  kernel answers to read(), tee(), splice(), write() and dup() is given. A failed assertion, or
  an fd that dup() cannot return because it is open, is `none`.

  Proved: this is the pipe of `Firebuild.Pipe` with the bookkeeping added (`sendBuf_view`,
  `addDataFromBuffer_view`).
-/

import Mathlib.Data.Finset.Insert
import Mathlib.Data.Finset.Card
import Mathlib.Data.List.AList
import Firebuild.LinearBuffer
import Firebuild.Pipe

namespace Firebuild

/-! ## epoll -/

structure Epoll where
  /-- The fds with a callback. -/
  added : Finset Nat := ∅
  /-- Replaced fds that are closed before the next events are handled. -/
  closedContextFds : List Nat := []

namespace Epoll

def addFd (ep : Epoll) (fd : Nat) : Option Epoll :=
  if fd ∈ ep.added then none else some { ep with added := insert fd ep.added }

def delFd (ep : Epoll) (fd : Nat) : Option Epoll :=
  if fd ∈ ep.added then some { ep with added := ep.added.erase fd } else none

def maybeDelFd (ep : Epoll) (fd : Nat) : Epoll := { ep with added := ep.added.erase fd }

/-- The loop has one round: there is no fd if the first one that dup() returns is added, too. -/
def remapToNotAddedFd (ep : Epoll) (fd dup : Nat) : Option Epoll :=
  if fd ∉ ep.added ∨ dup ∈ ep.added then none else some { ep with closedContextFds := ep.closedContextFds ++ [fd] }

def delFds : List Nat → Epoll → Option Epoll
  | [], ep => some ep
  | fd :: fds, ep => (ep.delFd fd).bind (delFds fds)

end Epoll

/-! ## The pipe -/

structure PipeEnd where
  fd : Nat
  fileFds : Finset Nat
  recorders : List Nat
  nodup : recorders.Nodup

/-- Maps from fds and from FileFDs to ends. -/
abbrev EndMap := AList fun _ : Nat => Nat

namespace EndMap

def list (m : EndMap) : List (Nat × Nat) := m.entries.map fun x => (x.1, x.2)

def eraseAll (m : EndMap) (keys : Finset Nat) : EndMap :=
  ⟨m.entries.filter fun x => x.1 ∉ keys, m.nodupKeys.sublist List.filter_sublist⟩

end EndMap

structure PipeState where
  /-- None once the pipe is finished. -/
  fd0Conn : Option Nat
  conn2fd1Ends : EndMap := ∅
  ffd2fd1Ends : EndMap := ∅
  ends : Nat → PipeEnd
  /-- No end has had this number yet. -/
  nextEnd : Nat := 0
  proc2recorders : Nat → List Nat := fun _ => []
  nodup : ∀ proc, (proc2recorders proc).Nodup := by exact fun _ => List.nodup_nil
  sendOnlyMode : Bool := false
  buf : LinearBuffer := .new
  fd1TimeoutSet : Bool := false
  fd1TimeoutRound : Nat := 0
  fd1PtrsHeld : Bool := true
  epoll : Epoll := {}
  recs : Nat → PipeRecorder
  sent : Bytes := []
  arrived : List (Option Nat × Bytes) := []
  fd0Failed : Bool := false

/-- What is outside of the pipe: memory for the recorders, and the answers of dup(). -/
structure PipeEnv where
  alloc : Nat → Bool := fun _ => true
  maxInline : Nat := 0
  dup : Nat → Nat

inductive ForwardResult where
  /-- What `send_buf` returned last. -/
  | sending (r : PipeOpResult)
  | fd1Eof
  | finished
  deriving DecidableEq, Repr

namespace PipeState

def finished (s : PipeState) : Bool := s.fd0Conn.isNone

def bufferEmpty (s : PipeState) : Bool := s.buf.length == 0

/-- The first loop of leaving the send-only mode: ends whose fd is in epoll already are left for
    the second one. -/
def addConns : List (Nat × Nat) → Epoll → Option (List (Nat × Nat) × Epoll)
  | [], ep => some ([], ep)
  | (conn, e) :: conns, ep =>
    if conn ∈ ep.added then (addConns conns ep).map fun r => ((conn, e) :: r.1, r.2)
    else (ep.addFd conn).bind (addConns conns)

/-- The second loop: the end gets a new connection, but keeps its own fd. -/
def remapConns (dup : Nat → Nat) (fd0 : Nat) : List (Nat × Nat) → EndMap → Epoll → Option (EndMap × Epoll)
  | [], m, ep => some (m, ep)
  | (conn, e) :: conns, m, ep =>
    if dup conn ∈ m ∨ dup conn = fd0 then none
    else
      ((ep.remapToNotAddedFd conn (dup conn)).bind (·.addFd (dup conn))).bind
        (remapConns dup fd0 conns ((m.erase conn).insert (dup conn) e))

def remapFd0 (dup : Nat → Nat) (s : PipeState) (fd0 : Nat) (ep : Epoll) : Option (Nat × Epoll) :=
  if fd0 ∈ ep.added then
    if dup fd0 ∈ s.conn2fd1Ends then none else (ep.remapToNotAddedFd fd0 (dup fd0)).map fun ep => (dup fd0, ep)
  else some (fd0, ep)

def setSendOnlyMode (dup : Nat → Nat) (s : PipeState) (mode : Bool) : Option PipeState :=
  match s.fd0Conn with
  | none => none
  | some fd0 =>
    if mode = s.sendOnlyMode then some s
    else if mode then do
      let ep ← Epoll.delFds s.conn2fd1Ends.keys s.epoll
      let (fd0, ep) ← remapFd0 dup s fd0 ep
      let ep ← ep.addFd fd0
      some { s with fd0Conn := some fd0, epoll := ep, sendOnlyMode := true }
    else do
      let (remapFirst, ep) ← addConns s.conn2fd1Ends.list s.epoll
      let (conn2fd1Ends, ep) ← remapConns dup fd0 remapFirst s.conn2fd1Ends ep
      let ep ← ep.delFd fd0
      some { s with conn2fd1Ends, epoll := ep, sendOnlyMode := false }

def took (s : PipeState) (n : Nat) : PipeState :=
  { s with sent := s.sent ++ s.buf.bytes.take n, buf := s.buf.discard n }

def sendBuf (dup : Nat → Nat) (s : PipeState) : List WriteResult → Option (PipeOpResult × PipeState)
  | [] =>
    if s.finished then none
    else if s.bufferEmpty then some (.success, s)
    else (s.setSendOnlyMode dup true).map fun s => (.wouldBlock, s)
  | w :: ws =>
    if s.finished then none
    else if s.bufferEmpty then some (.success, s)
    else
      match w with
      | .eagain => (s.setSendOnlyMode dup true).map fun s => (.wouldBlock, s)
      | .error | .sent 0 => some (.fd0Epipe, { s with fd0Failed := true })
      | .sent n =>
        if (s.took n).bufferEmpty && s.sendOnlyMode then
          ((s.took n).setSendOnlyMode dup false).bind fun s => sendBuf dup s ws
        else sendBuf dup (s.took n) ws

/-- `add_data_from_fd`, with what the read() returned -/
def addDataFromFd (dup : Nat → Nat) (s : PipeState) (len : Nat) (r : ReadResult) (ws : List WriteResult) :
    Option PipeState :=
  if len = 0 then some s
  else
    let b := (s.buf.readAtMost len r).2
    ({ s with buf := b, arrived := s.arrived ++ [(none, b.bytes.drop s.buf.length)] }.sendBuf dup ws).map Prod.snd

def addDataFromBuffer (dup : Nat → Nat) (s : PipeState) (d : Bytes) (ws : List WriteResult) : Option PipeState :=
  if d = [] then some s
  else ({ s with buf := s.buf.add d, arrived := s.arrived ++ [(none, d)] }.sendBuf dup ws).map Prod.snd

/-! ## Forwarding -/

/-- The answers in one round of the loop: what the tee() or splice() calls moved, the reads
    into the buffer and the writes. -/
structure ForwardRound where
  direct : List Bytes := []
  read : LinearBuffer.ReadAnswers
  writes : List WriteResult := []
  deriving DecidableEq, Repr

def hasActiveRecorder (s : PipeState) (e : Nat) : Bool := (s.ends e).recorders.any fun r => !(s.recs r).deactivated

def passed (s : PipeState) (e : Nat) (d : Bytes) : PipeState :=
  { s with sent := s.sent ++ d, arrived := s.arrived ++ [(some e, d)] }

/-- tee() if the data is to be recorded, splice() else -/
def forwardDirect (env : PipeEnv) (s : PipeState) (e : Nat) : List Bytes → Option PipeState
  | [] => some s
  | d :: ds =>
    if d = [] then some s
    else if s.hasActiveRecorder e then
      match recordDataFromUnixPipe env.alloc env.maxInline d (s.ends e).recorders s.recs with
      | none => none
      | some recs => forwardDirect env { s.passed e d with recs } e ds
    else forwardDirect env (s.passed e d) e ds

/-- Data that was read to the buffer is recorded from there. -/
def received (env : PipeEnv) (s : PipeState) (e n : Nat) (b : LinearBuffer) : Option PipeState :=
  let d := b.bytes.drop (b.length - n)
  match recordDataFromBuffer env.alloc env.maxInline d (s.ends e).recorders s.recs with
  | none => none
  | some recs => some { s with buf := b, recs, arrived := s.arrived ++ [(some e, d)] }

/-- The loop of `forward`. Without more rounds there is nothing to read. -/
def forwardLoop (env : PipeEnv) (e : Nat) (drain : Bool) (s : PipeState) :
    List ForwardRound → Option (ForwardResult × PipeState)
  | [] => (s.sendBuf env.dup []).map fun r => (.sending r.1, r.2)
  | r :: rs =>
    match if s.bufferEmpty then s.forwardDirect env e r.direct else some s with
    | none => none
    | some s =>
      match s.buf.readAll r.read with
      | (.error .eagain, b) => (sendBuf env.dup { s with buf := b } r.writes).map fun r => (.sending r.1, r.2)
      | (.error .other, b) | (.ok 0, b) => (sendBuf env.dup { s with buf := b } r.writes).map fun r => (.fd1Eof, r.2)
      | (.ok n, b) =>
        match (s.received env e n b).bind (·.sendBuf env.dup r.writes) with
        | none => none
        | some (res, s) =>
          if drain ∧ res ≠ .fd0Epipe then forwardLoop env e drain s rs else some (.sending res, s)

def forward (env : PipeEnv) (s : PipeState) (fd1 : Nat) (drain : Bool) (rs : List ForwardRound) :
    Option (ForwardResult × PipeState) :=
  if s.finished then some (.finished, s)
  else
    match s.conn2fd1Ends.lookup fd1 with
    | none => none
    | some e => s.forwardLoop env e drain rs

/-! ## The ends -/

def getFd1End (s : PipeState) (fileFd : Nat) : Option Nat := s.ffd2fd1Ends.lookup fileFd

def withEnd (s : PipeState) (fd1Conn fileFd proc : Nat) (recorders : List Nat) (hnd : recorders.Nodup) : PipeState :=
  { s with
    fd1TimeoutSet := false
    ends := Function.update s.ends s.nextEnd ⟨fd1Conn, {fileFd}, recorders, hnd⟩
    nextEnd := s.nextEnd + 1
    conn2fd1Ends := s.conn2fd1Ends.insert fd1Conn s.nextEnd
    ffd2fd1Ends := s.ffd2fd1Ends.insert fileFd s.nextEnd
    proc2recorders := Function.update s.proc2recorders proc recorders
    nodup := fun p => by
      by_cases hp : p = proc
      · rw [hp, Function.update_self]
        exact hnd
      · rw [Function.update_of_ne hp]
        exact s.nodup p }

def addFd1AndProc (s : PipeState) (fd1Conn fileFd proc : Nat) (recorders : List Nat) (hnd : recorders.Nodup) :
    Option PipeState :=
  if s.finished ∨ fd1Conn ∈ s.conn2fd1Ends ∨ s.fd0Conn = some fd1Conn then none
  else if s.sendOnlyMode then some (s.withEnd fd1Conn fileFd proc recorders hnd)
  else (s.epoll.addFd fd1Conn).map fun ep => { s.withEnd fd1Conn fileFd proc recorders hnd with epoll := ep }

def closedAll (s : PipeState) : PipeState :=
  { s with conn2fd1Ends := ∅, ffd2fd1Ends := ∅, epoll := s.conn2fd1Ends.keys.foldl .maybeDelFd s.epoll }

/-- `finish`. The loop around `send_buf` has one round: that succeeds only with an empty buffer. -/
def finish (dup : Nat → Nat) (s : PipeState) (ws : List WriteResult) : Option PipeState :=
  if s.finished then some s
  else
    (s.closedAll.sendBuf dup ws).map fun r =>
      { r.2 with
        fd0Conn := none, fd1TimeoutSet := false
        epoll := match r.2.fd0Conn with
          | none => r.2.epoll
          | some fd0 => r.2.epoll.maybeDelFd fd0 }

/-- There may be a process to come that has inherited the writing end. -/
def startFd1Timeout (s : PipeState) : Option PipeState :=
  if s.fd1TimeoutSet then none else some { s with fd1TimeoutRound := 0, fd1TimeoutSet := true }

/-- No end is left, and no data. -/
def finishOrWait (dup : Nat → Nat) (s : PipeState) : Option PipeState :=
  if s.fd1PtrsHeld then s.startFd1Timeout else s.finish dup []

def dropEnd (s : PipeState) (fd e : Nat) : PipeState :=
  { s with
    ffd2fd1Ends := s.ffd2fd1Ends.eraseAll (s.ends e).fileFds
    conn2fd1Ends := s.conn2fd1Ends.erase fd
    epoll := s.epoll.maybeDelFd fd }

def closeOneFd1 (dup : Nat → Nat) (s : PipeState) (fd : Nat) : Option PipeState :=
  match s.conn2fd1Ends.lookup fd with
  | none => some s
  | some e =>
    let s := s.dropEnd fd e
    if s.conn2fd1Ends.entries = [] then
      if s.bufferEmpty then s.finishOrWait dup
      -- "Let the pipe send out the remaining data."
      else s.setSendOnlyMode dup true
    else some s

def dropFileFd (s : PipeState) (fileFd e : Nat) : PipeState :=
  { s with
    ffd2fd1Ends := s.ffd2fd1Ends.erase fileFd
    ends := Function.update s.ends e { s.ends e with fileFds := (s.ends e).fileFds.erase fileFd } }

/-- What all callers of `forward` do about an end or a pipe that is closed, and what they do
    else. -/
def afterForward (dup : Nat → Nat) (fd : Nat) (ws : List WriteResult) (other : PipeState → PipeState) :
    ForwardResult × PipeState → Option PipeState
  | (.fd1Eof, s) => s.closeOneFd1 dup fd
  | (.sending .fd0Epipe, s) => s.finish dup ws
  | (_, s) => some (other s)

def drainFd1End (env : PipeEnv) (s : PipeState) (fileFd : Nat) (rs : List ForwardRound) (ws : List WriteResult) :
    Option PipeState :=
  if s.finished then some s
  else
    match s.getFd1End fileFd with
    | none => some s
    | some e =>
      (s.forward env (s.ends e).fd true rs).bind
        (afterForward env.dup (s.ends e).fd ws fun s => s.dropFileFd fileFd e)

def handleClose (env : PipeEnv) (s : PipeState) (fileFd : Nat) (rs : List ForwardRound) (ws : List WriteResult) :
    Option PipeState :=
  match s.getFd1End fileFd with
  | none => some s
  | some e =>
    -- "This was the last open fd, it is safe to drain it."
    if (s.ends e).fileFds.card = 1 then s.drainFd1End env fileFd rs ws
    else some (s.dropFileFd fileFd e)

def handleDup (s : PipeState) (oldFileFd newFileFd : Nat) : PipeState :=
  match s.getFd1End oldFileFd with
  | none => s
  | some e =>
    { s with
      ffd2fd1Ends := s.ffd2fd1Ends.insert newFileFd e
      ends := Function.update s.ends e { s.ends e with fileFds := insert newFileFd (s.ends e).fileFds } }

/-! ## Events -/

/-- The callback of an end that is in epoll; `drain` does the same with each end it finds. -/
def pipeFd1ReadCb (env : PipeEnv) (s : PipeState) (fd : Nat) (readyForRead drain : Bool) (rs : List ForwardRound)
    (ws : List WriteResult) : Option PipeState :=
  if readyForRead then (s.forward env fd drain rs).bind (afterForward env.dup fd ws id)
  else s.closeOneFd1 env.dup fd

def pipeFd0WriteCb (env : PipeEnv) (s : PipeState) (readyForWrite : Bool) (ws finishWs : List WriteResult) :
    Option PipeState :=
  if readyForWrite then
    match s.sendBuf env.dup ws with
    | none => none
    | some (.wouldBlock, s) => some s
    | some (.fd0Epipe, s) => s.finish env.dup finishWs
    | some (.success, s) =>
      if s.bufferEmpty ∧ s.conn2fd1Ends.entries = [] then s.finishOrWait env.dup else some s
  else { s with fd0Failed := true }.finish env.dup finishWs

def fd1TimeoutCb (env : PipeEnv) (s : PipeState) (ws : List WriteResult) : Option PipeState :=
  let s := { s with fd1TimeoutSet := false, fd1TimeoutRound := s.fd1TimeoutRound + 1 }
  if s.fd1TimeoutRound ≥ 2 then s.finish env.dup ws else some { s with fd1TimeoutSet := true }

/-- `maybe_finish`: the last reference to one of the sides is gone. -/
def maybeFinish (env : PipeEnv) (s : PipeState) : Option PipeState :=
  if s.finished ∨ s.conn2fd1Ends.entries ≠ [] then some s
  else if s.bufferEmpty then s.finish env.dup []
  else s.setSendOnlyMode env.dup true

/-! ## Runs -/

end PipeState

/-- What happens to a pipe: the calls of the supervisor with the answers they get, a recorder
    that is deactivated, and what the rest of the supervisor does to epoll. -/
inductive PipeCall where
  | addFd1AndProc (fd1Conn fileFd proc : Nat) (recorders : List Nat) (hnd : recorders.Nodup)
  | handleClose (fileFd : Nat) (rs : List PipeState.ForwardRound) (ws : List WriteResult)
  | handleDup (oldFileFd newFileFd : Nat)
  | drainFd1End (fileFd : Nat) (rs : List PipeState.ForwardRound) (ws : List WriteResult)
  | pipeFd1ReadCb (fd : Nat) (readyForRead drain : Bool) (rs : List PipeState.ForwardRound) (ws : List WriteResult)
  | pipeFd0WriteCb (readyForWrite : Bool) (ws finishWs : List WriteResult)
  | fd1TimeoutCb (ws : List WriteResult)
  | setSendOnlyMode (mode : Bool)
  | forward (fd1 : Nat) (drain : Bool) (rs : List PipeState.ForwardRound)
  | sendBuf (ws : List WriteResult)
  | addDataFromFd (len : Nat) (r : ReadResult) (ws : List WriteResult)
  | addDataFromBuffer (d : Bytes) (ws : List WriteResult)
  | finish (ws : List WriteResult)
  | resetFd0Ptrs
  | resetFd1Ptrs
  | deactivate (recorder : Nat)
  | epollAdd (fd : Nat)
  | epollDel (fd : Nat)

namespace PipeCall

def run (env : PipeEnv) (s : PipeState) : PipeCall → Option PipeState
  | addFd1AndProc fd1Conn fileFd proc recorders hnd => s.addFd1AndProc fd1Conn fileFd proc recorders hnd
  | handleClose fileFd rs ws => s.handleClose env fileFd rs ws
  | handleDup oldFileFd newFileFd => some (s.handleDup oldFileFd newFileFd)
  | drainFd1End fileFd rs ws => s.drainFd1End env fileFd rs ws
  | pipeFd1ReadCb fd readyForRead drain rs ws => s.pipeFd1ReadCb env fd readyForRead drain rs ws
  | pipeFd0WriteCb readyForWrite ws finishWs => s.pipeFd0WriteCb env readyForWrite ws finishWs
  | fd1TimeoutCb ws => s.fd1TimeoutCb env ws
  | setSendOnlyMode mode => s.setSendOnlyMode env.dup mode
  | forward fd1 drain rs => (s.forward env fd1 drain rs).map Prod.snd
  | sendBuf ws => (s.sendBuf env.dup ws).map Prod.snd
  | addDataFromFd len r ws => s.addDataFromFd env.dup len r ws
  | addDataFromBuffer d ws => s.addDataFromBuffer env.dup d ws
  | finish ws => s.finish env.dup ws
  | resetFd0Ptrs => s.maybeFinish env
  | resetFd1Ptrs => (s.maybeFinish env).map fun s => { s with fd1PtrsHeld := false }
  | deactivate recorder => some { s with recs := Function.update s.recs recorder (s.recs recorder).deactivate }
  | epollAdd fd => (s.epoll.addFd fd).map fun ep => { s with epoll := ep }
  -- nobody else removes the fds of the pipe
  | epollDel fd =>
    if fd ∈ s.conn2fd1Ends ∨ s.fd0Conn = some fd then none else (s.epoll.delFd fd).map fun ep => { s with epoll := ep }

end PipeCall

/-- The states of a pipe in runs whose calls all satisfy a condition. -/
inductive PipeRun (ok : PipeEnv → PipeState → PipeCall → Prop) : PipeState → Prop
  | new (fd0 : Nat) (ends : Nat → PipeEnd) (fd1PtrsHeld : Bool) (epoll : Epoll) :
    PipeRun ok { fd0Conn := some fd0, ends, fd1PtrsHeld, epoll, recs := fun _ => {} }
  | call {s s' : PipeState} (env : PipeEnv) (c : PipeCall) (h : PipeRun ok s) (hok : ok env s c)
    (hrun : c.run env s = some s') : PipeRun ok s'

namespace PipeState

/-! ## Sending -/

variable {dup : Nat → Nat} {s s' : PipeState} {ws : List WriteResult} {r : PipeOpResult} {mode : Bool}

theorem finished_eq_false_iff : s.finished = false ↔ ∃ fd0, s.fd0Conn = some fd0 := by
  unfold finished
  cases s.fd0Conn with
  | none | some fd0 => simp

/-- What changing the mode leaves alone: everything but the fds and where they are
    registered. -/
theorem setSendOnlyMode_eq (h : s.setSendOnlyMode dup mode = some s') :
    ∃ fd0 m ep, s' = { s with fd0Conn := some fd0, conn2fd1Ends := m, epoll := ep, sendOnlyMode := mode } := by
  unfold setSendOnlyMode at h
  cases hfd : s.fd0Conn with
  | none => simp only [hfd] at h; cases h
  | some fd0 =>
    simp only [hfd] at h
    split at h
    · rename_i hmode
      cases h
      exact ⟨fd0, s.conn2fd1Ends, s.epoll, by rw [hmode, ← hfd]⟩
    split at h
    · rename_i hmode
      simp only [Option.bind_eq_bind, Option.bind_eq_some_iff] at h
      obtain ⟨ep1, _, ⟨fd, ep2⟩, _, ep3, _, h⟩ := h
      cases h
      exact ⟨fd, s.conn2fd1Ends, ep3, by rw [hmode]⟩
    · rename_i hmode
      simp only [Option.bind_eq_bind, Option.bind_eq_some_iff] at h
      obtain ⟨⟨later, ep1⟩, _, ⟨m, ep2⟩, _, ep3, _, h⟩ := h
      cases h
      exact ⟨fd0, m, ep3, by rw [Bool.eq_false_of_not_eq_true hmode]⟩

theorem bufferEmpty_iff : s.bufferEmpty = true ↔ s.buf.bytes = [] := by
  rw [LinearBuffer.bytes_eq_nil]
  exact beq_iff_eq

/-- `sendBuf`, answer by answer. -/
inductive Sending (dup : Nat → Nat) : PipeState → List WriteResult → PipeOpResult → PipeState → Prop
  | empty {s : PipeState} {ws : List WriteResult} (hopen : s.finished = false) (hempty : s.buf.bytes = []) :
    Sending dup s ws .success s
  | blocked {s s' : PipeState} {ws : List WriteResult} (hopen : s.finished = false) (hempty : s.buf.bytes ≠ [])
    (hws : ws = [] ∨ ws.head? = some .eagain) (h : s.setSendOnlyMode dup true = some s') : Sending dup s ws .wouldBlock s'
  | closed {s : PipeState} {w : WriteResult} {ws : List WriteResult} (hopen : s.finished = false) (hempty : s.buf.bytes ≠ [])
    (hw : w = .error ∨ w = .sent 0) : Sending dup s (w :: ws) .fd0Epipe { s with fd0Failed := true }
  | took {s s₁ s' : PipeState} {n : Nat} {ws : List WriteResult} {r : PipeOpResult} (hopen : s.finished = false)
    (hempty : s.buf.bytes ≠ [])
    (h₁ : if (s.took (n + 1)).bufferEmpty && s.sendOnlyMode then (s.took (n + 1)).setSendOnlyMode dup false = some s₁
      else s₁ = s.took (n + 1))
    (h : Sending dup s₁ ws r s') : Sending dup s (.sent (n + 1) :: ws) r s'

theorem sendBuf_sending (h : s.sendBuf dup ws = some (r, s')) : Sending dup s ws r s' := by
  induction ws generalizing s with
  | nil =>
    unfold sendBuf at h
    split at h
    · cases h
    rename_i hopen
    have hopen := Bool.eq_false_of_not_eq_true hopen
    split at h
    · rename_i hempty
      cases h
      exact .empty hopen (bufferEmpty_iff.mp hempty)
    rename_i hempty
    obtain ⟨s1, hmode, ⟨⟩⟩ := Option.map_eq_some_iff.mp h
    exact .blocked hopen (fun hb => hempty (bufferEmpty_iff.mpr hb)) (.inl rfl) hmode
  | cons w ws ih =>
    unfold sendBuf at h
    split at h
    · cases h
    rename_i hopen
    have hopen := Bool.eq_false_of_not_eq_true hopen
    split at h
    · rename_i hempty
      cases h
      exact .empty hopen (bufferEmpty_iff.mp hempty)
    rename_i hempty
    have hempty : s.buf.bytes ≠ [] := fun hb => hempty (bufferEmpty_iff.mpr hb)
    split at h
    · obtain ⟨s1, hmode, ⟨⟩⟩ := Option.map_eq_some_iff.mp h
      exact .blocked hopen hempty (.inr rfl) hmode
    · cases h
      exact .closed hopen hempty (.inl rfl)
    · cases h
      exact .closed hopen hempty (.inr rfl)
    rename_i n hn
    obtain ⟨n, rfl⟩ := Nat.exists_eq_succ_of_ne_zero hn
    split at h
    · rename_i hboth
      obtain ⟨s1, hset, hsend⟩ := Option.bind_eq_some_iff.mp h
      refine .took hopen hempty ?_ (ih hsend)
      rw [if_pos hboth]
      exact hset
    · rename_i hboth
      refine .took hopen hempty ?_ (ih h)
      rw [if_neg hboth]

/-- The pipe without its ends and fds. -/
def view (s : PipeState) : Pipe where
  sent := s.sent
  buf := s.buf.bytes
  sendOnlyMode := s.sendOnlyMode
  finished := s.finished
  proc2recorders := s.proc2recorders
  nodup := s.nodup

theorem setSendOnlyMode_view (hopen : s.finished = false) (h : s.setSendOnlyMode dup mode = some s') :
    s'.view = { s.view with sendOnlyMode := mode } := by
  obtain ⟨fd0, m, ep, rfl⟩ := setSendOnlyMode_eq h
  simp only [view, hopen]
  rfl

theorem took_view (s : PipeState) (n : Nat) :
    (s.took n).view = { s.view with sent := s.sent ++ s.buf.bytes.take n, buf := s.buf.bytes.drop n } := by
  simp only [view, took, LinearBuffer.bytes_discard]
  rfl

/-- Sending does to the pipe what it does without fds. -/
theorem sendBuf_view (h : s.sendBuf dup ws = some (r, s')) : s.view.sendBuf ws = (r, s'.view) := by
  replace h := sendBuf_sending h
  induction h with
  | @empty s ws hopen hempty => cases ws <;> exact if_pos hempty
  | @blocked s s' ws hopen hempty hws hmode =>
    rw [setSendOnlyMode_view hopen hmode]
    rcases hws with rfl | hws
    · exact if_neg hempty
    · obtain ⟨ws, rfl⟩ := List.head?_eq_some_iff.mp hws
      exact if_neg hempty
  | closed hopen hempty hw =>
    rcases hw with rfl | rfl <;> exact if_neg hempty
  | @took s s1 s' n ws r hopen hempty h1 hsend ih =>
    have hview : s1.view = { (s.took (n + 1)).view with
        sendOnlyMode := s.sendOnlyMode && (s.buf.bytes.drop (n + 1) != []) } := by
      have hnone : (s.took (n + 1)).bufferEmpty = true ↔ s.buf.bytes.drop (n + 1) = [] := by
        rw [bufferEmpty_iff, took, LinearBuffer.bytes_discard]
      split at h1
      · rename_i hboth
        obtain ⟨hb, _⟩ := Bool.and_eq_true_iff.mp hboth
        rw [setSendOnlyMode_view (show (s.took (n + 1)).finished = false from hopen) h1, hnone.mp hb]
        simp
      · rename_i hboth
        rw [h1]
        cases hmode : s.sendOnlyMode with
        | false => simp [view, took, hmode]
        | true =>
          have hsome : s.buf.bytes.drop (n + 1) ≠ [] := fun hd => hboth (by rw [hnone.mpr hd, hmode]; rfl)
          simp only [bne_iff_ne.mpr hsome, Bool.and_true, view, took, hmode]
    rw [Pipe.sendBuf, if_neg (show s.view.buf ≠ [] from hempty), ← ih, hview, took_view]
    · rfl
    · exact Nat.succ_ne_zero n

/-- Sending leaves the ends, the recorders and what arrived alone. -/
structure Sends (r : PipeOpResult) (s s' : PipeState) : Prop where
  only : ∃ fd0 m ep mode sent b closed, s' = { s with
    fd0Conn := some fd0, conn2fd1Ends := m, epoll := ep, sendOnlyMode := mode, sent := sent, buf := b
    fd0Failed := closed }
  stream : s'.sent ++ s'.buf.bytes = s.sent ++ s.buf.bytes
  keptClosed : s.fd0Failed = true → s'.fd0Failed = true
  epipe : r = .fd0Epipe → s'.fd0Failed = true
  success : r = .success → s'.buf.bytes = []

theorem Sends.trans (honly : ∃ fd0 m ep mode sent b closed, s1 = { s with
      fd0Conn := some fd0, conn2fd1Ends := m, epoll := ep, sendOnlyMode := mode, sent := sent, buf := b
      fd0Failed := closed })
    (hstream : s1.sent ++ s1.buf.bytes = s.sent ++ s.buf.bytes) (hkept : s.fd0Failed = true → s1.fd0Failed = true)
    (h : Sends r s1 s') : Sends r s s' := by
  obtain ⟨fd0, m, ep, mode, sent, b, closed, rfl⟩ := honly
  obtain ⟨fd0', m', ep', mode', sent', b', closed', hs'⟩ := h.only
  exact ⟨⟨fd0', m', ep', mode', sent', b', closed', hs'⟩, h.stream.trans hstream, fun hc => h.keptClosed (hkept hc),
    h.epipe, h.success⟩

theorem setSendOnlyMode_sends (h : s.setSendOnlyMode dup mode = some s') : Sends .wouldBlock s s' := by
  obtain ⟨fd0, m, ep, rfl⟩ := setSendOnlyMode_eq h
  exact ⟨⟨fd0, m, ep, mode, s.sent, s.buf, s.fd0Failed, rfl⟩, rfl, id, nofun, nofun⟩

theorem sendBuf_sends (h : s.sendBuf dup ws = some (r, s')) : Sends r s s' := by
  replace h := sendBuf_sending h
  induction h with
  | empty hopen hempty =>
    obtain ⟨fd0, hfd⟩ := finished_eq_false_iff.mp hopen
    exact ⟨⟨fd0, _, _, _, _, _, _, by rw [← hfd]⟩, rfl, id, nofun, fun _ => hempty⟩
  | blocked _ _ _ hmode => exact setSendOnlyMode_sends hmode
  | closed hopen _ _ =>
    obtain ⟨fd0, hfd⟩ := finished_eq_false_iff.mp hopen
    exact ⟨⟨fd0, _, _, _, _, _, _, by rw [← hfd]⟩, rfl, fun _ => rfl, fun _ => rfl, nofun⟩
  | @took s s1 s' n ws r hopen _ h1 _ ih =>
    have htook : (s.took (n + 1)).sent ++ (s.took (n + 1)).buf.bytes = s.sent ++ s.buf.bytes := by simp [took]
    split at h1
    · obtain ⟨fd0, m, ep, rfl⟩ := setSendOnlyMode_eq h1
      exact ih.trans ⟨fd0, m, ep, _, _, _, _, rfl⟩ htook id
    subst h1
    obtain ⟨fd0, hfd⟩ := finished_eq_false_iff.mp hopen
    refine ih.trans ⟨fd0, s.conn2fd1Ends, s.epoll, s.sendOnlyMode, (s.took (n + 1)).sent, (s.took (n + 1)).buf,
      s.fd0Failed, ?_⟩ htook id
    rw [← hfd]
    rfl

theorem Sends.open (h : Sends r s s') : s'.finished = false := by
  obtain ⟨fd0, m, ep, mode, sent, b, closed, rfl⟩ := h.only
  rfl

theorem not_finished_of_sendBuf (h : s.sendBuf dup ws = some (r, s')) : s.finished = false := by
  cases sendBuf_sending h with
  | empty hopen _ | blocked hopen _ _ _ | closed hopen _ _ | took hopen _ _ _ => exact hopen

/-- What a replay adds is delayed, blocked and sent as by the abstract pipe. -/
theorem addDataFromBuffer_view (h : s.addDataFromBuffer dup d ws = some s') :
    s.view.addDataFromBuffer ws d = some s'.view := by
  unfold addDataFromBuffer at h
  unfold Pipe.addDataFromBuffer
  split at h
  · rename_i hd
    cases h
    rw [if_pos hd]
  rename_i hd
  obtain ⟨⟨r, s1⟩, hsend, ⟨⟩⟩ := Option.map_eq_some_iff.mp h
  have hopen := not_finished_of_sendBuf hsend
  have hview := sendBuf_view hsend
  simp only [view, LinearBuffer.bytes_add] at hview
  rw [if_neg hd, if_neg (show ¬s.view.finished = true from fun hf => Bool.false_ne_true (hopen.symm.trans hf))]
  exact congrArg (fun r => some r.2) hview

theorem addDataFromBuffer_view_blocked :
    let s : PipeState := { fd0Conn := some 3, ends := fun _ => ⟨4, ∅, [], List.nodup_nil⟩, recs := fun _ => {} }
    ∃ s', s.addDataFromBuffer id [1, 2, 3] [.sent 2, .eagain] = some s' ∧
      s.view.addDataFromBuffer [.sent 2, .eagain] [1, 2, 3] = some s'.view ∧ s'.view.sendOnlyMode = true := by
  intro s
  have h : s.addDataFromBuffer id [1, 2, 3] [.sent 2, .eagain] = some _ := rfl
  exact ⟨_, h, addDataFromBuffer_view h, rfl⟩

/-- One round of `forward`: nothing is read, or what is read is recorded and sent, and then there may be more. -/
theorem forwardLoop_cons {round : ForwardRound}
    (h : s.forwardLoop env e drain (round :: rs) = some (res, s')) :
    ∃ s1 x b, (if s.bufferEmpty then s.forwardDirect env e round.direct else some s) = some s1 ∧
      s1.buf.readAll round.read = (x, b) ∧
      ((x = .ok 0 ∨ ∃ err, x = .error err) ∧ (∃ r, sendBuf env.dup { s1 with buf := b } round.writes = some (r, s') ∧
          (res = .fd1Eof ∨ res = .sending r)) ∨
        ∃ n s2 r s3, x = .ok (n + 1) ∧ s1.received env e (n + 1) b = some s2 ∧
          s2.sendBuf env.dup round.writes = some (r, s3) ∧
          (drain = true ∧ r ≠ .fd0Epipe ∧ s3.forwardLoop env e drain rs = some (res, s') ∨
            ¬(drain = true ∧ r ≠ .fd0Epipe) ∧ res = .sending r ∧ s' = s3)) := by
  rw [forwardLoop] at h
  split at h
  · cases h
  rename_i s1 hdirect
  obtain ⟨⟨x, b⟩, hx⟩ : ∃ answer, s1.buf.readAll round.read = answer := ⟨_, rfl⟩
  rw [hx] at h
  refine ⟨s1, x, b, hdirect, hx, ?_⟩
  cases x with
  | error err =>
    refine .inl ⟨.inr ⟨err, rfl⟩, ?_⟩
    cases err with
    | eagain =>
      obtain ⟨⟨r, s2⟩, hsend, ⟨⟩⟩ := Option.map_eq_some_iff.mp h
      exact ⟨r, hsend, .inr rfl⟩
    | other =>
      obtain ⟨⟨r, s2⟩, hsend, ⟨⟩⟩ := Option.map_eq_some_iff.mp h
      exact ⟨r, hsend, .inl rfl⟩
  | ok n =>
    cases n with
    | zero =>
      obtain ⟨⟨r, s2⟩, hsend, ⟨⟩⟩ := Option.map_eq_some_iff.mp h
      exact .inl ⟨.inl rfl, r, hsend, .inl rfl⟩
    | succ n =>
      simp only at h
      split at h
      · cases h
      rename_i r s3 hbind
      obtain ⟨s2, hreceived, hsend⟩ := Option.bind_eq_some_iff.mp hbind
      refine .inr ⟨n, s2, r, s3, rfl, hreceived, hsend, ?_⟩
      split at h
      · rename_i hmore
        exact .inl ⟨hmore.1, hmore.2, h⟩
      rename_i hstop
      cases h
      exact .inr ⟨hstop, rfl, rfl⟩

end PipeState
end Firebuild
