/-
  Firebuild.Attribution — whose data the recorders of a pipe get (`message_processor.cc`:
  `accept_exec_child`; `pipe.cc`: `add_fd1_and_proc`, `forward`;
  `execed_process_cacher.cc`: the pipes in `apply_shortcut`).

  An exec()ed process that inherits the pipe gets an end of its own. What comes through it is
  recorded for the process itself, if it can be shortcut, and for all those its exec parent
  has the recorders of (`proc2recorders`). When a process is shortcut, its data is recorded for
  the recorders of its exec parent.

  Two things break this. The data of a compressed blob is not recorded when it is replayed. And a
  process whose end is not reopened (the pipe of a jobserver) gets no entry in
  `proc2recorders`: `operator[]` makes an empty one for its children, whose data is
  recorded for nobody above them.

  Otherwise `recording_is_attributed`; `a_replayed_descendant_is_not_recorded` and
  `below_a_skipped_process_is_not_recorded` are the two exceptions.
-/

import Firebuild.PipeReplay
import Firebuild.Draining

namespace Firebuild

open Function (update update_of_ne update_self)
open List
open Option (bind_eq_some_iff map_eq_some_iff mem_toList)
namespace PipeState

variable {dup : Nat → Nat} {env : PipeEnv} {s s' s1 : PipeState} {ws : List WriteResult} {e : Nat}
  {t : List (Option Nat × Bytes)}

/-! ## Replaying -/

def recordersOf (s : PipeState) (proc : Option Nat) : List Nat := s.view.recordersOf proc

def bubbleUp (parent : Option Nat) (record : List Nat → (Nat → PipeRecorder) → Option (Nat → PipeRecorder))
    (s : PipeState) : Option PipeState :=
  match parent with
  | none => some s
  | some _ => (record (s.recordersOf parent) s.recs).map fun recs => { s with recs }

def replay (env : PipeEnv) (s : PipeState) (parent : Option Nat) (d : Bytes) (ws : List WriteResult) :
    StorageForm → Option PipeState
  | .inlined => (s.addDataFromBuffer env.dup d ws).bind (bubbleUp parent (recordDataFromBuffer env.alloc env.maxInline d))
  | .plainBlob =>
    (s.addDataFromFd env.dup d.length (.data (d.take Pipe.maxReadSize)) ws).bind
      (bubbleUp parent (recordDataFromRegularFd env.alloc env.maxInline d d.length))
  | .compressedBlob => s.addDataFromBuffer env.dup d ws

def replayed (d : Bytes) : StorageForm → Bytes
  | .plainBlob => d.take Pipe.maxReadSize
  | .inlined | .compressedBlob => d

def recordsReplayed : StorageForm → Bool
  | .compressedBlob => false
  | .inlined | .plainBlob => true

variable {env : PipeEnv} {s s' s1 : PipeState} {ws : List WriteResult} {parent : Option Nat} {d : Bytes}
  {form : StorageForm} {dup : Nat → Nat}

/-- Data is put into the pipe that did not come through an end. -/
structure Adds (d : Bytes) (s s' : PipeState) : Prop where
  nextEnd : s'.nextEnd = s.nextEnd
  procs : s'.proc2recorders = s.proc2recorders
  ends : s'.ends = s.ends
  recs : s'.recs = s.recs
  arrived : ∃ t, s'.arrived = s.arrived ++ t ∧ (∀ x ∈ t, x.1 = none) ∧ t.flatMap Prod.snd = d

theorem Adds.of_sent
    (h : (sendBuf dup { s with buf := b, arrived := s.arrived ++ [(none, d)] } ws).map Prod.snd = some s') : Adds d s s' := by
  obtain ⟨⟨r, s1⟩, hsend, rfl⟩ := map_eq_some_iff.mp h
  obtain ⟨fd0, m, ep, mode, sent, b', closed, rfl⟩ := (sendBuf_sends hsend).only
  exact ⟨rfl, rfl, rfl, rfl, [(none, d)], rfl, by simp, by simp⟩

theorem addDataFromBuffer_adds (h : s.addDataFromBuffer dup d ws = some s') : Adds d s s' := by
  unfold addDataFromBuffer at h
  split at h
  · rename_i hd
    cases h
    exact ⟨rfl, rfl, rfl, rfl, [], by simp [hd]⟩
  · exact .of_sent h

theorem addDataFromFd_adds (h : s.addDataFromFd dup d.length (.data (d.take Pipe.maxReadSize)) ws = some s') :
    Adds (d.take Pipe.maxReadSize) s s' := by
  unfold addDataFromFd at h
  split at h
  · rename_i hlen
    cases h
    exact ⟨rfl, rfl, rfl, rfl, [], by simp [length_eq_zero_iff.mp hlen]⟩
  have hbytes : (s.buf.readAtMost d.length (.data (d.take Pipe.maxReadSize))).2.bytes.drop s.buf.length =
      d.take Pipe.maxReadSize := by
    have hread : (s.buf.readAtMost d.length (.data (d.take Pipe.maxReadSize))).2.bytes =
        s.buf.bytes ++ (d.take Pipe.maxReadSize).take d.length := by
      simp [LinearBuffer.readAtMost, LinearBuffer.readInto]
    rw [hread, ← LinearBuffer.length_bytes, drop_left, take_of_length_le]
    rw [length_take]
    omega
  dsimp only at h
  rw [hbytes] at h
  exact .of_sent h

theorem bubbleUp_records (h : bubbleUp parent (recordDataFromBuffer env.alloc env.maxInline d) s = some s') :
    (∃ recs, s' = { s with recs }) ∧
      ((∀ n, env.alloc n = true) → Records d (s.recordersOf parent) s.recs s'.recs) := by
  unfold bubbleUp at h
  split at h
  · cases h
    refine ⟨⟨s.recs, rfl⟩, fun _ r hr => ⟨hr, fun hexact => ⟨hexact, ?_⟩⟩⟩
    simp [recordersOf, Pipe.recordersOf]
  · obtain ⟨recs, hrecord, rfl⟩ := map_eq_some_iff.mp h
    exact ⟨⟨recs, rfl⟩, fun halloc => recordDataFromBuffer_records halloc (s.view.recordersOf_nodup _) hrecord⟩

/-- What replaying leaves alone, what it puts into the pipe and who records it. -/
structure Replays (env : PipeEnv) (parent : Option Nat) (d : Bytes) (form : StorageForm) (s s' : PipeState) : Prop where
  nextEnd : s'.nextEnd = s.nextEnd
  procs : s'.proc2recorders = s.proc2recorders
  ends : s'.ends = s.ends
  arrived : ∃ t, s'.arrived = s.arrived ++ t ∧ (∀ x ∈ t, x.1 = none) ∧ t.flatMap Prod.snd = replayed d form
  records : (∀ n, env.alloc n = true) →
    Records (if recordsReplayed form then d else []) (s.recordersOf parent) s.recs s'.recs

theorem recordersOf_eq (h : s1.proc2recorders = s.proc2recorders) (parent : Option Nat) :
    s1.recordersOf parent = s.recordersOf parent := recordersOf_congr h parent

/-- First the pipe, then the recorders of the parent. -/
theorem Adds.bubbleUp (h : Adds (replayed d form) s s1) (hform : recordsReplayed form = true)
    (hb : PipeState.bubbleUp parent (recordDataFromBuffer env.alloc env.maxInline d) s1 = some s') :
    Replays env parent d form s s' := by
  obtain ⟨⟨recs, rfl⟩, hrecords⟩ := bubbleUp_records hb
  rw [recordersOf_eq h.procs, h.recs] at hrecords
  refine { h with records := fun halloc => ?_ }
  rw [hform]
  exact hrecords halloc

theorem replay_spec (h : s.replay env parent d ws form = some s') : Replays env parent d form s s' := by
  cases form with
  | inlined =>
    obtain ⟨s1, hadd, hb⟩ := bind_eq_some_iff.mp h
    have hadds : Adds (replayed d .inlined) s s1 := addDataFromBuffer_adds hadd
    exact hadds.bubbleUp rfl hb
  | plainBlob =>
    obtain ⟨s1, hadd, hb⟩ := bind_eq_some_iff.mp h
    have hadds : Adds (replayed d .plainBlob) s s1 := addDataFromFd_adds hadd
    refine hadds.bubbleUp rfl ?_
    unfold PipeState.bubbleUp at hb ⊢
    simp only [recordDataFromRegularFd_eq] at hb
    exact hb
  | compressedBlob =>
    have hadds : Adds d s s' := addDataFromBuffer_adds h
    refine { hadds with records := fun _ => ?_ }
    rw [hadds.recs]
    exact .nil _ _

theorem Delivering.withRecs (h : Delivering False False s) (recs : Nat → PipeRecorder) :
    Delivering False False { s with recs } := ⟨h.stream, nofun, h.known, nofun⟩

/-- Replaying keeps the books, and what was sent and is buffered is what arrived. -/
theorem replay_keeps (h : s.replay env parent d ws form = some s') (hb : Booked False s)
    (hd : Delivering False False s) : Booked False s' ∧ Delivering False False s' := by
  have hcall : ∀ {c : PipeCall} {s1 : PipeState}, c.run env s = some s1 → Booked False s1 ∧ Delivering False False s1 :=
    fun hrun => ⟨(PipeCall.run_books hb False.elim hrun).booked, PipeCall.run_delivers False.elim False.elim hd hb hrun⟩
  have hrecs : ∀ {record} {s1 : PipeState}, Booked False s1 ∧ Delivering False False s1 →
      PipeState.bubbleUp parent record s1 = some s' → Booked False s' ∧ Delivering False False s' := by
    rintro record s1 ⟨hb1, hd1⟩ hrecord
    unfold PipeState.bubbleUp at hrecord
    split at hrecord
    · cases hrecord
      exact ⟨hb1, hd1⟩
    · obtain ⟨recs, _, rfl⟩ := map_eq_some_iff.mp hrecord
      exact ⟨hb1.congr rfl, hd1.withRecs recs⟩
  cases form with
  | inlined =>
    obtain ⟨s1, hadd, hrecord⟩ := bind_eq_some_iff.mp h
    exact hrecs (hcall (c := .addDataFromBuffer d ws) hadd) hrecord
  | plainBlob =>
    obtain ⟨s1, hadd, hrecord⟩ := bind_eq_some_iff.mp h
    exact hrecs (hcall (c := .addDataFromFd d.length (.data (d.take Pipe.maxReadSize)) ws) hadd) hrecord
  | compressedBlob => exact hcall (c := .addDataFromBuffer d ws) h

end PipeState

/-! ## The tree -/

open PipeState

/-- A pipe, and the exec()ed processes that inherited its writing end. -/
structure PipeTree where
  pipe : PipeState
  /-- A process and its exec parents that have the pipe, the nearest first; nothing for others. -/
  line : Nat → List Nat := fun _ => []
  /-- The recorder of a process for the pipe. -/
  own : Nat → Option Nat := fun _ => none
  /-- The process that an end was opened for. -/
  owner : Nat → Nat := fun _ => 0
  /-- What was put into the pipe, and by which process. -/
  put : List (Nat × Bytes) := []

inductive TreeEvent where
  /-- A process gets an end of its own. The one that created the pipe has no recorder, and no
      parent in the tree. -/
  | accept (proc : Nat) (parent own : Option Nat) (fd1Conn fileFd : Nat)
  /-- A process that gets no end: it is shortcut, or the pipe is that of its jobserver. -/
  | enter (proc : Nat) (parent : Option Nat)
  /-- Data of a process that is shortcut. -/
  | replay (proc : Nat) (d : Bytes) (form : StorageForm) (ws : List WriteResult)
  | call (c : PipeCall)

namespace PipeTree

def lineOf (w : PipeTree) (parent : Option Nat) : List Nat := parent.elim [] w.line

def parentExecPoint (w : PipeTree) (proc : Nat) : Option Nat := (w.line proc).tail.head?

def newRecorder (recs : Nat → PipeRecorder) : Option Nat → Nat → PipeRecorder
  | none => recs
  | some r => update recs r {}

/-- `accept_exec_child` of a process that is not shortcut: the recorders of the parent, and a new
    one if the process can be shortcut -/
def accept (w : PipeTree) (proc : Nat) (parent own : Option Nat) (fd1Conn fileFd : Nat) : Option PipeTree :=
  if hnd : (w.pipe.recordersOf parent ++ own.toList).Nodup then
    (addFd1AndProc { w.pipe with recs := newRecorder w.pipe.recs own } fd1Conn fileFd proc
      (w.pipe.recordersOf parent ++ own.toList) hnd).map fun pipe =>
        { w with
          pipe, line := update w.line proc (proc :: w.lineOf parent)
          own := update w.own proc own, owner := update w.owner w.pipe.nextEnd proc }
  else none

def enter (w : PipeTree) (proc : Nat) (parent : Option Nat) : PipeTree :=
  { w with line := update w.line proc (proc :: w.lineOf parent) }

/-- What arrived since, as put into the pipe by the process of the end or by the one that is
    shortcut. -/
def arrivedBy (w : PipeTree) (proc : Nat) (s : PipeState) : List (Nat × Bytes) :=
  (s.arrived.drop w.pipe.arrived.length).map fun x => (x.1.elim proc w.owner, x.2)

def run (env : PipeEnv) (w : PipeTree) : TreeEvent → Option PipeTree
  | .accept proc parent own fd1Conn fileFd => w.accept proc parent own fd1Conn fileFd
  | .enter proc parent => some (w.enter proc parent)
  | .replay proc d form ws =>
    (w.pipe.replay env (w.parentExecPoint proc) d ws form).map fun pipe =>
      { w with pipe, put := w.put ++ w.arrivedBy proc pipe }
  | .call c => (c.run env w.pipe).map fun pipe => { w with pipe, put := w.put ++ w.arrivedBy 0 pipe }

def below (w : PipeTree) (proc : Nat) : Bytes := (w.put.filter fun x => proc ∈ w.line x.1).flatMap Prod.snd

def Opened (w : PipeTree) (proc : Nat) : Prop := ∃ e < w.pipe.nextEnd, w.owner e = proc

/-- The process or one above it has an active recorder. -/
def Recording (w : PipeTree) (proc : Nat) : Prop :=
  ∃ above ∈ w.line proc, ∃ r, w.own above = some r ∧ (w.pipe.recs r).Active

/-- Processes and recorders are new when they appear. -/
def Valid (w : PipeTree) : TreeEvent → Prop
  | .accept proc _ own _ _ => w.line proc = [] ∧ ∀ r, own = some r → ∀ q, w.own q ≠ some r
  | .enter proc _ => w.line proc = []
  | .replay proc _ _ _ => w.line proc ≠ [] ∧ w.own proc = none
  | .call c => c.Plain

/-- Below a process that is recorded, the parent of a process has an end, and replayed data is
    not in a compressed blob, and is read by one read(). -/
def Followed (w : PipeTree) : TreeEvent → Prop
  | .accept _ parent _ _ _ => ∀ p, parent = some p → w.Recording p → w.Opened p
  | .replay proc d form _ =>
    ∀ p, w.parentExecPoint proc = some p → w.Recording p →
      w.Opened p ∧ (form = .compressedBlob → d = []) ∧ (form = .plainBlob → d.length ≤ Pipe.maxReadSize)
  | _ => True

end PipeTree

inductive TreeRun (ok : PipeEnv → PipeTree → TreeEvent → Prop) : PipeTree → Prop
  | new (fd0 : Nat) (ends : Nat → PipeEnd) (fd1PtrsHeld : Bool) (epoll : Epoll) :
    TreeRun ok { pipe := { fd0Conn := some fd0, ends, fd1PtrsHeld, epoll, recs := fun _ => {} } }
  | event {w w' : PipeTree} (env : PipeEnv) (ev : TreeEvent) (h : TreeRun ok w) (hvalid : w.Valid ev) (hok : ok env w ev)
    (hrun : w.run env ev = some w') : TreeRun ok w'

namespace PipeTree

variable {env : PipeEnv} {w w' : PipeTree}

structure Attributed (w : PipeTree) : Prop where
  booked : Booked False w.pipe
  delivering : Delivering False False w.pipe
  stream : w.put.flatMap Prod.snd = w.pipe.arrivedBytes
  putKnown : ∀ x ∈ w.put, w.line x.1 ≠ []
  ownerKnown : ∀ e < w.pipe.nextEnd, w.line (w.owner e) ≠ []
  lineKnown : ∀ q, ∀ p ∈ w.line q, w.line p ≠ []
  lineShape : ∀ q, w.line q ≠ [] → w.line q = q :: w.lineOf (w.parentExecPoint q)
  ownKnown : ∀ p r, w.own p = some r → w.line p ≠ []
  ownInj : ∀ p q r, w.own p = some r → w.own q = some r → p = q
  endsOwn : ∀ e < w.pipe.nextEnd, ∀ r ∈ (w.pipe.ends e).recorders, ∃ p ∈ w.line (w.owner e), w.own p = some r
  endsAll : ∀ e < w.pipe.nextEnd, ∀ p ∈ w.line (w.owner e), ∀ r, w.own p = some r → (w.pipe.recs r).Active →
    r ∈ (w.pipe.ends e).recorders
  procsOwn : ∀ q, ∀ r ∈ w.pipe.proc2recorders q, ∃ p ∈ w.line q, w.own p = some r
  procsAll : ∀ q, w.Opened q → ∀ p ∈ w.line q, ∀ r, w.own p = some r → (w.pipe.recs r).Active →
    r ∈ w.pipe.proc2recorders q
  recorded : ∀ p r, w.own p = some r → (w.pipe.recs r).Active →
    (w.pipe.recs r).data.bytes = w.below p ∧ (w.pipe.recs r).data.Exact

theorem new_attributed (fd0 : Nat) (ends : Nat → PipeEnd) (fd1PtrsHeld : Bool) (epoll : Epoll) :
    Attributed { pipe := { fd0Conn := some fd0, ends, fd1PtrsHeld, epoll, recs := fun _ => {} } } := by
  have hnone : ∀ e, ¬PipeState.HasEnd { fd0Conn := some fd0, ends, fd1PtrsHeld, epoll, recs := fun _ => {} } e := by
    rintro e ⟨c, hc⟩
    cases hc
  refine ⟨.of_empty hnone fun f e hf => ?_, ⟨rfl, nofun, nofun, nofun⟩, rfl, by simp,
    nofun, by simp, by simp, nofun, nofun, nofun,
    nofun, by simp, by simp, nofun⟩
  cases hf

/-! ## A process without an end -/

variable {proc q fd1Conn fileFd : Nat} {parent own : Option Nat} {s : PipeState} {t : List (Option Nat × Bytes)}

theorem Attributed.ne_proc (h : Attributed w) (hproc : w.line proc = []) (hp : p ∈ w.line q) : p ≠ proc :=
  fun heq => h.lineKnown q p hp (heq ▸ hproc)

theorem enter_line (hproc : w.line proc = []) (hq : w.line q ≠ []) : (w.enter proc parent).line q = w.line q := by
  have hne : q ≠ proc := by
    rintro rfl
    exact hq hproc
  exact update_of_ne hne ..

section

variable (h : Attributed w) (hproc : w.line proc = [])
include h hproc

theorem enter_below (p : Nat) : (w.enter proc parent).below p = w.below p := by
  unfold below
  congr 1
  refine filter_congr fun x hx => ?_
  rw [enter_line hproc (h.putKnown x hx)]

/-- The line of a process is that of its exec parent and the process itself. -/
theorem enter_shape (hq : (w.enter proc parent).line q ≠ []) :
    (w.enter proc parent).line q = q :: (w.enter proc parent).lineOf ((w.enter proc parent).parentExecPoint q) := by
  have hold : ∀ p, (∀ x, p = some x → w.line x ≠ []) → (w.enter proc parent).lineOf p = w.lineOf p := by
    intro p hp
    cases p with
    | none => rfl
    | some x => exact enter_line hproc (hp x rfl)
  by_cases hqp : q = proc
  · have hself : (w.enter proc parent).line q = q :: w.lineOf parent := by
      rw [hqp]
      exact update_self ..
    rw [parentExecPoint, hself]
    congr 1
    cases parent with
    | none => rfl
    | some x =>
      show w.line x = (w.enter proc (some x)).lineOf (w.line x).head?
      by_cases hx : w.line x = []
      · rw [hx]
        rfl
      · rw [h.lineShape x hx, List.head?_cons, hold (some x) fun y hy => by cases hy; exact hx]
        exact (h.lineShape x hx).symm
  · have hsame : (w.enter proc parent).line q = w.line q := update_of_ne hqp ..
    rw [hsame] at hq
    rw [parentExecPoint, hsame, hold]
    · exact h.lineShape q hq
    intro x hx
    have hmem : x ∈ w.line q := mem_of_mem_tail (mem_of_head? hx)
    exact h.lineKnown q x hmem

theorem enter_attributed : Attributed (w.enter proc parent) := by
  have hline : ∀ {q : Nat}, w.line q ≠ [] → (w.enter proc parent).line q = w.line q := enter_line hproc
  have hself : (w.enter proc parent).line proc = proc :: w.lineOf parent := update_self ..
  have hknown : ∀ {q : Nat}, w.line q ≠ [] → (w.enter proc parent).line q ≠ [] := by
    intro q hq
    rw [hline hq]
    exact hq
  constructor
  case booked => exact h.booked
  case delivering => exact h.delivering
  case stream => exact h.stream
  case putKnown => exact fun x hx => hknown (h.putKnown x hx)
  case ownerKnown => exact fun e he => hknown (h.ownerKnown e he)
  case lineKnown =>
    intro q p hp
    by_cases hq : q = proc
    · rw [hq, hself] at hp
      rcases mem_cons.mp hp with rfl | hp
      · rw [hself]
        exact cons_ne_nil _ _
      cases parent with
      | none => exact absurd hp not_mem_nil
      | some pp => exact hknown (h.lineKnown pp p hp)
    · have hsame : (w.enter proc parent).line q = w.line q := update_of_ne hq ..
      rw [hsame] at hp
      exact hknown (h.lineKnown q p hp)
  case lineShape => exact fun q hq => enter_shape h hproc hq
  case ownKnown => exact fun p r hr => hknown (h.ownKnown p r hr)
  case ownInj => exact h.ownInj
  case endsOwn =>
    intro e he r hr
    rw [show (w.enter proc parent).owner = w.owner from rfl, hline (h.ownerKnown e he)]
    exact h.endsOwn e he r hr
  case endsAll =>
    intro e he p hp
    rw [show (w.enter proc parent).owner = w.owner from rfl, hline (h.ownerKnown e he)] at hp
    exact h.endsAll e he p hp
  case procsOwn =>
    intro q r hr
    obtain ⟨p, hp, hown⟩ := h.procsOwn q r hr
    refine ⟨p, ?_, hown⟩
    rw [hline (ne_nil_of_mem hp)]
    exact hp
  case procsAll =>
    rintro q ⟨e, he, rfl⟩ p hp
    rw [show (w.enter proc parent).owner = w.owner from rfl, hline (h.ownerKnown e he)] at hp
    exact h.procsAll _ ⟨e, he, rfl⟩ p hp
  case recorded =>
    intro p r hr hactive
    rw [enter_below h hproc]
    exact h.recorded p r hr hactive

end

/-! ## A process with an end -/

theorem newRecorder_of_ne {recs : Nat → PipeRecorder} (h : own ≠ some r) :
    newRecorder recs own r = recs r := by
  cases own with
  | none => rfl
  | some r' => exact update_of_ne (fun heq => h (by rw [heq])) ..

structure Accepts (proc : Nat) (parent own : Option Nat) (w w' : PipeTree) : Prop where
  booked : Booked False w'.pipe
  delivering : Delivering False False w'.pipe
  arrived : w'.pipe.arrived = w.pipe.arrived
  put : w'.put = w.put
  line : w'.line = (w.enter proc parent).line
  owns : w'.own = update w.own proc own
  owner : w'.owner = update w.owner w.pipe.nextEnd proc
  nextEnd : w'.pipe.nextEnd = w.pipe.nextEnd + 1
  recs : w'.pipe.recs = newRecorder w.pipe.recs own
  ends : ∀ e < w.pipe.nextEnd, w'.pipe.ends e = w.pipe.ends e
  newEnd : (w'.pipe.ends w.pipe.nextEnd).recorders = w.pipe.recordersOf parent ++ own.toList
  procs : w'.pipe.proc2recorders =
    update w.pipe.proc2recorders proc (w.pipe.recordersOf parent ++ own.toList)

theorem accept_accepts (h : Attributed w)
    (hrun : w.accept proc parent own fd1Conn fileFd = some w') : Accepts proc parent own w w' := by
  unfold accept at hrun
  split at hrun
  · rename_i hnd
    obtain ⟨pipe, hadd, rfl⟩ := map_eq_some_iff.mp hrun
    have hcall : (PipeCall.addFd1AndProc fd1Conn fileFd proc (w.pipe.recordersOf parent ++ own.toList) hnd).run { dup := id }
        { w.pipe with recs := newRecorder w.pipe.recs own } = some pipe := hadd
    have hbooked : Booked False { w.pipe with recs := newRecorder w.pipe.recs own } := h.booked.congr rfl
    have hbooked' := (PipeCall.run_books hbooked False.elim hcall).booked
    have hdelivering' := PipeCall.run_delivers False.elim False.elim (h.delivering.withRecs _) hbooked hcall
    obtain ⟨_, ep, rfl⟩ := PipeCall.addFd1AndProc_eq hadd
    refine ⟨hbooked', hdelivering', rfl, rfl, rfl, rfl, rfl, rfl, rfl, fun e he => update_of_ne he.ne .., ?_, rfl⟩
    show (update w.pipe.ends w.pipe.nextEnd _ w.pipe.nextEnd).recorders = _
    rw [update_self]
  · cases hrun

namespace Accepts

variable {own : Option Nat} {p q r e : Nat}

variable (ha : Accepts proc parent own w w')
include ha

theorem line_self : w'.line proc = proc :: w.lineOf parent := by
  rw [ha.line]
  exact update_self ..

theorem line_old (hproc : w.line proc = []) (hq : w.line q ≠ []) : w'.line q = w.line q := by
  rw [ha.line]
  exact enter_line hproc hq

theorem own_cases (hr : w'.own p = some r) : p = proc ∧ own = some r ∨ p ≠ proc ∧ w.own p = some r := by
  rw [ha.owns] at hr
  by_cases hp : p = proc
  · rw [hp, update_self] at hr
    exact .inl ⟨hp, hr⟩
  · rw [update_of_ne hp] at hr
    exact .inr ⟨hp, hr⟩

theorem own_old (h : Attributed w) (hproc : w.line proc = []) (hr : w.own p = some r) : w'.own p = some r := by
  have hne : p ≠ proc := by
    rintro rfl
    exact h.ownKnown p r hr hproc
  rw [ha.owns, update_of_ne hne]
  exact hr

theorem recs_old (hown : ∀ r, own = some r → ∀ q, w.own q ≠ some r)
    (hr : w.own p = some r) : w'.pipe.recs r = w.pipe.recs r := by
  rw [ha.recs]
  exact newRecorder_of_ne fun heq => hown r heq p hr

theorem owner_cases (he : e < w'.pipe.nextEnd) :
    e < w.pipe.nextEnd ∧ w'.owner e = w.owner e ∨ e = w.pipe.nextEnd ∧ w'.owner e = proc := by
  rw [ha.nextEnd] at he
  rw [ha.owner]
  rcases Nat.lt_succ_iff_lt_or_eq.mp he with he | rfl
  · exact .inl ⟨he, update_of_ne he.ne ..⟩
  · exact .inr ⟨rfl, update_self ..⟩

/-- The recorders of the new end are those of the process and of the processes above it. -/
theorem mem_line_of_mem (h : Attributed w) (hproc : w.line proc = [])
    (hr : r ∈ w.pipe.recordersOf parent ++ own.toList) : ∃ p ∈ w'.line proc, w'.own p = some r := by
  rw [ha.line_self]
  rcases mem_append.mp hr with hr | hr
  · cases parent with
    | none => exact absurd hr not_mem_nil
    | some pp =>
      obtain ⟨p, hp, hpr⟩ := h.procsOwn pp r hr
      exact ⟨p, mem_cons_of_mem _ hp, ha.own_old h hproc hpr⟩
  · refine ⟨proc, mem_cons_self, ?_⟩
    rw [ha.owns, update_self]
    exact mem_toList.mp hr

theorem mem_of_mem_line (h : Attributed w)
    (hown : ∀ r, own = some r → ∀ q, w.own q ≠ some r) (hfollowed : ∀ p, parent = some p → w.Recording p → w.Opened p)
    (hp : p ∈ w'.line proc) (hr : w'.own p = some r) (hactive : (w'.pipe.recs r).Active) :
    r ∈ w.pipe.recordersOf parent ++ own.toList := by
  rcases ha.own_cases hr with ⟨_, hr⟩ | ⟨hne, hr⟩
  · exact mem_append_right _ (mem_toList.mpr hr)
  rw [ha.line_self] at hp
  rcases mem_cons.mp hp with hp | hp
  · exact absurd hp hne
  cases parent with
  | none => exact absurd hp not_mem_nil
  | some pp =>
    rw [ha.recs_old hown hr] at hactive
    exact mem_append_left _ (h.procsAll pp (hfollowed pp rfl ⟨p, hp, r, hr, hactive⟩) p hp r hr hactive)

end Accepts

theorem accept_attributed (h : Attributed w) (hproc : w.line proc = [])
    (hown : ∀ r, own = some r → ∀ q, w.own q ≠ some r)
    (hfollowed : ∀ p, parent = some p → w.Recording p → w.Opened p)
    (hrun : w.accept proc parent own fd1Conn fileFd = some w') : Attributed w' := by
  have ha := accept_accepts h hrun
  have h1 : Attributed (w.enter proc parent) := enter_attributed h hproc
  have hbelow : ∀ p, w'.below p = w.below p := by
    intro p
    rw [← enter_below h hproc p, below, ha.put, ha.line]
    rfl
  constructor
  case booked => exact ha.booked
  case delivering => exact ha.delivering
  case stream =>
    rw [ha.put, arrivedBytes, ha.arrived]
    exact h.stream
  case putKnown =>
    rw [ha.put, ha.line]
    exact h1.putKnown
  case ownerKnown =>
    intro e he
    rcases ha.owner_cases he with ⟨he, heq⟩ | ⟨_, heq⟩
    · rw [heq, ha.line]
      exact h1.ownerKnown e he
    · rw [heq, ha.line_self]
      exact cons_ne_nil _ _
  case lineKnown =>
    rw [ha.line]
    exact h1.lineKnown
  case lineShape =>
    have hshape := h1.lineShape
    unfold lineOf parentExecPoint at hshape ⊢
    rw [ha.line]
    exact hshape
  case ownKnown =>
    intro p r hr
    rcases ha.own_cases hr with ⟨rfl, _⟩ | ⟨_, hr⟩
    · rw [ha.line_self]
      exact cons_ne_nil _ _
    · rw [ha.line]
      exact h1.ownKnown p r hr
  case ownInj =>
    intro p q r hp hq
    rcases ha.own_cases hp with ⟨hpe, hp⟩ | ⟨_, hp⟩
    · rcases ha.own_cases hq with ⟨hqe, _⟩ | ⟨_, hq⟩
      · rw [hpe, hqe]
      · exact absurd hq (hown r hp q)
    rcases ha.own_cases hq with ⟨_, hq⟩ | ⟨_, hq⟩
    · exact absurd hp (hown r hq p)
    · exact h.ownInj p q r hp hq
  case endsOwn =>
    intro e he r hr
    rcases ha.owner_cases he with ⟨he, heq⟩ | ⟨rfl, heq⟩
    · rw [ha.ends e he] at hr
      obtain ⟨p, hp, hpr⟩ := h.endsOwn e he r hr
      rw [heq, ha.line_old hproc (h.ownerKnown e he)]
      exact ⟨p, hp, ha.own_old h hproc hpr⟩
    · rw [ha.newEnd] at hr
      rw [heq]
      exact ha.mem_line_of_mem h hproc hr
  case endsAll =>
    intro e he p hp r hr hactive
    rcases ha.owner_cases he with ⟨he, heq⟩ | ⟨rfl, heq⟩
    · rw [heq, ha.line_old hproc (h.ownerKnown e he)] at hp
      rw [ha.ends e he]
      rcases ha.own_cases hr with ⟨hpe, _⟩ | ⟨_, hr⟩
      · exact absurd hpe (h.ne_proc hproc hp)
      · rw [ha.recs_old hown hr] at hactive
        exact h.endsAll e he p hp r hr hactive
    · rw [heq] at hp
      rw [ha.newEnd]
      exact ha.mem_of_mem_line h hown hfollowed hp hr hactive
  case procsOwn =>
    intro q r hr
    rw [ha.procs] at hr
    by_cases hq : q = proc
    · rw [hq, update_self] at hr
      rw [hq]
      exact ha.mem_line_of_mem h hproc hr
    rw [update_of_ne hq] at hr
    obtain ⟨p, hp, hpr⟩ := h.procsOwn q r hr
    rw [ha.line_old hproc (ne_nil_of_mem hp)]
    exact ⟨p, hp, ha.own_old h hproc hpr⟩
  case procsAll =>
    rintro q ⟨e, he, hq⟩ p hp r hr hactive
    rw [ha.procs]
    rcases ha.owner_cases he with ⟨he, heq⟩ | ⟨_, heq⟩
    · -- opened before, so not the new process
      rw [heq] at hq
      have hknown : w.line q ≠ [] := by
        rw [← hq]
        exact h.ownerKnown e he
      have hne : q ≠ proc := by
        rintro rfl
        exact hknown hproc
      rw [ha.line_old hproc hknown] at hp
      rw [update_of_ne hne]
      rcases ha.own_cases hr with ⟨hpe, _⟩ | ⟨_, hr⟩
      · exact absurd hpe (h.ne_proc hproc hp)
      · rw [ha.recs_old hown hr] at hactive
        exact h.procsAll q ⟨e, he, hq⟩ p hp r hr hactive
    · rw [← hq, heq] at hp ⊢
      rw [update_self]
      exact ha.mem_of_mem_line h hown hfollowed hp hr hactive
  case recorded =>
    intro p r hr hactive
    rw [hbelow p]
    rcases ha.own_cases hr with ⟨hpe, hr⟩ | ⟨_, hr⟩
    · -- nothing was put into the pipe below the new process
      have hnone : w.below p = [] := by
        unfold below
        rw [filter_eq_nil_iff.mpr fun x hx => ?_]
        · rfl
        · rw [decide_eq_true_eq]
          exact fun hp => h.ne_proc hproc hp hpe
      have hnew : w'.pipe.recs r = {} := by
        rw [ha.recs, hr]
        exact update_self ..
      rw [hnone, hnew]
      exact ⟨rfl, trivial⟩
    · rw [ha.recs_old hown hr] at hactive ⊢
      exact h.recorded p r hr hactive

/-! ## Data -/

/-- A process puts data into the pipe, and it is recorded for the process and those above it. -/
theorem Attributed.puts (h : Attributed w) (hbooked : Booked False s)
    (hdelivering : Delivering False False s) (hnext : s.nextEnd = w.pipe.nextEnd)
    (hprocs : s.proc2recorders = w.pipe.proc2recorders)
    (hends : ∀ e, (s.ends e).recorders = (w.pipe.ends e).recorders)
    (hbytes : s.arrivedBytes = w.pipe.arrivedBytes ++ u.flatMap Prod.snd) (hu : ∀ x ∈ u, w.line x.1 ≠ [])
    (hrecs : ∀ p r, w.own p = some r → (s.recs r).Active → (w.pipe.recs r).Active ∧ (s.recs r).data.Exact ∧
      (s.recs r).data.bytes = (w.pipe.recs r).data.bytes ++ (u.filter fun x => p ∈ w.line x.1).flatMap Prod.snd) :
    Attributed { w with pipe := s, put := w.put ++ u } := by
  constructor
  case booked => exact hbooked
  case delivering => exact hdelivering
  case stream =>
    rw [flatMap_append, h.stream, hbytes]
  case putKnown =>
    intro x hx
    rcases mem_append.mp hx with hx | hx
    · exact h.putKnown x hx
    · exact hu x hx
  case ownerKnown => exact fun e he => h.ownerKnown e (hnext ▸ he)
  case lineKnown => exact h.lineKnown
  case lineShape => exact h.lineShape
  case ownKnown => exact h.ownKnown
  case ownInj => exact h.ownInj
  case endsOwn =>
    intro e he r hr
    exact h.endsOwn e (hnext ▸ he) r (hends e ▸ hr)
  case endsAll =>
    intro e he p hp r hr hactive
    rw [hends e]
    exact h.endsAll e (hnext ▸ he) p hp r hr (hrecs p r hr hactive).1
  case procsOwn =>
    intro p r hr
    exact h.procsOwn p r (hprocs ▸ hr)
  case procsAll =>
    rintro p ⟨e, he, hp⟩ p' hp' r hr hactive
    rw [hprocs]
    exact h.procsAll p ⟨e, hnext ▸ he, hp⟩ p' hp' r hr (hrecs p' r hr hactive).1
  case recorded =>
    intro p r hr hactive
    obtain ⟨hactive0, hexact, hadded⟩ := hrecs p r hr hactive
    refine ⟨?_, hexact⟩
    show (s.recs r).data.bytes = ((w.put ++ u).filter fun x => p ∈ w.line x.1).flatMap Prod.snd
    rw [hadded, (h.recorded p r hr hactive0).1, filter_append, flatMap_append]
    rfl

theorem arrivedBy_eq (h : s.arrived = w.pipe.arrived ++ t) (q : Nat) :
    w.arrivedBy q s = t.map fun x => (x.1.elim q w.owner, x.2) := by
  rw [arrivedBy, h, drop_left]

theorem arrivedBytes_of_append {s' : PipeState} (h : s'.arrived = s.arrived ++ t) :
    s'.arrivedBytes = s.arrivedBytes ++ t.flatMap Prod.snd := by
  rw [arrivedBytes, h, flatMap_append]
  rfl

theorem call_attributed {c : PipeCall} (h : Attributed w) (hplain : c.Plain)
    (halloc : ∀ n, env.alloc n = true) (hrun : c.run env w.pipe = some s) :
    Attributed { w with pipe := s, put := w.put ++ w.arrivedBy 0 s } := by
  have hbooked := (PipeCall.run_books h.booked False.elim hrun).booked
  have hdelivering := PipeCall.run_delivers False.elim False.elim h.delivering h.booked hrun
  have hopens : ¬c.Opens := by
    intro hopens
    cases c with
    | addFd1AndProc => exact hplain
    | _ => exact hopens
  obtain ⟨⟨t, ht⟩, _⟩ := PipeCall.run_passes hopens False.elim h.booked False.elim hrun
  have hsource : ∀ x ∈ t, ∃ e < w.pipe.nextEnd, x.1 = some e := by
    intro x hx
    rcases ht.source x hx with ⟨hadds, _⟩ | ⟨e, hx, he⟩
    · exact absurd hplain hadds
    · exact ⟨e, h.booked.numbered e he, hx⟩
  have hfaithful : w.pipe.Faithful := by
    intro e he r hr hactive
    obtain ⟨p, _, hp⟩ := h.endsOwn e (h.booked.numbered e he) r hr
    exact (h.recorded p r hp hactive).2
  rw [arrivedBy_eq ht.arrived]
  refine h.puts hbooked hdelivering ht.nextEnd ht.procs ht.recorders
    (by rw [flatMap_map]; exact arrivedBytes_of_append ht.arrived) (fun x hx => ?_) fun p r hr hactive => ?_
  · obtain ⟨y, hy, rfl⟩ := mem_map.mp hx
    obtain ⟨e, he, hy⟩ := hsource y hy
    rw [hy]
    exact h.ownerKnown e he
  · obtain ⟨hactive0, hstep⟩ := ht.records halloc hfaithful r hactive
    obtain ⟨hexact, hbytes⟩ := hstep (h.recorded p r hr hactive0).2
    refine ⟨hactive0, hexact, ?_⟩
    rw [hbytes, recordedBy, filter_map, flatMap_map]
    -- the end has the recorder if and only if the process is in its line
    congr 2
    refine filter_congr fun x hx => ?_
    obtain ⟨e, he, hx⟩ := hsource x hx
    have hiff : r ∈ (w.pipe.ends e).recorders ↔ p ∈ w.line (w.owner e) := by
      constructor
      · intro hmem
        obtain ⟨p', hp', hr'⟩ := h.endsOwn e he r hmem
        rw [h.ownInj p p' r hr hr']
        exact hp'
      · exact fun hp => h.endsAll e he p hp r hr hactive0
    simp [hx, hiff]

theorem replay_attributed (h : Attributed w)
    (hknown : w.line proc ≠ []) (hnone : w.own proc = none)
    (hfollowed : ∀ p, w.parentExecPoint proc = some p → w.Recording p →
      w.Opened p ∧ (form = .compressedBlob → d = []) ∧ (form = .plainBlob → d.length ≤ Pipe.maxReadSize))
    (halloc : ∀ n, env.alloc n = true) (hrun : w.pipe.replay env (w.parentExecPoint proc) d ws form = some s) :
    Attributed { w with pipe := s, put := w.put ++ w.arrivedBy proc s } := by
  obtain ⟨hbooked, hdelivering⟩ := replay_keeps hrun h.booked h.delivering
  have hspec := replay_spec hrun
  obtain ⟨t, ht, hfrom, hbytes⟩ := hspec.arrived
  have hflat : (t.map fun x => (x.1.elim proc w.owner, x.2)).flatMap Prod.snd = replayed d form := by
    rw [flatMap_map, ← hbytes]
  rw [arrivedBy_eq ht]
  have hown : ∀ x ∈ t.map (fun x => (x.1.elim proc w.owner, x.2)), x.1 = proc := by
    intro x hx
    obtain ⟨y, hy, rfl⟩ := mem_map.mp hx
    rw [hfrom y hy]
    rfl
  refine h.puts hbooked hdelivering hspec.nextEnd hspec.procs (fun e => by rw [hspec.ends])
    (by rw [hflat, ← hbytes]; exact arrivedBytes_of_append ht) (fun x hx => hown x hx ▸ hknown) fun p r hr hactive => ?_
  · obtain ⟨hactive0, hstep⟩ := hspec.records halloc r hactive
    obtain ⟨hexact, hrecorded⟩ := hstep (h.recorded p r hr hactive0).2
    refine ⟨hactive0, hexact, ?_⟩
    have hall : ((t.map fun x => (x.1.elim proc w.owner, x.2)).filter fun x => p ∈ w.line x.1).flatMap Prod.snd =
        if p ∈ w.line proc then replayed d form else [] := by
      by_cases hp : p ∈ w.line proc
      · rw [if_pos hp, filter_eq_self.mpr fun x hx => by rw [hown x hx]; exact decide_eq_true hp, hflat]
      · rw [if_neg hp, filter_eq_nil_iff.mpr fun x hx => by rw [hown x hx]; simpa using hp]
        rfl
    rw [hrecorded, hall]
    congr 1
    have hp : p ∈ w.line proc ↔ p ∈ w.lineOf (w.parentExecPoint proc) := by
      rw [h.lineShape proc hknown, mem_cons]
      refine ⟨fun hp => hp.resolve_left ?_, .inr⟩
      rintro rfl
      rw [hnone] at hr
      cases hr
    rw [if_congr hp rfl rfl]
    cases hparent : w.parentExecPoint proc with
    | none => rfl
    | some pp =>
      by_cases hpp : p ∈ w.line pp
      · obtain ⟨hopened, hcompressed, hplain⟩ := hfollowed pp hparent ⟨p, hpp, r, hr, hactive0⟩
        have hmem : r ∈ w.pipe.recordersOf (some pp) := h.procsAll pp hopened p hpp r hr hactive0
        rw [if_pos hmem, if_pos (show p ∈ w.lineOf (some pp) from hpp)]
        cases form with
        | inlined => rfl
        | plainBlob => exact (take_of_length_le (hplain rfl)).symm
        | compressedBlob => exact (hcompressed rfl).symm
      · have hmem : r ∉ w.pipe.recordersOf (some pp) := by
          intro hmem
          obtain ⟨p', hp', hr'⟩ := h.procsOwn pp r hmem
          rw [h.ownInj p p' r hr hr'] at hpp
          exact hpp hp'
        rw [if_neg hmem, if_neg (show p ∉ w.lineOf (some pp) from hpp)]

theorem run_attributed (h : Attributed w) (hvalid : w.Valid ev) (hfollowed : w.Followed ev)
    (halloc : ∀ n, env.alloc n = true) (hrun : w.run env ev = some w') : Attributed w' := by
  cases ev with
  | accept proc parent own fd1Conn fileFd => exact accept_attributed h hvalid.1 hvalid.2 hfollowed hrun
  | enter proc parent =>
    cases hrun
    exact enter_attributed h hvalid
  | replay proc d form ws =>
    obtain ⟨s, hreplay, rfl⟩ := map_eq_some_iff.mp hrun
    exact replay_attributed h hvalid.1 hvalid.2 hfollowed halloc hreplay
  | call c =>
    obtain ⟨s, hcall, rfl⟩ := map_eq_some_iff.mp hrun
    exact call_attributed h hvalid halloc hcall

end PipeTree

open PipeTree

variable {ok : PipeEnv → PipeTree → TreeEvent → Prop} {w : PipeTree}

theorem TreeRun.attributed (h : TreeRun ok w)
    (hok : ∀ env w ev, ok env w ev → w.Followed ev ∧ ∀ n, env.alloc n = true) : Attributed w := by
  induction h with
  | new fd0 ends fd1PtrsHeld epoll => exact new_attributed fd0 ends fd1PtrsHeld epoll
  | event env ev _ hvalid hev hrun ih => exact run_attributed ih hvalid (hok _ _ _ hev).1 (hok _ _ _ hev).2 hrun

/-- In a run in which every event below a recorded process is followed and memory can be
    allocated, an active recorder has exactly what its process and those below it put into
    the pipe. That is a part of what is delivered, in its order. -/
theorem recording_is_attributed (h : TreeRun ok w)
    (hok : ∀ env w ev, ok env w ev → w.Followed ev ∧ ∀ n, env.alloc n = true) :
    (∀ proc r, w.own proc = some r → (w.pipe.recs r).Active → (w.pipe.recs r).data.bytes = w.below proc) ∧
      w.put.flatMap Prod.snd = w.pipe.sent ++ w.pipe.buf.bytes := by
  have hw := h.attributed hok
  exact ⟨fun proc r hr hactive => (hw.recorded proc r hr hactive).1, hw.stream.trans hw.delivering.stream.symm⟩

/-! ## Three runs -/

def createdPipe : PipeTree := (PipeTree.accept { pipe := newPipe } 1 none none 5 10).getD { pipe := newPipe }

/-- Process 2, which has the recorder 20, inherits it, and process 3 from process 2. -/
def inheritedPipe : PipeTree :=
  ((createdPipe.accept 2 (some 1) (some 20) 6 11).getD createdPipe).enter 3 (some 2)

def readByte (fd : Nat) (x : UInt8) : PipeCall :=
  .pipeFd1ReadCb fd true false [{ direct := [[x]], read := { first := .error .eagain } }] []

section

variable {ok : PipeEnv → PipeTree → TreeEvent → Prop}

theorem createdPipe_run (hok : ∀ w ev, w.Followed ev → ok dupEnv w ev) : TreeRun ok createdPipe := by
  have hnew : TreeRun ok { pipe := newPipe } := .new 3 newPipe.ends true {}
  exact hnew.event dupEnv (.accept 1 none none 5 10) ⟨rfl, nofun⟩ (hok _ _ nofun) rfl

theorem inheritedPipe_run (hok : ∀ w ev, w.Followed ev → ok dupEnv w ev) : TreeRun ok inheritedPipe := by
  have hsecond : TreeRun ok ((createdPipe.accept 2 (some 1) (some 20) 6 11).getD createdPipe) := by
    refine (createdPipe_run hok).event dupEnv (.accept 2 (some 1) (some 20) 6 11) ⟨rfl, ?_⟩ (hok _ _ ?_) rfl
    · intro r _ q hq
      have hnone : createdPipe.own q = none := by
        by_cases h : q = 1
        · rw [h]
          rfl
        · exact update_of_ne h ..
      rw [hnone] at hq
      cases hq
    · intro p hp _
      cases hp
      exact ⟨0, by decide, rfl⟩
  exact hsecond.event dupEnv (.enter 3 (some 2)) rfl (hok _ _ trivial) rfl

/-- Process 3 is shortcut and replays a byte; then process 2 writes one. -/
def replayedThenRead (form : StorageForm) : PipeTree :=
  ((inheritedPipe.run dupEnv (.replay 3 [8] form [.sent 1])).bind
    (·.run dupEnv (.call (readByte 6 9)))).getD inheritedPipe

theorem replayedThenRead_run (hok : ∀ w ev, w.Followed ev → ok dupEnv w ev)
    (hform : ok dupEnv inheritedPipe (.replay 3 [8] form [.sent 1])) : TreeRun ok (replayedThenRead form) := by
  obtain ⟨w, hw⟩ : ∃ w, inheritedPipe.run dupEnv (.replay 3 [8] form [.sent 1]) = some w := by
    cases form <;> exact ⟨_, rfl⟩
  have hreplay : TreeRun ok w := (inheritedPipe_run hok).event dupEnv (.replay 3 [8] form [.sent 1]) ⟨nofun, rfl⟩ hform hw
  refine hreplay.event dupEnv (.call (readByte 6 9)) trivial (hok _ _ trivial) ?_
  cases form <;>
  · cases hw
    rfl

end

theorem recording_is_attributed_replayed_inline :
    (replayedThenRead .inlined).own 2 = some 20 ∧
      ((replayedThenRead .inlined).pipe.recs 20).data.bytes = (replayedThenRead .inlined).below 2 ∧
      (replayedThenRead .inlined).below 2 = [8, 9] := by
  have hrun : TreeRun (fun env w ev => w.Followed ev ∧ ∀ n, env.alloc n = true) (replayedThenRead .inlined) := by
    refine replayedThenRead_run (fun w ev hev => ⟨hev, fun _ => rfl⟩) ⟨?_, fun _ => rfl⟩
    intro p hp _
    cases hp
    exact ⟨⟨1, by decide, rfl⟩, nofun, nofun⟩
  have hactive : ((replayedThenRead .inlined).pipe.recs 20).Active := by decide
  exact ⟨rfl, (recording_is_attributed hrun fun _ _ _ h => h).1 2 20 rfl hactive, by decide⟩

/-- The byte of a compressed blob is not recorded for the parent of the process that is
    shortcut. -/
theorem a_replayed_descendant_is_not_recorded :
    TreeRun (fun env _ _ => ∀ n, env.alloc n = true) (replayedThenRead .compressedBlob) ∧
      (replayedThenRead .compressedBlob).own 2 = some 20 ∧
      ((replayedThenRead .compressedBlob).pipe.recs 20).Active ∧
      ((replayedThenRead .compressedBlob).pipe.recs 20).data.bytes = [9] ∧
      (replayedThenRead .compressedBlob).below 2 = [8, 9] :=
  ⟨replayedThenRead_run (fun _ _ _ _ => rfl) fun _ => rfl, rfl, by decide, by decide, by decide⟩

/-- Process 3 has no end, its child has one. -/
def belowSkipped : PipeTree :=
  ((inheritedPipe.accept 4 (some 3) none 7 12).bind (·.run dupEnv (.call (readByte 7 8)))).getD inheritedPipe

theorem below_a_skipped_process_is_not_recorded : TreeRun (fun env _ _ => ∀ n, env.alloc n = true) belowSkipped ∧
      belowSkipped.own 2 = some 20 ∧ (belowSkipped.pipe.recs 20).Active ∧
      (belowSkipped.pipe.recs 20).data.bytes = [] ∧ belowSkipped.below 2 = [8] := by
  refine ⟨?_, rfl, by decide, by decide, by decide⟩
  have hskipped : TreeRun (fun env _ _ => ∀ n, env.alloc n = true) inheritedPipe := inheritedPipe_run fun _ _ _ _ => rfl
  have haccept := hskipped.event dupEnv (.accept 4 (some 3) none 7 12) ⟨rfl, nofun⟩ (fun _ => rfl) rfl
  exact haccept.event dupEnv (.call (readByte 7 8)) trivial (fun _ => rfl) rfl

end Firebuild
