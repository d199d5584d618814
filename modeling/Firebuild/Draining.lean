/-
  Firebuild.Draining — reading what was written to a pipe before a child is started (`pipe.cc`:
  `drain`; `message_processor.cc`: `accept_exec_child`).

  `drain` goes through the FileFDs that the pipe knows and reads the end of each one until there
  is nothing to be read. An end that is read to its end is closed. That changes the map, so it
  is gone through again, without the fds that were visited.

  What was written to each end in all (`written`) is given next to the pipe. The kernel says that
  there is nothing to be read only if all that was written has been read (`ReadsAll`).

  Proved: `run_settled`, `drain_spec`. The ends without FileFDs are not read.
-/

import Firebuild.Delivery

namespace Firebuild

open EndMap (lookup_insert_iff mem_list_iff)
open Option (map_eq_some_iff bind_some)

def through (e : Nat) (arrived : List (Option Nat × Bytes)) : Bytes :=
  (arrived.filter fun x => x.1 = some e).flatMap Prod.snd

theorem through_append (e : Nat) (xs ys : List (Option Nat × Bytes)) :
    through e (xs ++ ys) = through e xs ++ through e ys := by
  simp [through]

theorem through_of_other (h : ∀ x ∈ xs, x.1 ≠ some e) : through e xs = [] := by
  unfold through
  rw [List.filter_eq_nil_iff.mpr fun x hx => by simp [h x hx]]
  rfl

variable {r : ForwardResult} {fd : Nat} {c : PipeCall}

namespace PipeState

variable {dup : Nat → Nat} {env : PipeEnv} {s s' s1 : PipeState} {ws : List WriteResult} {e : Nat}

/-! ## Reading all there is -/

theorem Forwards.other (h : Forwards env e t s s') (hne : e' ≠ e) :
    through e' s'.arrived = through e' s.arrived := by
  have hnone : through e' t = [] := by
    apply through_of_other
    intro x hx heq
    rw [h.source x hx] at heq
    exact hne (Option.some.inj heq).symm
  rw [h.arrived, through_append, hnone, List.append_nil]

theorem Sends.arrived {r : PipeOpResult} (h : Sends r s s') : s'.arrived = s.arrived := congrArg (·.2.1) h.trace

/-- What the kernel answers while an end is read to which `w` has been written in all: there is
    nothing to be read (EAGAIN, EOF, or no more rounds) only when all of it has been read. -/
def ReadsAll (env : PipeEnv) (w : Bytes) (e : Nat) (drain : Bool) (s : PipeState) : List ForwardRound → Prop
  | [] => through e s.arrived = w
  | r :: rs =>
    ∀ s1, (if s.bufferEmpty then s.forwardDirect env e r.direct else some s) = some s1 →
      match s1.buf.readAll r.read with
      | (.error _, _) | (.ok 0, _) => through e s1.arrived = w
      | (.ok n, b) => ∀ res s₂, (s1.received env e n b).bind (·.sendBuf env.dup r.writes) = some (res, s₂) →
          drain = true → res ≠ .fd0Epipe → ReadsAll env w e drain s₂ rs

variable {rs : List ForwardRound} {drain : Bool}

/-- When the loop ends because there is nothing to be read, all there was has been read. -/
theorem forwardLoop_reads
    (hans : s.ReadsAll env w e drain rs) (h : s.forwardLoop env e drain rs = some (r, s'))
    (hr : r = .fd1Eof ∨ drain = true ∧ r ≠ .sending .fd0Epipe) : through e s'.arrived = w := by
  induction rs generalizing s with
  | nil =>
    obtain ⟨⟨r', s1⟩, hsend, ⟨⟩⟩ := map_eq_some_iff.mp h
    rw [(sendBuf_sends hsend).arrived]
    exact hans
  | cons round rs ih =>
    obtain ⟨s1, x, b, hdirect, hx, hround⟩ := forwardLoop_cons h
    have hans := hans s1 hdirect
    rw [hx] at hans
    rcases hround with ⟨hnothing, r', hsend, -⟩ | ⟨n, s2, r', s3, rfl, hreceived, hsend, hrest⟩
    · rw [(sendBuf_sends hsend).arrived]
      rcases hnothing with rfl | ⟨err, rfl⟩
      · exact hans
      · exact hans
    rcases hrest with ⟨hdrain, hres, h⟩ | ⟨hstop, rfl, rfl⟩
    · refine ih (hans r' s3 ?_ hdrain hres) h
      rw [hreceived]
      exact hsend
    -- one round only, or the reading end is closed
    rcases hr with hr | ⟨hdrain, hr⟩
    · cases hr
    · exact absurd ⟨hdrain, fun hres => hr (by rw [hres])⟩ hstop

def ReadsAllFrom (env : PipeEnv) (written : Nat → Bytes) (fd : Nat) (drain : Bool) (rs : List ForwardRound)
    (s : PipeState) : Prop :=
  ∀ e, s.conn2fd1Ends.lookup fd = some e → s.ReadsAll env (written e) e drain rs

section

variable (he : s.conn2fd1Ends.lookup fd = some e)
include he

theorem forward_forwards (h : s.forward env fd drain rs = some (r, s')) : ∃ t, Forwards env e t s s' := by
  unfold forward at h
  split at h
  · cases h
    exact ⟨[], .refl _ _ _⟩
  · rw [he] at h
    exact (forwardLoop_forwards h).1

theorem forward_open (hopen : s.finished = false)
    (h : s.forward env fd drain rs = some (r, s')) : s'.finished = false := by
  unfold forward at h
  rw [if_neg (by rw [hopen]; decide), he] at h
  exact (forwardLoop_forwards h).2.1

theorem forward_reads (hopen : s.finished = false)
    (hans : s.ReadsAllFrom env written fd drain rs) (h : s.forward env fd drain rs = some (r, s'))
    (hr : r = .fd1Eof ∨ drain = true ∧ r ≠ .sending .fd0Epipe) : through e s'.arrived = written e := by
  unfold forward at h
  rw [if_neg (by rw [hopen]; decide), he] at h
  exact forwardLoop_reads (hans e he) h hr

end

/-! ## FileFDs -/

/-- The FileFDs of an end lead to it. -/
def Owned (s : PipeState) : Prop := ∀ e, s.HasEnd e → ∀ f ∈ (s.ends e).fileFds, s.ffd2fd1Ends.lookup f = some e

theorem Owned.congr (h : Owned s) (hffds : s'.ffd2fd1Ends = s.ffd2fd1Ends) (hends : s'.ends = s.ends)
    (hhas : ∀ e, s'.HasEnd e → s.HasEnd e) : Owned s' := by
  intro e he f hf
  rw [hends] at hf
  rw [hffds]
  exact h e (hhas e he) f hf

theorem Owned.of_finished (hb : Booked True s) (hfin : s.finished = true) : Owned s :=
  fun e he => absurd he (hb.closed hfin e)

theorem dropEnd_owned (h : Owned s) (hb : Booked True s) (he : s.conn2fd1Ends.lookup fd = some e) :
    Owned (s.dropEnd fd e) := by
  intro x hx f hf
  obtain ⟨hx, hne⟩ := ((dropEnd_spec hb he).2 x).mp hx
  refine EndMap.lookup_eraseAll_iff.mpr ⟨fun hmem => hne ?_, h x hx f hf⟩
  have hlookup := h x hx f hf
  rw [h e ⟨fd, he⟩ f hmem] at hlookup
  exact (Option.some.inj hlookup).symm

theorem dropFileFd_owned (h : Owned s) (hf : s.getFd1End f = some e) : Owned (s.dropFileFd f e) := by
  intro x hx f' hf'
  by_cases hxe : x = e
  · subst hxe
    simp only [dropFileFd, Function.update_self] at hf'
    obtain ⟨hne, hf'⟩ := Finset.mem_erase.mp hf'
    exact EndMap.lookup_erase_iff.mpr ⟨hne, h x hx f' hf'⟩
  · simp only [dropFileFd, Function.update_of_ne hxe] at hf'
    refine EndMap.lookup_erase_iff.mpr ⟨fun heq => hxe ?_, h x hx f' hf'⟩
    have hlookup := h x hx f' hf'
    rw [heq, show s.ffd2fd1Ends.lookup f = some e from hf] at hlookup
    exact (Option.some.inj hlookup).symm

theorem Owned.lookup_insert (h : Owned s) (hnew : new ∉ s.ffd2fd1Ends) (hx : s.HasEnd x)
    (hf : f ∈ (s.ends x).fileFds) : (s.ffd2fd1Ends.insert new e).lookup f = some x := by
  have hlookup := h x hx f hf
  refine lookup_insert_iff.mpr (.inr ⟨fun heq => hnew ?_, hlookup⟩)
  exact EndMap.mem_iff.mpr ⟨x, heq ▸ hlookup⟩

theorem handleDup_owned (h : Owned s) (hnew : new ∉ s.ffd2fd1Ends) : Owned (s.handleDup old new) := by
  unfold handleDup
  split
  · exact h
  rename_i e he
  intro x hx f hf
  by_cases hxe : x = e
  · subst hxe
    simp only [Function.update_self] at hf
    rcases Finset.mem_insert.mp hf with rfl | hf
    · exact lookup_insert_iff.mpr (.inl ⟨rfl, rfl⟩)
    · exact h.lookup_insert hnew hx hf
  · simp only [Function.update_of_ne hxe] at hf
    exact h.lookup_insert hnew hx hf

theorem withEnd_owned (h : Owned s)
    (hb : Booked True s) (hnew : fileFd ∉ s.ffd2fd1Ends) : Owned (s.withEnd fd1Conn fileFd proc recorders hnd) := by
  rintro x ⟨k, hk⟩ f hf
  rcases lookup_insert_iff.mp hk with ⟨_, rfl⟩ | ⟨_, hk⟩
  · simp only [withEnd, Function.update_self] at hf
    rw [Finset.mem_singleton.mp hf]
    exact lookup_insert_iff.mpr (.inl ⟨rfl, rfl⟩)
  have hne : x ≠ s.nextEnd := ne_of_lt (hb.numbered x ⟨k, hk⟩)
  simp only [withEnd, Function.update_of_ne hne] at hf
  exact h.lookup_insert hnew ⟨k, hk⟩ hf

/-! ## Calls -/

/-- What closing leaves alone. FileFDs are only forgotten. -/
structure Still (s s' : PipeState) : Prop where
  arrived : s'.arrived = s.arrived
  ends : s'.ends = s.ends
  nextEnd : s'.nextEnd = s.nextEnd
  ffds : ∀ f e, s'.ffd2fd1Ends.lookup f = some e → s.ffd2fd1Ends.lookup f = some e

theorem Sends.still {r : PipeOpResult} (h : Sends r s s') : Still s s' := by
  obtain ⟨fd0, m, ep, mode, sent, b, closed, rfl⟩ := h.only
  exact ⟨rfl, rfl, rfl, fun _ _ => id⟩

variable {flushes : Prop}

theorem Close.still (h : Close env flushes s s') : Still s s' := by
  cases h with
  | mode h => exact (setSendOnlyMode_sends h).still
  | send h => exact (sendBuf_sends h).still
  | finish _ h =>
    unfold PipeState.finish at h
    split at h
    · cases h
      exact ⟨rfl, rfl, rfl, fun _ _ => id⟩
    obtain ⟨⟨r, s1⟩, hsend, rfl⟩ := map_eq_some_iff.mp h
    have hstill := (sendBuf_sends hsend).still
    refine { hstill with ffds := fun f e hf => ?_ }
    have hnone := hstill.ffds f e hf
    cases hnone
  | dropEnd he => exact ⟨rfl, rfl, rfl, fun f e hf => (EndMap.lookup_eraseAll_iff.mp hf).2⟩
  | timer round set held closed _ => exact ⟨rfl, rfl, rfl, fun _ _ => id⟩

theorem Closes.still (h : Closes env flushes s s') : Still s s' := by
  induction h with
  | refl => exact ⟨rfl, rfl, rfl, fun _ _ => id⟩
  | tail _ hclose ih =>
    have hstill := hclose.still
    exact ⟨hstill.arrived.trans ih.arrived, hstill.ends.trans ih.ends, hstill.nextEnd.trans ih.nextEnd,
      fun f e hf => ih.ffds f e (hstill.ffds f e hf)⟩

variable {adds : Prop}

theorem Act.owned (h : Act env flushes adds s s') (hb : Booked True s) (ho : Owned s) : Owned s' := by
  cases h with
  | close h =>
    have hpasses : Passes env False [] s s' := h.passes hb
    have hhas := hpasses.hasEnd
    cases h with
    | mode h => exact ho.congr ((setSendOnlyMode_sends h).forwards env 0).ffds (setSendOnlyMode_sends h).still.ends hhas
    | send h => exact ho.congr ((sendBuf_sends h).forwards env 0).ffds (sendBuf_sends h).still.ends hhas
    | finish _ h =>
      obtain ⟨hb', hfin⟩ := finish_booked h hb
      exact .of_finished hb' hfin
    | dropEnd he => exact dropEnd_owned ho hb he
    | timer round set held closed _ => exact ho.congr rfl rfl fun _ => id
  | forward h =>
    have hsame := (forward_keeps hb h).same
    rcases forward_cases h with ⟨_, _, rfl⟩ | ⟨_, e, _, hloop⟩
    · exact ho
    · obtain ⟨⟨t, ht⟩, _⟩ := forwardLoop_forwards hloop
      exact ho.congr ht.ffds ht.ends fun e => (hsame e).mp
  | dropFileFd he => exact dropFileFd_owned ho he
  | add _ _ _ => exact ho.congr rfl rfl fun _ => id

theorem Acts.owned (h : Acts env flushes adds s s') (hb : Booked True s) (ho : Owned s) : Owned s' := by
  induction h with
  | refl => exact ho
  | tail hacts hact ih => exact hact.owned (Acts.passes hacts hb).1 ih

end PipeState

namespace PipeCall

open PipeState

variable {env : PipeEnv} {s s' : PipeState} {written : Nat → Bytes}

/-- A FileFD that is new to the pipe is not known to it. -/
def NewFileFd (s : PipeState) : PipeCall → Prop
  | addFd1AndProc _ fileFd _ _ _ => fileFd ∉ s.ffd2fd1Ends
  | handleDup _ newFileFd => newFileFd ∉ s.ffd2fd1Ends
  | _ => True

theorem run_owned (hb : Booked True s) (hnew : c.NewFileFd s) (hrun : c.run env s = some s')
    (ho : Owned s) : Owned s' := by
  by_cases hdirect : c.Direct
  · cases c with
    | addFd1AndProc fd1Conn fileFd proc recorders hnd =>
      obtain ⟨_, ep, rfl⟩ := addFd1AndProc_eq hrun
      have hadded : Owned (s.withEnd fd1Conn fileFd proc recorders hnd) := withEnd_owned ho hb hnew
      exact hadded.congr rfl rfl fun _ => id
    | handleDup oldFileFd newFileFd =>
      cases hrun
      exact handleDup_owned ho hnew
    | deactivate recorder =>
      cases hrun
      exact ho.congr rfl rfl fun _ => id
    | epollAdd fd =>
      obtain ⟨ep, _, rfl⟩ := map_eq_some_iff.mp hrun
      exact ho.congr rfl rfl fun _ => id
    | epollDel fd =>
      simp only [run] at hrun
      split at hrun
      · cases hrun
      · obtain ⟨ep, _, rfl⟩ := map_eq_some_iff.mp hrun
        exact ho.congr rfl rfl fun _ => id
    | _ => exact hdirect.elim
  · have hacts : Acts env False _ s s' := run_acts hdirect False.elim hrun
    exact hacts.owned hb ho

/-- What every call does: data is only appended to what arrived, and not to that of a finished
    pipe, which stays finished. -/
structure Grows (s s' : PipeState) : Prop where
  arrived : ∃ t, s'.arrived = s.arrived ++ t ∧ (s.finished = true → t = [])
  finished : s.finished = true → s'.finished = true
  numbered : ∀ e < s'.nextEnd, e < s.nextEnd ∨ s'.HasEnd e

theorem run_grows (hb : Booked True s) (hrun : c.run env s = some s') : Grows s s' := by
  by_cases hopens : c.Opens
  · cases c with
    | addFd1AndProc fd1Conn fileFd proc recorders hnd =>
      obtain ⟨hopen, ep, rfl⟩ := addFd1AndProc_eq hrun
      refine ⟨⟨[], by simp [withEnd]⟩, fun hfin => (nomatch hfin.symm.trans hopen), fun e he => ?_⟩
      rcases Nat.lt_succ_iff_lt_or_eq.mp he with he | rfl
      · exact .inl he
      · exact .inr ⟨fd1Conn, lookup_insert_iff.mpr (.inl ⟨rfl, rfl⟩)⟩
    | _ => exact hopens.elim
  · obtain ⟨⟨t, ht⟩, _⟩ := run_passes hopens False.elim hb False.elim hrun
    exact ⟨⟨t, ht.arrived, fun hfin => (ht.finished hfin).2⟩, fun hfin => (ht.finished hfin).1,
      fun e he => .inl (ht.nextEnd ▸ he)⟩

/-- The answers of the kernel to the reads of a call: it tells the truth about there being nothing
    to be read. -/
def Answered (env : PipeEnv) (written : Nat → Bytes) (s : PipeState) : PipeCall → Prop
  | handleClose fileFd rs _ =>
    ∀ e, s.getFd1End fileFd = some e → (s.ends e).fileFds.card = 1 → s.ReadsAllFrom env written (s.ends e).fd true rs
  | drainFd1End fileFd rs _ => ∀ e, s.getFd1End fileFd = some e → s.ReadsAllFrom env written (s.ends e).fd true rs
  | pipeFd1ReadCb fd readyForRead drain rs _ =>
    if readyForRead then s.ReadsAllFrom env written fd drain rs
    -- a hang-up
    else ∀ e, s.conn2fd1Ends.lookup fd = some e → through e s.arrived = written e
  | forward fd1 drain rs => s.ReadsAllFrom env written fd1 drain rs
  | _ => True

end PipeCall

namespace PipeState

variable {dup : Nat → Nat} {env : PipeEnv} {s s' s1 : PipeState} {ws : List WriteResult} {e : Nat} {written : Nat → Bytes}

/-- In a pipe that is not finished, what was read was written, and an end is dropped only after
    all that was written to it has been read. -/
structure Settled (written : Nat → Bytes) (s : PipeState) : Prop where
  booked : Booked True s
  delivering : Delivering False False s
  owned : Owned s
  read : s.finished = false → ∀ e, through e s.arrived <+: written e
  dropped : s.finished = false → ∀ e < s.nextEnd, ¬s.HasEnd e → through e s.arrived = written e

variable {other : PipeState → PipeState}

theorem afterForward_still (h : afterForward env.dup fd ws other (r, s) = some s') : Still s s' ∨ s' = other s := by
  rcases afterForward_cases h with ⟨_, hclose⟩ | ⟨_, hfinish⟩ | ⟨_, _, rfl⟩
  · have hcloses : Closes env False s s' := closeOneFd1_closes hclose
    exact .inl hcloses.still
  · have hcloses : Close env False s s' := .finish False.elim hfinish
    exact .inl hcloses.still
  · exact .inr rfl

theorem afterForward_arrived
    (h : afterForward env.dup fd ws other (r, s) = some s') (hother : (other s).arrived = s.arrived) :
    s'.arrived = s.arrived := by
  rcases afterForward_still h with h | rfl
  · exact h.arrived
  · exact hother

/-- The connection of an end that has a FileFD is its own fd. -/
theorem Booked.lookup_fd (hb : Booked True s) (hf : s.ffd2fd1Ends.lookup f = some e) :
    s.conn2fd1Ends.lookup (s.ends e).fd = some e := by
  obtain ⟨_, c, hc⟩ := hb.fileFds f e hf
  rw [hb.ownFd trivial c e hc]
  exact hc

end PipeState

namespace PipeCall

open PipeState

variable {env : PipeEnv} {s s' : PipeState} {e : Nat} {written : Nat → Bytes}

theorem drainFd1End_reads (hb : Booked True s)
    (hopen : s.finished = false) (hans : s.ReadsAllFrom env written (s.ends e).fd true rs) (he : s.getFd1End f = some e)
    (heof : ∃ s1, s.forward env (s.ends e).fd true rs = some (.fd1Eof, s1))
    (hrun : s.drainFd1End env f rs ws = some s') : through e s'.arrived = written e := by
  obtain ⟨s1, hforward⟩ := heof
  unfold PipeState.drainFd1End at hrun
  rw [if_neg (by rw [hopen]; decide), he] at hrun
  simp only [hforward, bind_some] at hrun
  rw [afterForward_arrived hrun rfl]
  exact forward_reads (hb.lookup_fd he) hopen hans hforward (.inl rfl)

/-- A call that reads an end to its end has read all of it. -/
theorem readsToEnd_reads (hb : Booked True s) (hopen : s.finished = false) (hans : c.Answered env written s)
    (hread : c.ReadsToEnd env s e) (hrun : c.run env s = some s') : through e s'.arrived = written e := by
  cases c with
  | handleClose fileFd rs ws =>
    obtain ⟨he, hcard, heof⟩ := hread
    simp only [run, PipeState.handleClose, he] at hrun
    rw [if_pos hcard] at hrun
    exact drainFd1End_reads hb hopen (hans e he hcard) he heof hrun
  | drainFd1End fileFd rs ws =>
    obtain ⟨he, heof⟩ := hread
    exact drainFd1End_reads hb hopen (hans e he) he heof hrun
  | pipeFd1ReadCb fd readyForRead drain rs ws =>
    obtain ⟨he, hend⟩ := hread
    simp only [run, PipeState.pipeFd1ReadCb] at hrun
    cases readyForRead with
    | false =>
      have hcloses : Closes env False s s' := closeOneFd1_closes hrun
      rw [hcloses.still.arrived]
      exact hans e he
    | true =>
      rcases hend with hfalse | ⟨s1, hforward⟩
      · cases hfalse
      simp only [if_true, hforward, bind_some] at hrun
      rw [afterForward_arrived hrun rfl]
      exact forward_reads he hopen hans hforward (.inl rfl)
  | _ => exact hread.elim

theorem run_settled (hrun : c.run env s = some s') (h : Settled written s) (hfresh : c.Fresh s)
    (hnew : c.NewFileFd s) (hans : c.Answered env written s)
    (hread : s'.finished = false → ∀ e, through e s'.arrived <+: written e) : Settled written s' := by
  have hbooks := run_books h.booked (fun _ => hfresh) hrun
  have hgrows := run_grows h.booked hrun
  refine ⟨hbooks.booked, run_delivers False.elim False.elim h.delivering h.booked hrun,
    run_owned h.booked hnew hrun h.owned, hread, fun hopen e he hnot => ?_⟩
  have hopen0 : s.finished = false := by
    cases hfin : s.finished with
    | false => rfl
    | true => exact (hgrows.finished hfin).symm.trans hopen
  by_cases hhas : s.HasEnd e
  · -- dropped by this call
    refine readsToEnd_reads h.booked hopen0 hans ?_ hrun
    by_contra hstays
    exact hnot ((hbooks.left trivial e hhas).mpr ⟨hopen, hstays⟩)
  · rcases hgrows.numbered e he with he | he
    · -- dropped before: nothing more can have been read
      obtain ⟨t, ht, _⟩ := hgrows.arrived
      have hmore : written e <+: through e s'.arrived := by
        rw [ht, through_append, h.dropped hopen0 e he hhas]
        exact List.prefix_append _ _
      exact (hread hopen e).eq_of_length_le hmore.length_le
    · exact absurd he hnot

end PipeCall

/-! ## Draining -/

namespace PipeState

inductive DrainStop where
  | done
  -- "The iterator is invalid now, restart iteration"
  | restart
  | finished
  deriving DecidableEq, Repr

/-- What the kernel answers while an end is read in a state of the pipe, and to the writes if
    the pipe is finished then. -/
abbrev DrainAnswers := PipeState → Nat → List ForwardRound × List WriteResult

def drainPass (env : PipeEnv) (answers : DrainAnswers) :
    List (Nat × Nat) → Finset Nat → PipeState → Option (DrainStop × Finset Nat × PipeState)
  | [], visited, s => some (.done, visited, s)
  | (_, e) :: ffds, visited, s =>
    let fd := (s.ends e).fd
    if fd ∈ visited then drainPass env answers ffds visited s
    else
      match s.forward env fd true (answers s fd).1 with
      | none => none
      | some (.fd1Eof, s1) => (s1.closeOneFd1 env.dup fd).map fun s₂ => (.restart, insert fd visited, s₂)
      | some (.sending .fd0Epipe, s1) =>
        if s1.finished then drainPass env answers ffds (insert fd visited) s1
        else (s1.finish env.dup (answers s fd).2).map fun s₂ => (.finished, insert fd visited, s₂)
      | some (_, s1) => drainPass env answers ffds (insert fd visited) s1

/-- The iteration is restarted at most once for each FileFD. -/
def drainLoop (env : PipeEnv) (answers : DrainAnswers) : Nat → Finset Nat → PipeState → Option PipeState
  | 0, _, s => some s
  | n + 1, visited, s =>
    match drainPass env answers s.ffd2fd1Ends.list visited s with
    | none => none
    | some (.restart, visited, s) => drainLoop env answers n visited s
    | some (_, _, s) => some s

def drain (env : PipeEnv) (answers : DrainAnswers) (s : PipeState) : Option PipeState :=
  if s.finished then some s else drainLoop env answers (s.ffd2fd1Ends.list.length + 1) ∅ s

variable {env : PipeEnv} {s s' s1 : PipeState} {ws : List WriteResult} {e f : Nat} {written : Nat → Bytes}
  {answers : DrainAnswers} {visited visited' : Finset Nat}

def DrainAnswers.Truthful (env : PipeEnv) (written : Nat → Bytes) (answers : DrainAnswers) : Prop :=
  ∀ (s : PipeState) fd e, s.conn2fd1Ends.lookup fd = some e → through e s.arrived <+: written e →
    s.ReadsAll env (written e) e true (answers s fd).1

/-- The invariant of the iteration: the visited ends that are still there have been read. -/
structure Draining (written : Nat → Bytes) (visited : Finset Nat) (s : PipeState) : Prop where
  settled : Settled written s
  read : ∀ fd ∈ visited, ∀ e, s.conn2fd1Ends.lookup fd = some e → through e s.arrived = written e

/-- What draining does to the ends: those that were not visited are not read, and the FileFDs of
    those that are left stay. -/
structure Drains (s s' : PipeState) : Prop where
  ends : s'.ends = s.ends
  nextEnd : s'.nextEnd = s.nextEnd
  arrived : ∃ t, s'.arrived = s.arrived ++ t ∧
    ∀ x ∈ t, ∃ f e, x.1 = some e ∧ s.ffd2fd1Ends.lookup f = some e
  ffds : ∀ f e, s'.ffd2fd1Ends.lookup f = some e → s.ffd2fd1Ends.lookup f = some e
  finished : s.finished = true → s'.finished = true

theorem Drains.refl (s : PipeState) : Drains s s := ⟨rfl, rfl, ⟨[], by simp⟩, fun _ _ => id, id⟩

theorem Drains.trans (h : Drains s s1) (h' : Drains s1 s') : Drains s s' := by
  obtain ⟨t, ht, hfrom⟩ := h.arrived
  obtain ⟨t', ht', hfrom'⟩ := h'.arrived
  refine ⟨h'.ends.trans h.ends, h'.nextEnd.trans h.nextEnd, ⟨t ++ t', by rw [ht', ht, List.append_assoc], ?_⟩,
    fun f e hf => h.ffds f e (h'.ffds f e hf), fun hfin => h'.finished (h.finished hfin)⟩
  intro x hx
  rcases List.mem_append.mp hx with hx | hx
  · exact hfrom x hx
  · obtain ⟨f, e, hx, hf⟩ := hfrom' x hx
    exact ⟨f, e, hx, h.ffds f e hf⟩

/-- Reading an end that has a FileFD, and what follows from the result. -/
theorem visit_drains (h : Draining written visited s)
    (hopen : s.finished = false) (hf : s.ffd2fd1Ends.lookup f = some e)
    (hans : s.ReadsAll env (written e) e true rs) (hforward : s.forward env (s.ends e).fd true rs = some (r, s1))
    (hafter : afterForward env.dup (s.ends e).fd ws id (r, s1) = some s') :
    Draining written (insert (s.ends e).fd visited) s' ∧ Drains s s' := by
  have hb := h.settled.booked
  have hlookup := hb.lookup_fd hf
  have hfrom : s.ReadsAllFrom env written (s.ends e).fd true rs := by
    intro e' he'
    rw [hlookup] at he'
    cases he'
    exact hans
  obtain ⟨t, hforwards⟩ := forward_forwards hlookup hforward
  have hstill : Still s1 s' := by
    rcases afterForward_still hafter with hstill | rfl
    · exact hstill
    · exact ⟨rfl, rfl, rfl, fun _ _ => id⟩
  -- the end is read completely, or the pipe is finished
  have hall : s'.finished = false → through e s'.arrived = written e := by
    intro hopen'
    rw [hstill.arrived]
    refine forward_reads hlookup hopen hfrom hforward (.inr ⟨rfl, fun hr => ?_⟩)
    rcases afterForward_cases hafter with ⟨hr', _⟩ | ⟨_, hfinish⟩ | ⟨_, hne, _⟩
    · rw [hr] at hr'
      cases hr'
    · exact nomatch (finish_booked hfinish (forward_keeps hb hforward).booked).2.symm.trans hopen'
    · exact hne hr
  have hother : ∀ x, x ≠ e → through x s'.arrived = through x s.arrived := by
    intro x hx
    rw [hstill.arrived]
    exact hforwards.other hx
  have hsettled : Settled written s' := by
    have hrun : (PipeCall.pipeFd1ReadCb (s.ends e).fd true true rs ws).run env s = some s' := by
      simp only [PipeCall.run, pipeFd1ReadCb, hforward]
      exact hafter
    refine PipeCall.run_settled hrun h.settled trivial trivial hfrom fun hopen' x => ?_
    by_cases hx : x = e
    · rw [hx, hall hopen']
    · rw [hother x hx]
      exact h.settled.read hopen x
  refine ⟨⟨hsettled, fun fd hfd x hx => ?_⟩, ?_⟩
  · have hopen' : s'.finished = false := hsettled.booked.open ⟨fd, hx⟩
    by_cases hxe : x = e
    · rw [hxe]
      exact hall hopen'
    -- the connection was there before
    have hdrops := afterForward_drops (fun _ hs => .refl hs) (forward_keeps hb hforward).booked hafter
    obtain ⟨c, hc⟩ := ((forward_keeps hb hforward).same x).mp ((hdrops.left x).mp ⟨fd, hx⟩).1
    have hfd' : (s.ends x).fd = fd := by
      rw [← hforwards.ends, ← hstill.ends]
      exact hsettled.booked.ownFd trivial fd x hx
    rw [← hb.ownFd trivial c x hc, hfd'] at hc
    rcases Finset.mem_insert.mp hfd with rfl | hfd
    · rw [hlookup] at hc
      exact absurd (Option.some.inj hc).symm hxe
    · rw [hother x hxe]
      exact h.read fd hfd x hc
  · refine ⟨hstill.ends.trans hforwards.ends, hstill.nextEnd.trans hforwards.nextEnd,
      ⟨t, hstill.arrived.trans hforwards.arrived, fun x hx => ⟨f, e, hforwards.source x hx, hf⟩⟩, fun f' e' hf' => ?_,
      fun hfin => nomatch hfin.symm.trans hopen⟩
    rw [← hforwards.ffds]
    exact hstill.ffds f' e' hf'

/-- What a pass over some FileFDs has done when it stops. -/
structure Passed (written : Nat → Bytes) (ffds : List (Nat × Nat)) (visited : Finset Nat) (s : PipeState)
    (stop : DrainStop) (visited' : Finset Nat) (s' : PipeState) : Prop where
  draining : Draining written visited' s'
  drains : Drains s s'
  sub : visited ⊆ visited'
  done : stop = .done → s'.ffd2fd1Ends = s.ffd2fd1Ends ∧ ∀ x ∈ ffds, (s.ends x.2).fd ∈ visited'
  restart : stop = .restart → ∃ x ∈ ffds, (s.ends x.2).fd ∉ visited ∧ (s.ends x.2).fd ∈ visited'
  finished : stop = .finished → s'.finished = true

variable {ffds : List (Nat × Nat)} {stop : DrainStop}

/-- The first FileFD has been visited, and the pass goes on. -/
theorem Passed.cons (h : Passed written ffds visited1 s1 stop visited' s')
    (hdrains : Drains s s1) (hffds : s1.ffd2fd1Ends = s.ffd2fd1Ends) (hsub : visited ⊆ visited1)
    (hx : (s.ends x.2).fd ∈ visited1) : Passed written (x :: ffds) visited s stop visited' s' := by
  obtain ⟨hdraining, hdrains', hsub', hdone, hrestart, hfinished⟩ := h
  rw [hdrains.ends, hffds] at hdone
  rw [hdrains.ends] at hrestart
  refine ⟨hdraining, hdrains.trans hdrains', hsub.trans hsub', fun hs => ⟨(hdone hs).1, ?_⟩, fun hs => ?_, hfinished⟩
  · rintro y (_ | ⟨_, hy⟩)
    · exact hsub' hx
    · exact (hdone hs).2 y hy
  · obtain ⟨y, hy, hnot, hin⟩ := hrestart hs
    exact ⟨y, List.mem_cons_of_mem _ hy, fun hv => hnot (hsub hv), hin⟩

theorem drainPass_spec (hans : answers.Truthful env written) (h : Draining written visited s) (hopen : s.finished = false)
    (hffds : ∀ x ∈ ffds, s.ffd2fd1Ends.lookup x.1 = some x.2)
    (hrun : drainPass env answers ffds visited s = some (stop, visited', s')) :
    Passed written ffds visited s stop visited' s' := by
  induction ffds generalizing s visited with
  | nil =>
    cases hrun
    exact ⟨h, .refl _, Finset.Subset.refl _, fun _ => ⟨rfl, by simp⟩, nofun, nofun⟩
  | cons x ffds ih =>
    obtain ⟨f, e⟩ := x
    have hf : s.ffd2fd1Ends.lookup f = some e := hffds (f, e) List.mem_cons_self
    have hrest : ∀ x ∈ ffds, s.ffd2fd1Ends.lookup x.1 = some x.2 := fun x hx => hffds x (List.mem_cons_of_mem _ hx)
    have hlookup := h.settled.booked.lookup_fd hf
    rw [drainPass] at hrun
    split at hrun
    · rename_i hvisited
      exact (ih h hopen hrest hrun).cons (.refl _) rfl (Finset.Subset.refl _) hvisited
    rename_i hnew
    have hread := hans s (s.ends e).fd e hlookup (h.settled.read hopen e)
    split at hrun
    · cases hrun
    · rename_i s1 hforward
      obtain ⟨s2, hclose, ⟨⟩⟩ := map_eq_some_iff.mp hrun
      have hafter : afterForward env.dup (s.ends e).fd [] id (.fd1Eof, s1) = some s' := hclose
      obtain ⟨hdraining, hdrains⟩ := visit_drains h hopen hf hread hforward hafter
      refine ⟨hdraining, hdrains, Finset.subset_insert _ _, nofun, fun _ => ?_, nofun⟩
      exact ⟨(f, e), List.mem_cons_self, hnew, Finset.mem_insert_self _ _⟩
    · rename_i s1 hforward
      split at hrun
      · rename_i hfin
        exact nomatch hfin.symm.trans (forward_open hlookup hopen hforward)
      obtain ⟨s2, hfinish, ⟨⟩⟩ := map_eq_some_iff.mp hrun
      obtain ⟨hdraining, hdrains⟩ := visit_drains h hopen hf hread hforward hfinish
      refine ⟨hdraining, hdrains, Finset.subset_insert _ _, nofun, nofun, fun _ => ?_⟩
      exact (finish_booked hfinish (forward_keeps h.settled.booked hforward).booked).2
    · -- the end stays, and the iteration goes on
      rename_i r s1 heof hepipe hforward
      have hafter : afterForward env.dup (s.ends e).fd [] id (r, s1) = some s1 := by
        unfold afterForward
        split
        · rename_i heq
          cases heq
          exact absurd rfl heof
        · rename_i heq
          cases heq
          exact absurd rfl hepipe
        rename_i heq
        cases heq
        rfl
      obtain ⟨hdraining, hdrains⟩ := visit_drains h hopen hf hread hforward hafter
      obtain ⟨t, hforwards⟩ := forward_forwards hlookup hforward
      have hpass := ih hdraining (forward_open hlookup hopen hforward) (hforwards.ffds ▸ hrest) hrun
      exact hpass.cons hdrains hforwards.ffds (Finset.subset_insert _ _) (Finset.mem_insert_self _ _)

def unvisited (s : PipeState) (visited : Finset Nat) : Finset (Nat × Nat) :=
  s.ffd2fd1Ends.list.toFinset.filter fun x => (s.ends x.2).fd ∉ visited

variable {x : Nat × Nat}

theorem mem_unvisited : x ∈ s.unvisited visited ↔ s.ffd2fd1Ends.lookup x.1 = some x.2 ∧ (s.ends x.2).fd ∉ visited := by
  rw [unvisited, Finset.mem_filter, List.mem_toFinset, mem_list_iff]

/-- Every restart leaves fewer FileFDs to be visited. -/
theorem unvisited_lt (hdrains : Drains s s') (hsub : visited ⊆ visited')
    (hx : s.ffd2fd1Ends.lookup x.1 = some x.2) (hnot : (s.ends x.2).fd ∉ visited) (hin : (s.ends x.2).fd ∈ visited') :
    (s'.unvisited visited').card < (s.unvisited visited).card := by
  apply Finset.card_lt_card
  refine Finset.ssubset_iff_subset_ne.mpr ⟨fun y hy => ?_, fun heq => ?_⟩
  · obtain ⟨hy, hynot⟩ := mem_unvisited.mp hy
    rw [hdrains.ends] at hynot
    exact mem_unvisited.mpr ⟨hdrains.ffds _ _ hy, fun hv => hynot (hsub hv)⟩
  have hmem : x ∈ s'.unvisited visited' := by
    rw [heq]
    exact mem_unvisited.mpr ⟨hx, hnot⟩
  obtain ⟨_, hxnot⟩ := mem_unvisited.mp hmem
  rw [hdrains.ends] at hxnot
  exact hxnot hin

theorem drainLoop_spec (hans : answers.Truthful env written) (h : Draining written visited s)
    (hfuel : (s.unvisited visited).card < n) (hrun : drainLoop env answers n visited s = some s') :
    Settled written s' ∧ Drains s s' ∧
      (s'.finished = false → ∀ f e, s'.ffd2fd1Ends.lookup f = some e → through e s'.arrived = written e) := by
  induction n generalizing s visited with
  | zero => omega
  | succ n ih =>
    rw [drainLoop] at hrun
    cases hfin : s.finished with
    | true =>
      -- no FileFD is left
      have hnone : s.ffd2fd1Ends.list = [] := by
        apply List.eq_nil_iff_forall_not_mem.mpr
        intro x hx
        have hb := h.settled.booked
        exact hb.closed hfin x.2 (hb.fileFds x.1 x.2 (mem_list_iff.mp hx)).2
      rw [hnone] at hrun
      cases hrun
      refine ⟨h.settled, .refl _, fun hopen => ?_⟩
      exact nomatch hfin.symm.trans hopen
    | false =>
      split at hrun
      · cases hrun
      · rename_i visited1 s1 hpass
        obtain ⟨hdraining, hdrains, hsub, _, hrestart, _⟩ :=
          drainPass_spec hans h hfin (fun x hx => mem_list_iff.mp hx) hpass
        obtain ⟨x, hx, hnot, hin⟩ := hrestart rfl
        have hless := unvisited_lt hdrains hsub (mem_list_iff.mp hx) hnot hin
        obtain ⟨hsettled, hdrains', hread⟩ := ih hdraining (by omega) hrun
        exact ⟨hsettled, hdrains.trans hdrains', hread⟩
      · rename_i stop visited1 s1 hstop hpass
        cases hrun
        obtain ⟨hdraining, hdrains, _, hdone, _, hfinished⟩ :=
          drainPass_spec hans h hfin (fun x hx => mem_list_iff.mp hx) hpass
        refine ⟨hdraining.settled, hdrains, fun hopen f e hf => ?_⟩
        cases stop with
        | restart => exact absurd rfl hstop
        | finished => exact nomatch (hfinished rfl).symm.trans hopen
        | done =>
          obtain ⟨hffds, hall⟩ := hdone rfl
          have hlookup := hdraining.settled.booked.lookup_fd hf
          rw [hffds] at hf
          refine hdraining.read _ ?_ e hlookup
          rw [hdrains.ends]
          exact hall (f, e) (mem_list_iff.mpr hf)

/-- After `drain`, the pipe is finished, or all that was written to the ends that had FileFDs has
    been read. -/
theorem drain_spec (hans : answers.Truthful env written) (h : Settled written s)
    (hrun : s.drain env answers = some s') :
    Settled written s' ∧ Drains s s' ∧
      (s'.finished = false → ∀ f e, s.ffd2fd1Ends.lookup f = some e → through e s'.arrived = written e) := by
  unfold drain at hrun
  split at hrun
  · rename_i hfin
    cases hrun
    refine ⟨h, .refl _, fun hopen => ?_⟩
    exact nomatch hfin.symm.trans hopen
  have hfuel : (s.unvisited ∅).card < s.ffd2fd1Ends.list.length + 1 := by
    have hcard := (Finset.card_filter_le s.ffd2fd1Ends.list.toFinset fun x => (s.ends x.2).fd ∉ (∅ : Finset Nat)).trans
      (List.toFinset_card_le _)
    exact Nat.lt_succ_of_le hcard
  obtain ⟨hsettled, hdrains, hread⟩ := drainLoop_spec hans ⟨h, by simp⟩ hfuel hrun
  refine ⟨hsettled, hdrains, fun hopen f e hf => ?_⟩
  obtain ⟨hmem, hhas⟩ := h.booked.fileFds f e hf
  by_cases he : s'.HasEnd e
  · -- the end is left, and so is its FileFD
    rw [← hdrains.ends] at hmem
    exact hread hopen f e (hsettled.owned e he f hmem)
  refine hsettled.dropped hopen e ?_ he
  rw [hdrains.nextEnd]
  exact h.booked.numbered e hhas

end PipeState
end Firebuild
