/-
  Firebuild.PipeHandshake — creating a pipe (`process.cc`: `handle_pipe_request` and
  `handle_pipe_fds`; `process_tree.h`: `QueuePendingPipe`; `tpl_pipe.c.jinja2`).

  The supervisor creates two pipes, sends an end of each, and keeps the other two as the
  pending pipe of the process until it is told the numbers the process got. A process that
  is out of descriptors tells nothing: its pending pipe stays, with both ends, and the next
  request of the process hits the assertion (`a_pipe_without_fds_stays_pending`).

  Processes take their steps in any order, and have one pipe() at a time: it holds the lock
  of the interceptor. An assertion that fails is `none`.

  Proved: `pipes_are_handed_over`, when every process gets the fds that are sent to it.
-/

import Mathlib.Logic.Function.Basic

namespace Firebuild.PipeHandshake

open Function (update update_self update_of_ne)

/-- The ends of the pipe to the supervisor and of the one back. -/
inductive End where
  | up0 | up1 | down0 | down1
  deriving DecidableEq

/-- `fd0` is the end `down1` of the request `id`, and `fd1` its `up0`. -/
structure PendingPipe where
  id : Nat
  flags : Nat

structure FileFD where
  flags : Nat
  pipe : Nat
  isFd1 : Bool

inductive PipeCreated where
  | errorNo (e : Nat)
  | fds (id : Nat)

def PipeCreated.id? : PipeCreated → Option Nat
  | .errorNo _ => none
  | .fds id => some id

structure State where
  proc2pendingPipe : Nat → Option PendingPipe := fun _ => none
  /-- The ends that are open in the supervisor. -/
  ends : List (Nat × End) := []
  getFd : Nat → Nat → Option FileFD := fun _ _ => none
  disabled : List Nat := []
  requests : Nat := 0
  /-- The answers to the processes that are in pipe(). -/
  calls : Nat → Option PipeCreated := fun _ => none
  /-- The pipes whose ends a process got. -/
  got : List Nat := []

namespace State

def «open» (es : List (Nat × End)) (s : State) : State := { s with ends := es ++ s.ends }

def close (es : List (Nat × End)) (s : State) : State := { s with ends := s.ends.filter (· ∉ es) }

/-- `up` and `down` are the errors of the two calls of pipe2(). -/
def handlePipeRequest (proc flags : Nat) (up down : Option Nat) (s : State) : Option State :=
  let id := s.requests
  let s1 := { s with requests := id + 1 }
  let answer r (s : State) := some { s with calls := update s.calls proc (some r) }
  if (s.proc2pendingPipe proc).isSome then none
  else match up, down with
    | some e, _ => answer (.errorNo e) s1
    | none, some e => answer (.errorNo e) ((s1.open [(id, .up0), (id, .up1)]).close [(id, .up0), (id, .up1)])
    | none, none =>
      let s2 := (s1.open [(id, .up0), (id, .up1), (id, .down0), (id, .down1)]).close [(id, .down0), (id, .up1)]
      answer (.fds id) { s2 with proc2pendingPipe := update s.proc2pendingPipe proc (some { id, flags }) }

def addFilefd (proc fd : Nat) (ffd : FileFD) (s : State) : State :=
  { s with getFd := update s.getFd proc (update (s.getFd proc) fd (some ffd)) }

def dropPendingPipe (proc : Nat) (s : State) : State :=
  { s with proc2pendingPipe := update s.proc2pendingPipe proc none }

def handlePipeFds (proc fd0 fd1 : Nat) (s : State) : Option State :=
  (s.proc2pendingPipe proc).map fun pending =>
    dropPendingPipe proc <|
      if (s.getFd proc fd0).isSome || (s.getFd proc fd1).isSome then
        { s.close [(pending.id, .down1), (pending.id, .up0)] with disabled := proc :: s.disabled }
      else
        -- O_ACCMODE is 3, and O_WRONLY 1
        (s.addFilefd proc fd0 ⟨pending.flags / 4 * 4, pending.id, false⟩).addFilefd proc fd1
          ⟨pending.flags / 4 * 4 + 1, pending.id, true⟩

/-- The end of pipe(), with the fds that came with the answer. No message is sent if it failed. -/
def pipeReturns (proc : Nat) (received : Option (Nat × Nat)) (s : State) : Option State :=
  let s1 := { s with calls := update s.calls proc none }
  match s.calls proc, received with
  | some (.fds id), some (fd0, fd1) => handlePipeFds proc fd0 fd1 { s1 with got := id :: s.got }
  | _, _ => some s1

end State

open State

inductive Step where
  | pipeRequest (proc flags : Nat) (up down : Option Nat)
  | pipeReturns (proc : Nat) (received : Option (Nat × Nat))
  /-- The process opens and closes other fds. -/
  | other (getFd : Nat → Nat → Option FileFD)

def Step.run : Step → State → Option State
  | .pipeRequest proc flags up down, s => s.handlePipeRequest proc flags up down
  | .pipeReturns proc received, s => s.pipeReturns proc received
  | .other getFd, s => some { s with getFd }

def Step.Enabled (s : State) : Step → Prop
  | .pipeRequest proc _ _ _ => s.calls proc = none
  | .pipeReturns proc _ => s.calls proc ≠ none
  | .other _ => True

def Step.Receives (s : State) : Step → Prop
  | .pipeReturns proc received => ∀ id, s.calls proc = some (.fds id) → received ≠ none
  | _ => True

inductive Reached : State → Prop where
  | start (getFd : Nat → Nat → Option FileFD) : Reached { getFd }
  | step {s s' : State} (st : Step) (h : Reached s) (hen : st.Enabled s) (hok : st.Receives s)
    (hrun : st.run s = some s') : Reached s'

/-- The pending pipe of a process is that of the request it waits for, and the supervisor has
    no other ends than those and the ones of pipes that were received. -/
structure HandedOver (s : State) : Prop where
  pending : ∀ p, (s.proc2pendingPipe p).map (·.id) = (s.calls p).bind PipeCreated.id?
  owned : ∀ x ∈ s.ends, x.1 ∈ s.got ∨ ∃ p, s.calls p = some (.fds x.1)

variable {s s' : State} {proc : Nat}

/-- A step of `proc` leaves the other processes alone. -/
theorem HandedOver.of_proc (proc : Nat) (h : HandedOver s)
    (hother : ∀ p, p ≠ proc → s'.proc2pendingPipe p = s.proc2pendingPipe p ∧ s'.calls p = s.calls p)
    (hproc : (s'.proc2pendingPipe proc).map (·.id) = (s'.calls proc).bind PipeCreated.id?)
    (hgot : ∀ id ∈ s.got, id ∈ s'.got)
    (hends : ∀ x ∈ s'.ends, x ∈ s.ends ∨ s'.calls proc = some (.fds x.1))
    (hcall : ∀ id, s.calls proc = some (.fds id) → id ∈ s'.got) : HandedOver s' := by
  refine ⟨fun p => ?_, fun x hx => ?_⟩
  · by_cases hp : p = proc
    · rw [hp, hproc]
    · rw [(hother p hp).1, (hother p hp).2, h.pending]
  rcases hends x hx with hx | hx
  · rcases h.owned x hx with hx | ⟨p, hp⟩
    · exact .inl (hgot _ hx)
    by_cases hpp : p = proc
    · exact .inl (hcall _ (hpp ▸ hp))
    · exact .inr ⟨p, by rw [(hother p hpp).2, hp]⟩
  · exact .inr ⟨proc, hx⟩

theorem HandedOver.request (h : HandedOver s) (hcall : s.calls proc = none) :
    ∃ s', s.handlePipeRequest proc flags up down = some s' ∧ HandedOver s' := by
  have hnone : s.proc2pendingPipe proc = none := by simpa [hcall] using h.pending proc
  unfold handlePipeRequest
  rw [hnone]
  match up, down with
  | some e, _ =>
    exact ⟨_, rfl, h.of_proc proc (fun p hp => by simp [hp]) (by simp [hnone, PipeCreated.id?]) (fun _ => id)
      (fun _ => .inl) (by simp [hcall])⟩
  | none, some e =>
    refine ⟨_, rfl, h.of_proc proc (fun p hp => by simp [hp, close, «open»]) (by simp [close, «open», hnone, PipeCreated.id?])
      (fun _ => id) (fun x hx => ?_) (by simp [hcall])⟩
    simp only [close, «open», List.mem_filter, List.mem_append, decide_eq_true_eq] at hx
    exact .inl (hx.1.resolve_left hx.2)
  | none, none =>
    refine ⟨_, rfl, h.of_proc proc (fun p hp => by simp [hp, close, «open»]) (by simp [PipeCreated.id?]) (fun _ => id)
      (fun x hx => ?_) (by simp [hcall])⟩
    simp only [close, «open», List.mem_filter, List.mem_append] at hx
    refine hx.1.symm.imp_right fun hx => ?_
    simp only [List.mem_cons, List.not_mem_nil, or_false] at hx
    rcases hx with rfl | rfl | rfl | rfl <;> exact update_self ..

theorem HandedOver.returns (h : HandedOver s)
    (hok : ∀ id, s.calls proc = some (.fds id) → received ≠ none) :
    ∃ s', s.pipeReturns proc received = some s' ∧ HandedOver s' := by
  unfold pipeReturns
  have hpend := h.pending proc
  split
  · rename_i id fd0 fd1 hcall
    rw [hcall] at hpend
    obtain ⟨pending, hp, rfl⟩ := Option.map_eq_some_iff.mp hpend
    rw [handlePipeFds, hp]
    have hgot : ∀ id, s.calls proc = some (.fds id) → id ∈ pending.id :: s.got := fun id hid => by
      cases hcall.symm.trans hid
      exact List.mem_cons_self
    refine ⟨_, rfl, ?_⟩
    split
    · exact h.of_proc proc (fun p hp => by simp [hp, dropPendingPipe, close]) (by simp [dropPendingPipe, close])
        (fun _ => List.mem_cons_of_mem _) (fun x hx => .inl (List.mem_filter.mp hx).1) hgot
    · exact h.of_proc proc (fun p hp => by simp [hp, dropPendingPipe, addFilefd]) (by simp [dropPendingPipe, addFilefd])
        (fun _ => List.mem_cons_of_mem _) (fun _ => .inl) hgot
  · rename_i hcalls
    -- no fds were sent
    have hno : ∀ id, s.calls proc ≠ some (.fds id) := fun id hid => by
      obtain ⟨fds, hfds⟩ := Option.ne_none_iff_exists'.mp (hok id hid)
      exact hcalls id fds.1 fds.2 hid hfds
    have hnone : s.proc2pendingPipe proc = none := by
      cases hc : s.calls proc with
      | none => simpa [hc] using hpend
      | some r =>
        cases r with
        | errorNo e => simpa [hc, PipeCreated.id?] using hpend
        | fds id => exact absurd hc (hno id)
    exact ⟨_, rfl, h.of_proc proc (fun p hp => by simp [hp]) (by simp [hnone]) (fun _ => id) (fun _ => .inl)
      fun id hid => absurd hid (hno id)⟩

theorem HandedOver.step {st : Step} (h : HandedOver s) (hen : st.Enabled s) (hok : st.Receives s) :
    ∃ s', st.run s = some s' ∧ HandedOver s' := by
  cases st with
  | pipeRequest proc flags up down => exact h.request hen
  | pipeReturns proc received => exact h.returns hok
  | other getFd => exact ⟨_, rfl, h.pending, h.owned⟩

theorem Reached.handedOver (h : Reached s) : HandedOver s := by
  induction h with
  | start getFd => exact ⟨fun _ => rfl, nofun⟩
  | step _ _ hen hok hrun ih =>
    obtain ⟨s1, h1, hs1⟩ := ih.step hen hok
    cases hrun.symm.trans h1
    exact hs1

/-- As long as every process gets the fds that are sent to it: a process that is in no pipe()
    has no pending pipe, the fds a process reports are matched with the pipe of its request, the
    supervisor owns ends of no other pipes than those, and no assertion fails. -/
theorem pipes_are_handed_over (h : Reached s) :
    (∀ p, s.calls p = none → s.proc2pendingPipe p = none) ∧
    (∀ p id, s.calls p = some (.fds id) → ∃ pending, s.proc2pendingPipe p = some pending ∧ pending.id = id) ∧
    (∀ x ∈ s.ends, x.1 ∈ s.got ∨ ∃ p, s.calls p = some (.fds x.1)) ∧
    ∀ st : Step, st.Enabled s → st.Receives s → (st.run s).isSome := by
  have hs := h.handedOver
  refine ⟨fun p hp => ?_, fun p id hp => ?_, hs.owned, fun st hen hok => ?_⟩
  · simpa [hp] using hs.pending p
  · have := hs.pending p
    rw [hp] at this
    exact Option.map_eq_some_iff.mp this
  obtain ⟨s', hrun, _⟩ := hs.step hen hok
  rw [hrun]
  rfl

/-- The state of a process that has its pipe. -/
theorem pipes_are_handed_over_once :
    ∃ s, Reached s ∧ s.got = [0] ∧ s.proc2pendingPipe 1 = none ∧ s.ends = [(0, .up0), (0, .down1)] := by
  have hreq : Reached _ := (Reached.start fun _ _ => none).step (.pipeRequest 1 0 none none) rfl trivial rfl
  have hret : Reached _ := hreq.step (.pipeReturns 1 (some (3, 4))) nofun nofun rfl
  exact ⟨_, hret, rfl, (pipes_are_handed_over hret).1 1 rfl, rfl⟩

/-- The process got no fds. The supervisor keeps the pending pipe and its ends, and the next
    pipe() of the process fails the assertion. -/
theorem a_pipe_without_fds_stays_pending :
    ∃ s s', (Step.pipeRequest 1 0 none none).run {} = some s ∧ (Step.pipeReturns 1 none).run s = some s' ∧
      (s'.calls 1).isNone ∧ (s'.proc2pendingPipe 1).isSome ∧ s'.got = [] ∧ s'.ends = [(0, .up0), (0, .down1)] ∧
      (Step.pipeRequest 1 0 none none).run s' = none :=
  ⟨_, _, rfl, rfl, rfl, rfl, rfl, rfl, rfl⟩

end Firebuild.PipeHandshake
