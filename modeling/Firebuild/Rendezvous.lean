/-
  Firebuild.Rendezvous — fork() and popen(), where a parent's message and its child's come in
  either order (`message_processor.cc`: `accept_fork_child`, `accept_popen_child`,
  `proc_new_process_msg`, the cases fork_parent, popen, popen_parent and popen_failed of
  `proc_ic_msg`).

  The one that comes first is parked in a queue under the parent. Events of other processes
  may come in between, other rendezvous among them (`Event.Elsewhere`).
    - `children_meet_parents`: in either order one child is made, with the fds of the call, and
      both sides are answered once; nothing stays in the queues.
    - `popen_failed_leaves_pending`: popen_failed takes back the expected child, but neither the
      flag nor the queued popen, so the process is not finalized and cannot popen() again.
-/

import Firebuild.Parked
import Firebuild.Queues

namespace Firebuild

open Option (bind_eq_some_iff bind_some isSome_none map_eq_some_iff map_map map_some)
namespace ProcessTree

open Population (Busy Options Spares idle idle_eq modifyExeced modifyFds modifyProc newForked runOps setTerminated)
open Lives (Footing Exempt)
open FdTable (put)

variable {s s' s'' s₁ s1 s₂ s2 x : ProcessTree} {o : Options} {P : ProcessTree → Event → Prop} {e : Event} {es : List Event}
  {p q c k conn pid ppid ack parentConn parentAck parent : Nat} {ks js : List Nat} {start : Start} {isQemu : Bool}

/-! ## What goes on elsewhere -/

def Event.Elsewhere (ks js : List Nat) (s : ProcessTree) (e : Event) : Prop :=
  (∀ k ∈ ks, k ∉ e.pids s) ∧ ∀ j ∈ js, j ∉ e.conns s

instance (ks js : List Nat) (s : ProcessTree) (e : Event) : Decidable (e.Elsewhere ks js s) :=
  inferInstanceAs (Decidable (_ ∧ _))

/-- A process of one of the pids that runs, or whose exec child does. -/
def Engaged (ks : List Nat) (s : Population) (q : Nat) : Prop :=
  q ≠ 0 ∧ (s.proc q).pid ∈ ks ∧ ((s.life q).state = .running ∨
    ∃ c, (s.life q).execChild = some c ∧ c ≠ 0 ∧ c < s.size ∧ (s.life c).state = .running ∧ (s.proc c).pid ∈ ks)

structure Untouched (ks js : List Nat) (s s' : ProcessTree) : Prop where
  size : s.size ≤ s'.size
  pid : ∀ q, q < s.size → (s'.proc q).pid = (s.proc q).pid
  conns : ∀ j ∈ js, s'.conns j = s.conns j
  pid2proc : ∀ k ∈ ks, s'.pid2proc k = s.pid2proc k
  parentAck : ∀ k ∈ ks, s'.parentAck k = s.parentAck k
  forkChildSock : ∀ k ∈ ks, s'.forkChildSock k = s.forkChildSock k
  pendingPopen : ∀ q, q < s.size → (s.proc q).pid ∈ ks → s'.pendingPopen q = s.pendingPopen q
  engaged : ∀ q, q < s.size → Engaged ks s.toPopulation q →
    calm (s'.life q) = calm (s.life q) ∧ idle (s'.proc q) = idle (s.proc q)

namespace Untouched

theorem keeps_engaged (h : Untouched ks js s s') (hq : q < s.size) (he : Engaged ks s.toPopulation q) :
    Engaged ks s'.toPopulation q := by
  obtain ⟨-, -, -, -, hstate, hchild, -⟩ := calm_eq (h.engaged q hq he).1
  obtain ⟨h0, hpid, hrun⟩ := he
  refine ⟨h0, by rw [h.pid q hq]; exact hpid, ?_⟩
  rcases hrun with hrun | ⟨c, hc, hc0, hcs, hcrun, hcpid⟩
  · exact .inl (hstate.trans hrun)
  · obtain ⟨-, -, -, -, hcstate, -⟩ := calm_eq (h.engaged c hcs ⟨hc0, hcpid, .inl hcrun⟩).1
    exact .inr ⟨c, hchild.trans hc, hc0, hcs.trans_le h.size, hcstate.trans hcrun, by rw [h.pid c hcs]; exact hcpid⟩

theorem refl (s : ProcessTree) : Untouched ks js s s :=
  ⟨le_rfl, fun _ _ => rfl, fun _ _ => rfl, fun _ _ => rfl, fun _ _ => rfl, fun _ _ => rfl, fun _ _ _ => rfl,
    fun _ _ _ => ⟨rfl, rfl⟩⟩

theorem trans (h : Untouched ks js s s') (h' : Untouched ks js s' s'') : Untouched ks js s s'' := by
  have hlt : ∀ q, q < s.size → q < s'.size := fun q hq => hq.trans_le h.size
  refine ⟨h.size.trans h'.size, fun q hq => (h'.pid q (hlt q hq)).trans (h.pid q hq),
    fun j hj => (h'.conns j hj).trans (h.conns j hj), fun k hk => (h'.pid2proc k hk).trans (h.pid2proc k hk),
    fun k hk => (h'.parentAck k hk).trans (h.parentAck k hk),
    fun k hk => (h'.forkChildSock k hk).trans (h.forkChildSock k hk), fun q hq hk => ?_, fun q hq he => ?_⟩
  · exact (h'.pendingPopen q (hlt q hq) (by rw [h.pid q hq]; exact hk)).trans (h.pendingPopen q hq hk)
  obtain ⟨hlife, hproc⟩ := h.engaged q hq he
  obtain ⟨hlife', hproc'⟩ := h'.engaged q (hlt q hq) (h.keeps_engaged hq he)
  exact ⟨hlife'.trans hlife, hproc'.trans hproc⟩

theorem of_touches (h : Touches cs is js' ks' s s') (hks : ∀ k ∈ ks, k ∉ ks')
    (hjs : ∀ j ∈ js, j ∉ js') : Untouched ks js s s' := by
  refine ⟨h.spares.size, h.spares.pid, fun j hj => h.spares.conns j (hjs j hj), fun k hk => h.pid2proc k (hks k hk),
    fun k hk => h.parentAck k (hks k hk), fun k hk => h.forkChildSock k (hks k hk),
    fun q hq hk => h.pendingPopen q hq (hks _ hk), fun q hq he => h.spares.busy q hq ?_⟩
  obtain ⟨h0, hpid, hrun⟩ := he
  exact ⟨h0, hks _ hpid, hrun.imp id fun ⟨c, hc, hc0, hcs, hcrun, hcpid⟩ => ⟨c, hc, hc0, hcs, hcrun, hks _ hcpid⟩⟩

end Untouched

theorem Reach.imp (h : Reach o P s) (hPQ : ∀ s e, P s e → Q s e) : Reach o Q s := by
  induction h with
  | init => exact .init
  | step _ hP he ih => exact .step ih (hPQ _ _ hP) he

/-- The root stands for a process that is not the supervisor's any more. -/
theorem Reach.root_ended (h : Reach o P s) : (s.life 0).state ≠ .running := by
  have hlog : .terminated 0 ∈ s.log := by
    induction h with
    | init => exact List.mem_singleton.mpr rfl
    | step h _ he ih =>
      exact (h.ticks he).moves.grows.2.subset ih
  exact (h.chronicled.terminated_iff 0 h.footing.shape.pos).mp hlog

/-- A run of events elsewhere. -/
theorem untouched_of_runWhile (h : Reach o (fun _ _ => True) s)
    (he : Reach.runWhile o (Event.Elsewhere ks js) es s = some s') :
    Untouched ks js s s' ∧ Reach o (fun _ _ => True) s' := by
  induction es generalizing s with
  | nil =>
    cases he
    exact ⟨.refl _, h⟩
  | cons e es ih =>
    rw [Reach.runWhile] at he
    split at he
    · next hP =>
      obtain ⟨s1, h1, he⟩ := bind_eq_some_iff.mp he
      obtain ⟨hunt, hreach⟩ := ih (.step h trivial h1) he
      exact ⟨(Untouched.of_touches (step_touches h.footing h.known h1) hP.1 hP.2).trans hunt, hreach⟩
    · cases he

/-! ## fork() -/

theorem mem_pids_noFork (e : Event) : k ∈ e.pids (noFork k s) ↔ k ∈ e.pids s := by
  cases e with
  | message conn ack m =>
    have hconns : (noFork k s).conns = s.conns := rfl
    have hproc : (noFork k s).proc = s.proc := rfl
    simp only [Event.pids, hconns]
    split
    · next p _ =>
      by_cases hk : (s.proc p).pid = k
      · simp [hproc, hk]
      cases m with
      | forkParent => simp only [Message.pids, hproc, noFork_forkChildSock hk]
      | _ => exact Iff.rfl
    · exact Iff.rfl
  | _ => exact Iff.rfl

theorem noFork_eq (h : noFork k s = noFork k s') :
    s.toPopulation = s'.toPopulation ∧ s.pid2proc = s'.pid2proc ∧ s.pendingPopen = s'.pendingPopen := by
  simp only [noFork, mk.injEq] at h
  exact ⟨h.1, h.2.1, h.2.2.2.2⟩

theorem eq_of_noFork (h : noFork k s = noFork k s') (hack : s.parentAck k = s'.parentAck k)
    (hfork : s.forkChildSock k = s'.forkChildSock k) : s = s' := by
  obtain ⟨hpop, hpid, hpopen⟩ := noFork_eq h
  have hacks : s.parentAck = s'.parentAck := by
    funext i
    by_cases hi : i = k
    · rw [hi, hack]
    · rw [← noFork_parentAck hi, h, noFork_parentAck hi]
  have hforks : s.forkChildSock = s'.forkChildSock := by
    funext i
    by_cases hi : i = k
    · rw [hi, hfork]
    · rw [← noFork_forkChildSock hi, h, noFork_forkChildSock hi]
  cases s
  simp_all

/-- Events elsewhere go the same way with something parked under the pid. -/
theorem run_parked (hk : k ∈ ks) (h : Reach o (fun _ _ => True) s)
    (he : Reach.runWhile o (Event.Elsewhere ks js) es s = some s1) (hx : noFork k x = noFork k s) :
    ∃ x1, run o es x = some x1 ∧ noFork k x1 = noFork k s1 ∧ x1.parentAck k = x.parentAck k ∧
      x1.forkChildSock k = x.forkChildSock k := by
  induction es generalizing s x with
  | nil =>
    cases he
    exact ⟨x, rfl, hx, rfl, rfl⟩
  | cons e es ih =>
    rw [Reach.runWhile] at he
    split at he
    · next hP =>
      obtain ⟨s2, h2, he⟩ := bind_eq_some_iff.mp he
      have hpids : k ∉ e.pids x := by
        rw [← mem_pids_noFork, hx, mem_pids_noFork]
        exact hP.1 k hk
      obtain ⟨hpop, hmap, hpopen⟩ := noFork_eq hx
      have hfoot : Footing none x.toLives := by
        rw [hpop]
        exact h.footing
      have hknown : Known x := by
        obtain ⟨h1, h2, h3, h4⟩ := h.known
        exact ⟨by rw [hmap, hpop]; exact h1, by rw [hpop]; exact h2, by rw [hpop]; exact h3,
          by rw [hpopen, hpop]; exact h4⟩
      -- both take the step that the state without the entries takes
      have hstep : (x.step o e).map (noFork k) = some (noFork k s2) := by
        rw [← step_noFork hknown hpids, hx, step_noFork h.known (hP.1 k hk), h2]
        rfl
      obtain ⟨x2, hx2, hno⟩ := map_eq_some_iff.mp hstep
      obtain ⟨x1, hrun, hx1, hack, hfork⟩ := ih (.step h trivial h2) he hno
      have htouch := step_touches hfoot hknown hx2
      refine ⟨x1, ?_, hx1, hack.trans (htouch.parentAck k hpids), hfork.trans (htouch.forkChildSock k hpids)⟩
      rw [run, hx2]
      exact hrun
    · cases he

theorem noFork_setParentAck_self (a : Option PendingParentAck) : noFork k (s.setParentAck k a) = noFork k s := by
  simp only [noFork, setParentAck, mk.injEq, true_and, and_true]
  funext i
  split <;> rfl

theorem noFork_setForkChildSock_self (x : Option ForkChildSock) : noFork k (s.setForkChildSock k x) = noFork k s := by
  simp only [noFork, setForkChildSock, mk.injEq, true_and, and_true]
  funext i
  split <;> rfl

theorem run_parked_eq (hk : k ∈ ks) (h : Reach o (fun _ _ => True) s)
    (he : Reach.runWhile o (Event.Elsewhere ks js) es s = some s1) (hx : noFork k x = noFork k s)
    (hy : noFork k y = noFork k s1) (hack : y.parentAck k = x.parentAck k)
    (hfork : y.forkChildSock k = x.forkChildSock k) : run o es x = some y := by
  obtain ⟨x1, hrun, hx1, hack1, hfork1⟩ := run_parked hk h he hx
  rw [hrun, eq_of_noFork (hx1.trans hy.symm) (hack1.trans hack.symm) (hfork1.trans hfork.symm)]

/-- A process forks and neither side has been heard of. -/
structure ForkCalled (s : ProcessTree) (p k cp cc : Nat) : Prop where
  parent : s.conns cp = some (.proc p)
  child : s.conns cc = some .null
  alive : (s.proc p).deleted = false
  pid : (s.proc p).pid = k
  found : s.pid2proc k = some p
  noAck : s.parentAck k = none
  noChild : s.forkChildSock k = none

/-- The child is made out of `s₁`; fork() was called in `s`. -/
structure Forked (s s₁ : ProcessTree) (p k pid cp cc a b : Nat) (s' : ProcessTree) : Prop where
  size : s'.size = s₁.size + 1
  others : ∀ q, q < s₁.size → q ≠ p → s'.life q = s₁.life q
  parent : s'.life p = { s₁.life p with forkChildren := (s.life p).forkChildren ++ [s₁.size] }
  procs : ∀ q, q < s₁.size → s'.proc q = s₁.proc q
  child : s'.life s₁.size = { parent := some p, forkPoint := s₁.size, execPoint := (s.life p).execPoint }
  fds : s'.proc s₁.size = { pid, fds := (s.proc p).fds.passOn false }
  found : ∀ i, s'.pid2proc i = if i = pid then some s₁.size else s₁.pid2proc i
  conns : ∀ j, s'.conns j = if j = cc then some (.proc s₁.size) else s₁.conns j
  sent : s'.sent = { conn := cc, answers := b } :: { conn := cp, answers := a } :: s₁.sent
  queues : s'.parentAck = s₁.parentAck ∧ s'.forkChildSock = s₁.forkChildSock ∧ s'.pendingPopen = s₁.pendingPopen ∧
    s'.posixSpawnChildSock = s₁.posixSpawnChildSock
  noAck : s'.parentAck k = none
  noChild : s'.forkChildSock k = none

theorem acceptForkChild_spec (cp a b pid : Nat) (hcc : s.conns cc = some .null) (hp : p < s.size)
    (hack : s.parentAck k = none) (hfork : s.forkChildSock k = none) :
    ∃ s', s.acceptForkChild p cp a pid cc b = some s' ∧ Forked s s p k pid cp cc a b s' := by
  rw [acceptForkChild, if_pos hcc]
  refine ⟨_, rfl, rfl, fun q hq hqp => ?_, ?_, fun q hq => ?_, ?_, ?_, fun i => ?_, fun _ => rfl, rfl, ⟨rfl, rfl, rfl, rfl⟩,
    hack, hfork⟩
  · exact (Lives.addForked_life s.toLives p q hq).trans (if_neg hqp)
  · exact (Lives.addForked_life s.toLives p p hp).trans (if_pos rfl)
  · exact if_neg hq.ne
  · exact if_pos rfl
  · exact if_pos rfl
  · show (if i = (if s.size = s.size then _ else s.proc s.size : Population.Process).pid then _ else _) = _
    rw [if_pos rfl]
    rfl

theorem acceptForkChild_setParentAck (x : Option PendingParentAck) :
    (s.setParentAck k x).acceptForkChild parent parentConn parentAck pid conn ack =
      (s.acceptForkChild parent parentConn parentAck pid conn ack).map fun s' => s'.setParentAck k x := by
  rw [acceptForkChild, acceptForkChild, apply_ite (Option.map _)]
  rfl

theorem acceptForkChild_setForkChildSock (x : Option ForkChildSock) :
    (s.setForkChildSock k x).acceptForkChild parent parentConn parentAck pid conn ack =
      (s.acceptForkChild parent parentConn parentAck pid conn ack).map fun s' => s'.setForkChildSock k x := by
  rw [acceptForkChild, acceptForkChild, apply_ite (Option.map _)]
  rfl

theorem setParentAck_none (h : s.parentAck k = none) (x : Option PendingParentAck) :
    (s.setParentAck k x).setParentAck k none = s :=
  eq_of_noFork ((noFork_setParentAck_self none).trans (noFork_setParentAck_self x)) (by simp [setParentAck, h]) rfl

theorem setForkChildSock_none (h : s.forkChildSock k = none) (x : Option ForkChildSock) :
    (s.setForkChildSock k x).setForkChildSock k none = s :=
  eq_of_noFork ((noFork_setForkChildSock_self none).trans (noFork_setForkChildSock_self x)) rfl (by simp [setForkChildSock, h])

theorem alive_eq {ps : Population} (h : (ps.proc p).deleted = false) : ps.alive p = some p := by
  simp [Population.alive, h]

variable {cp cc a b f : Nat} {env : Population.ExecedProcessEnv} {fd : Nat} {ps ps' : Population}

/-- The one that is first is parked, and nothing else is done; whichever is second, the same state is reached. -/
structure ForkMeets (o : Options) (s : ProcessTree) (es : List Event) (s₁ : ProcessTree) (p k pid cp cc a b : Nat) :
    Prop where
  parentFirst : run o (.message cp a .forkParent :: es) s = some (s₁.setParentAck k (some ⟨a, cp⟩))
  childFirst : run o (.forkChild cc pid k b :: es) s = some (s₁.setForkChildSock k (some ⟨cc, pid, b⟩))
  meet : ∃ s', (s₁.setParentAck k (some ⟨a, cp⟩)).step o (.forkChild cc pid k b) = some s' ∧
    (s₁.setForkChildSock k (some ⟨cc, pid, b⟩)).step o (.message cp a .forkParent) = some s' ∧
    Forked s s₁ p k pid cp cc a b s'

theorem fork_either_order (a b pid : Nat) (h : Reach o P s) (hf : ForkCalled s p k cp cc)
    (hes : Reach.runWhile o (Event.Elsewhere [k] [cp, cc]) es s = some s1) (hp : (s1.proc p).deleted = false) :
    ForkMeets o s es s1 p k pid cp cc a b := by
  have h := h.imp fun _ _ _ => trivial
  obtain ⟨hunt, hreach⟩ := untouched_of_runWhile h hes
  obtain ⟨hlt, hrun⟩ := h.footing.conns cp p hf.parent
  have hengaged : Engaged [k] s.toPopulation p :=
    ⟨fun h0 => h.root_ended (h0 ▸ hrun), List.mem_singleton.mpr hf.pid, .inl hrun⟩
  obtain ⟨hcalm, hidle⟩ := hunt.engaged p hlt hengaged
  have hpid1 : (s1.proc p).pid = k := (hunt.pid p hlt).trans hf.pid
  have hcp : s1.conns cp = some (.proc p) := (hunt.conns cp (by simp)).trans hf.parent
  have hcc : s1.conns cc = some .null := (hunt.conns cc (by simp)).trans hf.child
  have hfound : s1.pid2proc k = some p := (hunt.pid2proc k (by simp)).trans hf.found
  have hack : s1.parentAck k = none := (hunt.parentAck k (by simp)).trans hf.noAck
  have hchild : s1.forkChildSock k = none := (hunt.forkChildSock k (by simp)).trans hf.noChild
  obtain ⟨s', hs', hforked⟩ := acceptForkChild_spec cp a b pid hcc (hlt.trans_le hunt.size) hack hchild
  have hk : k ∈ [k] := List.mem_singleton.mpr rfl
  refine ⟨?_, ?_, s', ?_, ?_, ?_⟩
  · have hfirst : s.step o (.message cp a .forkParent) = some (s.setParentAck k (some ⟨a, cp⟩)) := by
      simp [step, message, hf.parent, alive_eq hf.alive, Message.process, forkParent, hf.pid, hf.noChild, hf.noAck]
    rw [run, hfirst]
    exact run_parked_eq hk h hes (noFork_setParentAck_self _) (noFork_setParentAck_self _) (by simp [setParentAck])
      (hchild.trans hf.noChild.symm)
  · have hfirst : s.step o (.forkChild cc pid k b) = some (s.setForkChildSock k (some ⟨cc, pid, b⟩)) := by
      simp [step, hf.child, newForkedProcess, hf.noChild, hf.noAck]
    rw [run, hfirst]
    exact run_parked_eq hk h hes (noFork_setForkChildSock_self _) (noFork_setForkChildSock_self _) (hack.trans hf.noAck.symm)
      (by simp [setForkChildSock])
  · have hcc' : (s1.setParentAck k (some ⟨a, cp⟩)).conns cc = some .null := hcc
    have hparked : (s1.setParentAck k (some ⟨a, cp⟩)).parentAck k = some ⟨a, cp⟩ := if_pos rfl
    have hfound' : (s1.setParentAck k (some ⟨a, cp⟩)).pid2proc k = some p := hfound
    rw [step, if_pos hcc', newForkedProcess, hparked, hfound']
    simp only [bind_some]
    have halive' : (s1.setParentAck k (some ⟨a, cp⟩)).alive p = some p := alive_eq hp
    rw [halive', bind_some, acceptForkChild_setParentAck, hs', map_some, map_some, setParentAck_none hforked.noAck]
  · have hcp' : (s1.setForkChildSock k (some ⟨cc, pid, b⟩)).conns cp = some (.proc p) := hcp
    have hparked : (s1.setForkChildSock k (some ⟨cc, pid, b⟩)).forkChildSock k = some ⟨cc, pid, b⟩ := if_pos rfl
    have hpid' : ((s1.setForkChildSock k (some ⟨cc, pid, b⟩)).proc p).pid = k := hpid1
    have halive' : (s1.setForkChildSock k (some ⟨cc, pid, b⟩)).alive p = some p := alive_eq hp
    rw [step, message, hcp']
    simp only [halive', bind_some, Message.process, forkParent, hpid', hparked]
    rw [acceptForkChild_setForkChildSock, hs']
    simp [setForkChildSock_none hforked.noChild]
  · obtain ⟨-, -, -, hpoint, -, -, hchildren, -⟩ := calm_eq hcalm
    obtain ⟨-, hfds, -⟩ := idle_eq hidle
    exact { hforked with
      parent := by rw [hforked.parent, hchildren]
      child := by rw [hforked.child, hpoint]
      fds := by rw [hforked.fds, hfds] }

/-! ## popen() -/

/-- The ends of the pipe of a popen(). -/
def parentEnd (wronly cloexec : Bool) (x : PopenPipe) : PipedFD :=
  { ofd := if wronly then x.ofd1 else x.ofd0, cloexec, closeOnPopen := true, pipe := some x.pipe }

def childEnd (wronly cloexec : Bool) (x : PopenPipe) : PipedFD :=
  { ofd := if wronly then x.ofd0 else x.ofd1, cloexec, pipe := some x.pipe }

theorem connectPopen_proc (s : Population) (fd : Nat) (pending : PendingPopen) (x : PopenPipe) (hpc : p ≠ c) (q : Nat) :
    (connectPopen s p c fd pending x).proc q =
      if q = p then { s.proc p with fds := put (s.proc p).fds fd (some (parentEnd pending.wronly pending.cloexec x)) }
      else if q = c then
        { s.proc c with
          fds := put (s.proc c).fds (if pending.wronly then 0 else 1) (some (childEnd pending.wronly pending.cloexec x)) }
      else s.proc q := by
  unfold connectPopen
  split
  all_goals
    rename_i hw
    by_cases hqp : q = p
    · simp [modifyFds, modifyProc, hqp, hpc, parentEnd, hw]
    by_cases hqc : q = c
    · simp [modifyFds, modifyProc, hqc, hpc.symm, childEnd, hw]
    · simp [modifyFds, modifyProc, hqc, hqp]

theorem acceptPopenChild_spec (hpc : p ≠ c)
    (he : s.acceptPopenChild p pending c cc cp a fd start = some s') : s'.size = s.size ∧
    (∀ q, s'.life q = if q = p then { s.life p with hasPendingPopen := false } else s.life q) ∧ s'.conns = s.conns ∧
    (∀ q, q ≠ p → q ≠ c → idle (s'.proc q) = idle (s.proc q)) ∧
    idle (s'.proc p) = idle { s.proc p with
      fds := put (s.proc p).fds fd (some (parentEnd pending.wronly pending.cloexec start.popenPipe))
      fd2popenChild := (fd, c) :: (s.proc p).fd2popenChild } ∧
    idle (s'.proc c) = idle { s.proc c with
      fds := start.fds (put (s.proc c).fds (if pending.wronly then 0 else 1)
        (some (childEnd pending.wronly pending.cloexec start.popenPipe))) } ∧
    (∀ i, s'.pid2proc i = if i = (s.proc c).pid then some c else s.pid2proc i) ∧
    s'.sent = { conn := cc, answers := 0, kind := .scprocResp } :: { conn := cp, answers := a, kind := .popenFd } :: s.sent ∧
    s'.pendingPopen p = none := by
  obtain ⟨s1, h1, rfl⟩ := map_eq_some_iff.mp he
  obtain ⟨ps, hps⟩ : ∃ ps, ps = s.modifyProc p fun q => { q with fd2popenChild := (fd, c) :: q.fd2popenChild } := ⟨_, rfl⟩
  rw [← hps] at h1
  have hlives : (connectPopen ps p c fd pending start.popenPipe).toLives = s.toLives := by
    rw [connectPopen_toLives, hps]
    rfl
  have hproc := connectPopen_proc ps fd pending start.popenPipe hpc
  have hpsp : ps.proc p = { s.proc p with fd2popenChild := (fd, c) :: (s.proc p).fd2popenChild } := by
    rw [hps]
    exact if_pos rfl
  have hpsq : ∀ q, q ≠ p → ps.proc q = s.proc q := fun q hq => by
    rw [hps]
    exact if_neg hq
  have hsent : (connectPopen ps p c fd pending start.popenPipe).sent = s.sent := by
    rw [connectPopen, hps]
    split <;> rfl
  generalize connectPopen ps p c fd pending start.popenPipe = ps' at h1 hlives hproc hsent
  obtain ⟨hsize, hlife, hconns, hothers, hchild, hmap, hsent1, hpopen⟩ := acceptExecChild_spec h1
  have hpc' : ps'.proc c = { s.proc c with
        fds := put (s.proc c).fds (if pending.wronly then 0 else 1)
          (some (childEnd pending.wronly pending.cloexec start.popenPipe)) } := by
    rw [hproc, if_neg hpc.symm, if_pos rfl, hpsq c hpc.symm]
  refine ⟨hsize.trans (congrArg Lives.size hlives), fun q => ?_, hconns.trans (congrArg Lives.conns hlives),
    fun q hqp hqc => ?_, ?_, ?_, fun i => ?_, ?_, if_pos rfl⟩
  · have hlife' : s1.life = s.life := hlife.trans (congrArg Lives.life hlives)
    show (if q = p then { s1.life q with hasPendingPopen := false } else s1.life q) = _
    rw [hlife']
    exact ite_at s.life ({ · with hasPendingPopen := false }) p q
  · refine (hothers q hqc).trans (congrArg idle ?_)
    show ps'.proc q = s.proc q
    rw [hproc, if_neg hqp, if_neg hqc, hpsq q hqp]
  · refine (hothers p hpc).trans (congrArg idle ?_)
    show ps'.proc p = _
    rw [hproc, if_pos rfl, hpsp]
  · refine hchild.trans (congrArg idle ?_)
    show { ps'.proc c with fds := start.fds (ps'.proc c).fds } = _
    rw [hpc']
  · refine (hmap i).trans ?_
    show (if i = (ps'.proc c).pid then some c else s.pid2proc i) = _
    rw [hpc']
  · refine hsent1.trans ?_
    show _ :: _ :: ps'.sent = _
    rw [hsent]

/-- `f`, whose life is `l`, has got an exec child. -/
structure ExecChild (ps : Population) (f pid : Nat) (l : Life) (ps' : Population) : Prop where
  size : ps'.size = ps.size + 1
  life : ∀ q, ps'.life q = if q = ps.size then
      { execed := true, parent := some f, forkPoint := (ps.life f).forkPoint, execPoint := some ps.tree.size }
    else if q = f then { l with execChild := some ps.size }
    else ps.life q
  proc : ∀ q, ps'.proc q = if q = ps.size then { pid, fds := (ps.proc f).fds.passOn true }
    else if q = f then { ps.proc f with fds := (ps.proc f).fds.resetPipeRefs }
    else ps.proc q
  tree : ps.tree.exec (ps.life f).execPoint = some ps'.tree
  conns : ps'.conns = ps.conns
  sent : ps'.sent = ps.sent

theorem newExeced_spec (hf : f < ps.size) (he : ps.newExeced f pid isQemu = some ps') :
    ExecChild ps f pid (ps.life f) ps' := by
  obtain ⟨t, ht, rfl⟩ := map_eq_some_iff.mp he
  have hne : f ≠ ps.size := hf.ne
  refine ⟨rfl, fun q => ?_, fun q => ?_, ht, rfl, rfl⟩
  · exact congrArg (ite _ _) (ite_at ps.life ({ · with execChild := some ps.size }) f q)
  by_cases hqf : q = f
  · simp [modifyFds, modifyProc, modifyExeced, hqf, hne]
  · simp [modifyFds, modifyProc, modifyExeced, hqf]

/-- The exec child of a process that is over. -/
theorem getExecedProcess_spec (hf : f < ps.size) (hstate : (ps.life f).state = .terminated)
    (he : ps.getExecedProcess f pid isQemu = some ps') :
    ExecChild ps f pid { ps.life f with execPending := false } ps' := by
  rw [Population.getExecedProcess, if_pos hstate] at he
  have hflag : (ps.modifyLife f ({ · with execPending := false })).life f = { ps.life f with execPending := false } :=
    if_pos rfl
  have hf' : f < (ps.modifyLife f ({ · with execPending := false })).size := hf
  have h := newExeced_spec hf' he
  refine { h with life := fun q => ?_, tree := ?_ }
  · rw [h.life]
    by_cases hqf : q = f
    · simp [hqf, Population.modifyLife, Lives.modify]
    · simp [hqf, Population.modifyLife, Lives.modify]
  · have htree := h.tree
    rw [hflag] at htree
    exact htree

theorem getExecedProcess_exists (pid : Nat) (isQemu : Bool) (hstate : (ps.life f).state = .terminated)
    (ht : ps.tree.exec (ps.life f).execPoint = some t) : ∃ ps', ps.getExecedProcess f pid isQemu = some ps' := by
  have hnode : ((ps.modifyLife f ({ · with execPending := false })).life f).execPoint = (ps.life f).execPoint :=
    (congrArg Life.execPoint (if_pos rfl)).trans rfl
  have htree : (ps.modifyLife f ({ · with execPending := false })).tree = ps.tree := rfl
  rw [Population.getExecedProcess, if_pos hstate, Population.newExeced, hnode, htree, ht]
  exact ⟨_, rfl⟩

theorem acceptExecChild_exists (conn : Nat) (hops : (runOps start.ops s.tree).isSome = true)
    (hnode : (s.life c).execPoint.isSome = true) : ∃ s', s.acceptExecChild c conn start = some s' := by
  obtain ⟨t, ht⟩ := Option.isSome_iff_exists.mp hops
  obtain ⟨node, hnode⟩ := Option.isSome_iff_exists.mp hnode
  have hnode' : (((s.insert c).withPopulation (s.setTree t)).life c).execPoint = some node := hnode
  rw [acceptExecChild, ht, bind_some]
  dsimp only
  cases start.shortcut with
  | none => exact ⟨_, rfl⟩
  | some status =>
    rw [hnode']
    exact ⟨_, rfl⟩

/-- What a system() or popen() child is made of: the fork() that was not seen, and its exec child. -/
structure Launched (s : ProcessTree) (env : Population.ExecedProcessEnv) (p pid cc : Nat) (s' : ProcessTree) : Prop where
  size : s'.size = s.size + 2
  parent : s'.life p = { s.life p with forkChildren := (s.life p).forkChildren ++ [s.size] }
  fork : s'.life s.size =
    { parent := some p
      forkPoint := s.size
      execPoint := (s.life p).execPoint
      state := .terminated
      execChild := some (s.size + 1) }
  child : s'.life (s.size + 1) = { execed := true, parent := some s.size, forkPoint := s.size, execPoint := some s.tree.size }
  others : ∀ q, q < s.size → q ≠ p → s'.life q = s.life q
  procs : ∀ q, q < s.size → s'.proc q = s.proc q
  forkProc : s'.proc s.size = { pid, fds := (launchFds (some env)).resetPipeRefs }
  childProc : s'.proc (s.size + 1) = { pid, fds := (launchFds (some env)).passOn true }
  found : ∀ i, s'.pid2proc i = if i = pid then some s.size else s.pid2proc i
  tree : s.tree.exec (s.life p).execPoint = some s'.tree
  conns : ∀ j, s'.conns j = if j = cc then some (.proc (s.size + 1)) else s.conns j
  sent : s'.sent = s.sent
  popens : s'.pendingPopen = s.pendingPopen

def launch (s : ProcessTree) (p cc pid : Nat) (isQemu : Bool) (env : Population.ExecedProcessEnv) : Option ProcessTree :=
  let s' := s.addLaunchedFork p pid (some env)
  (s'.getExecedProcess s.size pid isQemu).map fun ps => s'.withPopulation (ps.setConn cc (some (.proc (s.size + 1))))

theorem launch_spec (htype : env.launchType = .popen) (hp : p < s.size)
    (he : s.launch p cc pid isQemu env = some s') : Launched s env p pid cc s' := by
  obtain ⟨s1, hs1⟩ : ∃ s1, s1 = (s.withPopulation ((s.newForked p pid (launchFds (some env))).setTerminated s.size)).insert
      s.size := ⟨_, rfl⟩
  have hadd : s.addLaunchedFork p pid (some env) = s1 := by
    unfold addLaunchedFork
    rw [map_some, htype, hs1]
  unfold launch at he
  rw [hadd] at he
  obtain ⟨ps, hps, rfl⟩ := map_eq_some_iff.mp he
  have hpf : p ≠ s.size := hp.ne
  have hlife : ∀ q, s1.life q =
      if q = s.size then { parent := some p, forkPoint := s.size, execPoint := (s.life p).execPoint, state := .terminated }
      else if q = p then { s.life p with forkChildren := (s.life p).forkChildren ++ [s.size] }
      else s.life q := fun q => by
    rw [hs1]
    by_cases hq : q = s.size
    · simp [withPopulation, insert, newForked, setTerminated, modifyProc, Lives.setTerminated,
        Lives.modify, Lives.addForked, hq]
    by_cases hqp : q = p
    · simp [withPopulation, insert, newForked, setTerminated, modifyProc,
        Lives.setTerminated, Lives.modify, Lives.addForked, hqp, hpf]
    · simp [withPopulation, insert, newForked, setTerminated, modifyProc,
        Lives.setTerminated, Lives.modify, Lives.addForked, hq, hqp]
  have hproc : ∀ q, s1.proc q = if q = s.size then { pid, fds := launchFds (some env) } else s.proc q := fun q => by
    rw [hs1]
    rfl
  have hrest : s1.size = s.size + 1 ∧ s1.tree = s.tree ∧ s1.conns = s.conns ∧ s1.sent = s.sent ∧
      s1.pendingPopen = s.pendingPopen := by
    rw [hs1]
    exact ⟨rfl, rfl, rfl, rfl, rfl⟩
  have hmap : ∀ i, s1.pid2proc i = if i = pid then some s.size else s.pid2proc i := fun i => by
    rw [hs1]
    simp [withPopulation, insert, newForked, setTerminated, modifyProc]
  obtain ⟨hsize, htree, hconns, hsent, hpopen⟩ := hrest
  have hstate : (s1.life s.size).state = .terminated := by rw [hlife, if_pos rfl]
  obtain ⟨hsize', hlife', hproc', htree', hconns', hsent'⟩ := getExecedProcess_spec (by omega) hstate hps
  have hfs : s.size ≠ s1.size := by omega
  refine ⟨?_, ?_, ?_, ?_, fun q hq hqp => ?_, fun q hq => ?_, ?_, ?_, hmap, ?_, fun j => ?_, hsent'.trans hsent, hpopen⟩
  · show ps.size = _
    omega
  · show ps.life p = _
    rw [hlife', if_neg (by omega), if_neg hpf, hlife, if_neg hpf, if_pos rfl]
  · show ps.life s.size = _
    rw [hlife', if_neg hfs, if_pos rfl, hlife, if_pos rfl, hsize]
  · show ps.life (s.size + 1) = _
    rw [hlife', if_pos hsize.symm, hlife, if_pos rfl, htree]
  · show ps.life q = _
    rw [hlife', if_neg (by omega), if_neg hq.ne, hlife, if_neg hq.ne, if_neg hqp]
  · show ps.proc q = _
    rw [hproc', if_neg (by omega), if_neg hq.ne, hproc, if_neg hq.ne]
  · show ps.proc s.size = _
    rw [hproc', if_neg hfs, if_pos rfl, hproc, if_pos rfl]
  · show ps.proc (s.size + 1) = _
    rw [hproc', if_pos hsize.symm, hproc, if_pos rfl]
  · rw [htree, hlife, if_pos rfl] at htree'
    exact htree'
  · show (if j = cc then some (.proc (s.size + 1)) else ps.conns j) = _
    rw [hconns', hconns]

theorem launch_exists (cc pid : Nat) (isQemu : Bool) (htype : env.launchType = .popen)
    (ht : s.tree.exec (s.life p).execPoint = some t) : ∃ s', s.launch p cc pid isQemu env = some s' := by
  have hadd : s.addLaunchedFork p pid (some env) =
      (s.withPopulation ((s.newForked p pid (launchFds (some env))).setTerminated s.size)).insert s.size := by
    rw [addLaunchedFork, map_some, htype]
  have hlife : (s.addLaunchedFork p pid (some env)).life s.size =
      { parent := some p, forkPoint := s.size, execPoint := (s.life p).execPoint, state := .terminated } := by
    rw [hadd]
    simp [withPopulation, insert, newForked, setTerminated, modifyProc, Lives.setTerminated, Lives.modify, Lives.addForked]
  have htree : (s.addLaunchedFork p pid (some env)).tree = s.tree := by
    rw [hadd]
    rfl
  obtain ⟨ps, hps⟩ := getExecedProcess_exists pid isQemu (by rw [hlife]) (by rw [htree, hlife, ht])
  rw [launch, hps]
  exact ⟨_, rfl⟩

variable {wronly cloexec argvMatches : Bool} {s0 : ProcessTree}

def popenEnv (s : ProcessTree) (p : Nat) (wronly : Bool) : Population.ExecedProcessEnv :=
  { fds := (s.proc p).fds.passOn false, launchType := .popen, wronly }

/-- A message is handled, and the answer may be sent right away. -/
theorem message_spec (hcp : s.conns cp = some (.proc p)) (he : s.step o (.message cp a m) = some s') :
    ∃ now s1 sent, m.process o s p cp a = some (now, s1) ∧
      s' = s1.withPopulation { s1.toPopulation with sent := sent } := by
  rw [step, message, hcp] at he
  obtain ⟨⟨now, s1⟩, h1, rfl⟩ := map_eq_some_iff.mp (alive_bind he).2
  refine ⟨now, s1, ?_⟩
  dsimp only
  split
  · exact ⟨_, h1, rfl⟩
  · exact ⟨s1.sent, h1, rfl⟩

theorem popen_spec (hcp : s.conns cp = some (.proc p))
    (he : s.step o (.message cp a (.popen wronly cloexec)) = some s') :
    s.pendingPopen p = none ∧ (s.proc p).expectedChild = none ∧ s'.size = s.size ∧ s'.tree = s.tree ∧
    (∀ q, s'.life q = if q = p then { s.life p with hasPendingPopen := true } else s.life q) ∧
    (∀ q, s'.proc q = if q = p then { s.proc p with expectedChild := some (popenEnv s p wronly) } else s.proc q) ∧
    (∀ q, s'.pendingPopen q = if q = p then some { wronly, cloexec } else s.pendingPopen q) ∧ s'.conns = s.conns ∧
    s'.pid2proc = s.pid2proc := by
  obtain ⟨now, s1, sent, h1, rfl⟩ := message_spec hcp he
  obtain ⟨s2, h1, ⟨⟩⟩ := map_eq_some_iff.mp h1
  rw [popen] at h1
  split at h1
  · cases h1
  next hpending =>
  obtain ⟨ps, hps, rfl⟩ := map_eq_some_iff.mp h1
  rw [Population.setExpectedChild] at hps
  split at hps
  · cases hps
  next hexpected =>
  cases hps
  refine ⟨by simpa using hpending, by simpa using hexpected, ?_⟩
  have hlife := ite_at s.life ({ · with hasPendingPopen := true }) p
  have hproc := ite_at s.proc (fun x => { x with
    expectedChild := some { fds := x.fds.passOn false, launchType := .popen, wronly } }) p
  exact ⟨rfl, rfl, hlife, hproc, fun _ => rfl, rfl, rfl⟩

/-- A popen() is under way in `s'` that was called in `s`; its child has not been heard of. -/
structure PopenPending (s : ProcessTree) (wronly : Bool) (p k pid cp cc : Nat) (s' : ProcessTree) : Prop where
  lt : p < s'.size
  ne : p ≠ 0
  parent : s'.conns cp = some (.proc p)
  child : s'.conns cc = some .null
  parentPid : (s'.proc p).pid = k
  found : s'.pid2proc k = some p
  newPid : s'.pid2proc pid = none
  running : (s.life p).state = .running
  life : calm (s'.life p) = calm { s.life p with hasPendingPopen := true }
  proc : idle (s'.proc p) = idle { s.proc p with expectedChild := some (popenEnv s p wronly) }

theorem conn_ne (hparent : s.conns cp = some (.proc p)) (hchild : s.conns cc = some .null) : cp ≠ cc := fun he => by
  rw [he, hchild] at hparent
  cases hparent

theorem PopenPending.untouched (h : PopenPending s wronly p k pid cp cc s1) (hu : Untouched [k, pid] [cp, cc] s1 s2) :
    PopenPending s wronly p k pid cp cc s2 := by
  obtain ⟨-, -, -, -, hstate, -⟩ := calm_eq h.life
  have hengaged : Engaged [k, pid] s1.toPopulation p :=
    ⟨h.ne, by simp [h.parentPid], .inl (hstate.trans h.running)⟩
  obtain ⟨hlife, hproc⟩ := hu.engaged p h.lt hengaged
  exact ⟨h.lt.trans_le hu.size, h.ne, (hu.conns cp (by simp)).trans h.parent,
    (hu.conns cc (by simp)).trans h.child, (hu.pid p h.lt).trans h.parentPid, (hu.pid2proc k (by simp)).trans h.found,
    (hu.pid2proc pid (by simp)).trans h.newPid, h.running, hlife.trans h.life, hproc.trans h.proc⟩

/-- The child of the popen() is there, and has not been accepted. -/
structure PopenLaunched (s : ProcessTree) (wronly : Bool) (p k pid cp cc f : Nat) (s' : ProcessTree) : Prop where
  lt : f + 1 < s'.size
  ne : p ≠ 0
  older : p < f
  parent : s'.conns cp = some (.proc p)
  child : s'.conns cc = some (.proc (f + 1))
  parentPid : (s'.proc p).pid = k
  running : (s.life p).state = .running
  life : calm (s'.life p) =
    calm { s.life p with hasPendingPopen := true, forkChildren := (s.life p).forkChildren ++ [f] }
  proc : idle (s'.proc p) = idle (s.proc p)
  forkLife : calm (s'.life f) =
    { parent := some p
      forkPoint := f
      execPoint := (s.life p).execPoint
      state := .terminated
      execChild := some (f + 1) }
  forkProc : idle (s'.proc f) = { pid, fds := (launchFds (some (popenEnv s p wronly))).resetPipeRefs }
  childLife : ∃ node, calm (s'.life (f + 1)) = { execed := true, parent := some f, forkPoint := f, execPoint := some node }
  childProc : idle (s'.proc (f + 1)) = { pid, fds := (launchFds (some (popenEnv s p wronly))).passOn true }

theorem PopenLaunched.untouched (h : PopenLaunched s wronly p k pid cp cc f s1)
    (hu : Untouched [k, pid] [cp, cc] s1 s2) : PopenLaunched s wronly p k pid cp cc f s2 := by
  have hlt := h.lt
  have holder := h.older
  obtain ⟨node, hnode⟩ := h.childLife
  obtain ⟨-, -, -, -, hstate, -⟩ := calm_eq h.life
  have hpid : ∀ q x fds, idle (s1.proc q) = { pid := x, fds } → (s1.proc q).pid = x := fun q x fds hq =>
    congrArg Population.Process.pid hq
  have hcrun : (s1.life (f + 1)).state = .running := congrArg Life.state hnode
  have hcpid : (s1.proc (f + 1)).pid ∈ [k, pid] := by simp [hpid _ _ _ h.childProc]
  have hp : Engaged [k, pid] s1.toPopulation p := ⟨h.ne, by simp [h.parentPid], .inl (hstate.trans h.running)⟩
  have hc : Engaged [k, pid] s1.toPopulation (f + 1) := ⟨by omega, hcpid, .inl hcrun⟩
  have hf : Engaged [k, pid] s1.toPopulation f := by
    refine ⟨by omega, by simp [hpid _ _ _ h.forkProc], .inr ⟨f + 1, ?_, by omega, h.lt, hcrun, hcpid⟩⟩
    exact congrArg Life.execChild h.forkLife
  obtain ⟨hplife, hpproc⟩ := hu.engaged p (by omega) hp
  obtain ⟨hflife, hfproc⟩ := hu.engaged f (by omega) hf
  obtain ⟨hclife, hcproc⟩ := hu.engaged (f + 1) hlt hc
  exact ⟨h.lt.trans_le hu.size, h.ne, h.older, (hu.conns cp (by simp)).trans h.parent,
    (hu.conns cc (by simp)).trans h.child, (hu.pid p (by omega)).trans h.parentPid, h.running, hplife.trans h.life,
    hpproc.trans h.proc, hflife.trans h.forkLife, hfproc.trans h.forkProc, ⟨node, hclife.trans hnode⟩,
    hcproc.trans h.childProc⟩

/-- The child is parked, or finds popen_parent. -/
theorem acceptLaunchedChild_popen (hpending : s.pendingPopen p = some pending) (hchild : pending.child = none) :
    s.acceptLaunchedChild p c cc (some .popen) start =
      let s' := s.setPendingPopen p (some { pending with child := some (c, cc) })
      match pending.parent with
      | none => some s'
      | some (cp, a, fd) => s'.acceptPopenChild p pending c cc cp a fd start := by
  rw [acceptLaunchedChild, hpending]
  exact if_neg (by simp [hchild])

section

variable (h : PopenPending s wronly p k pid cp cc s1) (hspawn : (s.proc p).posixSpawnPending = false)
include h hspawn

theorem popenChild_eq (hsup : k ≠ o.supervisor) :
    s1.step o (.scprocQuery cc pid k true isQemu start) = (s1.alive p).bind fun _ =>
      ((s1.withPopulation (s1.modifyProc p ({ · with expectedChild := none }))).launch p cc pid isQemu
        (popenEnv s p wronly)).bind fun s => s.acceptLaunchedChild p (s1.size + 1) cc (some .popen) start := by
  obtain ⟨-, -, hspawn1, hexpected1, -, -⟩ := idle_eq h.proc
  rw [step, if_pos h.child, newExecedProcess, h.newPid]
  simp only [if_neg hsup, h.found]
  by_cases hal : (s1.proc p).deleted
  · simp [Population.alive, hal]
  rw [alive_eq (by simpa using hal), bind_some, Population.popExpectedChild, hexpected1]
  simp only [if_true, bind_some]
  have hno : ¬((s1.withPopulation (s1.modifyProc p ({ · with expectedChild := none }))).proc p).posixSpawnPending = true := by
    simp [withPopulation, modifyProc, hspawn1, hspawn]
  rw [if_neg hno, launch, Option.bind_map]
  rfl

theorem popenChild_spec (hexpected : (s.proc p).expectedChild = none) (hsup : k ≠ o.supervisor)
    (hpending : s1.pendingPopen p = some pending) (hchild : pending.child = none)
    (he : s1.step o (.scprocQuery cc pid k true isQemu start) = some s') :
    ∃ s2, PopenLaunched s wronly p k pid cp cc s1.size s2 ∧ s2.size = s1.size + 2 ∧ s2.sent = s1.sent ∧
      (∀ q, q < s1.size → q ≠ p → s2.life q = s1.life q ∧ s2.proc q = s1.proc q) ∧
      s2.pendingPopen p = some { pending with child := some (s1.size + 1, cc) } ∧
      (match pending.parent with
        | none => some s2
        | some (cp, a, fd) => s2.acceptPopenChild p pending (s1.size + 1) cc cp a fd start) = some s' := by
  obtain ⟨hpid1, hfds1, hspawn1, hexpected1, hsystem1, hpopened1⟩ := idle_eq h.proc
  rw [popenChild_eq h hspawn hsup] at he
  replace he := (alive_bind he).2
  obtain ⟨t, ht⟩ : ∃ t, t = s1.withPopulation (s1.modifyProc p ({ · with expectedChild := none })) := ⟨_, rfl⟩
  rw [← ht] at he
  have htp : t.proc p = { s1.proc p with expectedChild := none } := by
    rw [ht]
    exact if_pos rfl
  have htq : ∀ q, q ≠ p → t.proc q = s1.proc q := fun q hq => by
    rw [ht]
    exact if_neg hq
  have htrest : t.toLives = s1.toLives ∧ t.sent = s1.sent ∧ t.pendingPopen = s1.pendingPopen := by
    rw [ht]
    exact ⟨rfl, rfl, rfl⟩
  obtain ⟨hlives, hsent, hpopens⟩ := htrest
  have hsize : t.size = s1.size := congrArg Lives.size hlives
  have hlife : t.life = s1.life := congrArg Lives.life hlives
  have hconns : t.conns = s1.conns := congrArg Lives.conns hlives
  obtain ⟨L, hL, he⟩ := bind_eq_some_iff.mp he
  replace hL := launch_spec rfl (hsize ▸ h.lt) hL
  rw [acceptLaunchedChild_popen (by rw [hL.popens, hpopens, hpending]) hchild] at he
  obtain ⟨hexe, hpar, hpoint', hpoint, hstate, hexec, hchildren, hexecPending, hflag⟩ := calm_eq h.life
  have hLfork := hL.fork
  have hLchild := hL.child
  have hLforkProc := hL.forkProc
  have hLchildProc := hL.childProc
  have hLparent := hL.parent
  rw [hsize, hlife] at hLfork hLparent
  rw [hsize] at hLchild hLforkProc hLchildProc
  refine ⟨L.setPendingPopen p (some { pending with child := some (s1.size + 1, cc) }),
    ⟨?_, h.ne, h.lt, ?_, ?_, ?_, h.running, ?_, ?_, ?_, ?_, ⟨t.tree.size, ?_⟩, ?_⟩, ?_, hL.sent.trans hsent, fun q hq hqp => ?_,
    if_pos rfl, he⟩
  · show s1.size + 1 < L.size
    rw [hL.size]
    omega
  · show L.conns cp = _
    rw [hL.conns, if_neg (conn_ne h.parent h.child), hconns, h.parent]
  · show L.conns cc = _
    rw [hL.conns, if_pos rfl, hsize]
  · show (L.proc p).pid = k
    rw [hL.procs p (hsize ▸ h.lt), htp]
    exact h.parentPid
  · show calm (L.life p) = _
    rw [hLparent]
    simp [calm, hexe, hpar, hpoint', hpoint, hstate, hexec, hchildren, hexecPending, hflag]
  · show idle (L.proc p) = _
    rw [hL.procs p (hsize ▸ h.lt), htp]
    simp [idle, hpid1, hfds1, hspawn1, hsystem1, hpopened1, hexpected]
  · show calm (L.life s1.size) = _
    rw [hLfork, hpoint]
    rfl
  · show idle (L.proc s1.size) = _
    rw [hLforkProc]
    rfl
  · show calm (L.life (s1.size + 1)) = _
    rw [hLchild]
    rfl
  · show idle (L.proc (s1.size + 1)) = _
    rw [hLchildProc]
    rfl
  · show L.size = _
    rw [hL.size, hsize]
  · show L.life q = _ ∧ L.proc q = _
    rw [hL.others q (hsize ▸ hq) hqp, hL.procs q (hsize ▸ hq), htq q hqp, hlife]
    exact ⟨rfl, rfl⟩

end

/-- The popen() that was called in `s` is done: `f` stands for the fork() that was not seen. -/
structure Popened (s : ProcessTree) (start : Start) (wronly cloexec : Bool) (p pid cc fd f : Nat) (s' : ProcessTree) :
    Prop where
  parent : (s'.life p).forkChildren = (s.life p).forkChildren ++ [f]
  forkLife : calm (s'.life f) =
    { parent := some p
      forkPoint := f
      execPoint := (s.life p).execPoint
      state := .terminated
      execChild := some (f + 1) }
  forkProc : idle (s'.proc f) = { pid, fds := (launchFds (some (popenEnv s p wronly))).resetPipeRefs }
  childLife : ∃ node, calm (s'.life (f + 1)) = { execed := true, parent := some f, forkPoint := f, execPoint := some node }
  childProc : idle (s'.proc (f + 1)) =
    { pid
      fds := start.fds (put ((launchFds (some (popenEnv s p wronly))).passOn true) (if wronly then 0 else 1)
        (some (childEnd wronly cloexec start.popenPipe))) }
  parentFds : (s'.proc p).fds = put (s.proc p).fds fd (some (parentEnd wronly cloexec start.popenPipe))
  popened : (s'.proc p).fd2popenChild = (fd, f + 1) :: (s.proc p).fd2popenChild
  found : s'.pid2proc pid = some (f + 1)
  conn : s'.conns cc = some (.proc (f + 1))
  noExpected : (s'.proc p).expectedChild = none
  noFlag : (s'.life p).hasPendingPopen = false
  noPending : s'.pendingPopen p = none

theorem PopenLaunched.accepted (h : PopenLaunched s wronly p k pid cp cc f s1)
    (hexpected : (s.proc p).expectedChild = none) (hw : pending.wronly = wronly) (hc : pending.cloexec = cloexec)
    (he : s1.acceptPopenChild p pending (f + 1) cc cp a fd start = some s') :
    Popened s start wronly cloexec p pid cc fd f s' ∧ s'.size = s1.size ∧
      s'.sent = { conn := cc, answers := 0, kind := .scprocResp } :: { conn := cp, answers := a, kind := .popenFd } :: s1.sent ∧
      ∀ q, q ≠ p → s'.life q = s1.life q ∧ (q ≠ f + 1 → idle (s'.proc q) = idle (s1.proc q)) := by
  have holder := h.older
  have hpf : f ≠ p := by omega
  have hpc : f + 1 ≠ p := by omega
  obtain ⟨hsize, hlife, hconns, hothers, hparent, hchild, hmap, hsent, hpopen⟩ := acceptPopenChild_spec hpc.symm he
  have hlife' : ∀ q, q ≠ p → s'.life q = s1.life q := fun q hq => by rw [hlife, if_neg hq]
  have hlifep : s'.life p = { s1.life p with hasPendingPopen := false } := by rw [hlife, if_pos rfl]
  obtain ⟨-, -, -, -, -, -, hchildren, -, -⟩ := calm_eq h.life
  obtain ⟨-, hfds, -, hexpected1, -, hpopened⟩ := idle_eq h.proc
  obtain ⟨-, hfds', -, hexpected', -, hpopened'⟩ := idle_eq hparent
  obtain ⟨node, hnode⟩ := h.childLife
  have hcpid : (s1.proc (f + 1)).pid = pid := congrArg Population.Process.pid h.childProc
  refine ⟨⟨?_, ?_, ?_, ⟨node, ?_⟩, ?_, ?_, ?_, ?_, ?_, ?_, ?_, hpopen⟩, hsize, hsent,
    fun q hq => ⟨hlife' q hq, hothers q hq⟩⟩
  · rw [hlifep]
    exact hchildren
  · rw [hlife' f hpf]
    exact h.forkLife
  · exact (hothers f hpf (by omega)).trans h.forkProc
  · rw [hlife' _ hpc]
    exact hnode
  · have hproc : idle (s1.proc (f + 1)) = idle { pid, fds := (launchFds (some (popenEnv s p wronly))).passOn true } :=
      h.childProc.trans rfl
    obtain ⟨hs1, hs2, hs3, hs4, hs5, hs6⟩ := idle_eq hproc
    rw [hchild, hw, hc]
    simp [idle, hs1, hs2, hs3, hs4, hs5, hs6]
  · rw [hfds', hw, hc, hfds]
  · rw [hpopened', hpopened]
  · rw [hmap, hcpid, if_pos rfl]
  · rw [hconns]
    exact h.child
  · rw [hexpected', hexpected1, hexpected]
  · rw [hlifep]

theorem popenParent_eq (hcp : s.conns cp = some (.proc p))
    (hpending : s.pendingPopen p = some pending) (hparent : pending.parent = none) :
    s.step o (.message cp a (.popenParent fd start)) = (s.alive p).bind fun _ =>
      let s' := s.setPendingPopen p (some { pending with parent := some (cp, a, fd) })
      match pending.child with
      | none => some s'
      | some (c, cc) => (s'.alive c).bind fun c => s'.acceptPopenChild p pending c cc cp a fd start := by
  rw [step, message, hcp]
  by_cases hal : (s.proc p).deleted
  · simp [Population.alive, hal]
  have halive : s.alive p = some p := alive_eq (by simpa using hal)
  simp only [halive, bind_some, Message.process, popenParent, hpending, hparent,
    map_map]
  -- the answer is sent with the fd
  have hid : ((fun x : Bool × ProcessTree =>
      if (x.1 && decide (a ≠ 0)) = true then x.2.withPopulation (x.2.ackMsg cp a) else x.2) ∘ fun s => (false, s)) = id := by
    funext x
    simp
  rw [hid, Option.map_id]
  rfl

theorem popenParent_parks (hcp : s.conns cp = some (.proc p))
    (hpending : s.pendingPopen p = some pending) (hparent : pending.parent = none) (hchild : pending.child = none)
    (he : s.step o (.message cp a (.popenParent fd start)) = some s') :
    s' = s.setPendingPopen p (some { pending with parent := some (cp, a, fd) }) := by
  rw [popenParent_eq hcp hpending hparent, hchild] at he
  rw [hchild]
  exact (Option.some.inj (alive_bind he).2).symm

theorem popenParent_completes (hcp : s.conns cp = some (.proc p))
    (hpending : s.pendingPopen p = some pending) (hparent : pending.parent = none) (hchild : pending.child = some (c, cc))
    (he : s.step o (.message cp a (.popenParent fd start)) = some s') :
    (s.setPendingPopen p (some { pending with parent := some (cp, a, fd) })).acceptPopenChild p pending c cc cp a fd start =
      some s' := by
  rw [popenParent_eq hcp hpending hparent, hchild] at he
  rw [hchild]
  exact (alive_bind (alive_bind he).2).2

/-- A process calls popen(), whose child will be of the pid and on the connection. -/
structure PopenCalled (s : ProcessTree) (p k pid cp cc : Nat) : Prop where
  parent : s.conns cp = some (.proc p)
  child : s.conns cc = some .null
  parentPid : (s.proc p).pid = k
  found : s.pid2proc k = some p
  newPid : s.pid2proc pid = none
  noSpawn : (s.proc p).posixSpawnPending = false

theorem PopenCalled.pending (h : Reach o P s) (hc : PopenCalled s p k pid cp cc)
    (he : s.step o (.message cp b (.popen wronly cloexec)) = some s') : PopenPending s wronly p k pid cp cc s' := by
  obtain ⟨hlt, hrun⟩ := h.footing.conns cp p hc.parent
  obtain ⟨-, -, hsize, -, hlife, hproc, -, hconns, hmap⟩ := popen_spec hc.parent he
  have hp0 : p ≠ 0 := fun h0 => h.root_ended (h0 ▸ hrun)
  have hlife' : s'.life p = { s.life p with hasPendingPopen := true } := by rw [hlife, if_pos rfl]
  have hproc' : s'.proc p = { s.proc p with expectedChild := some (popenEnv s p wronly) } := by rw [hproc, if_pos rfl]
  exact ⟨hsize ▸ hlt, hp0, hconns ▸ hc.parent, hconns ▸ hc.child, by rw [hproc']; exact hc.parentPid, hmap ▸ hc.found,
    hmap ▸ hc.newPid, hrun, congrArg calm hlife', congrArg idle hproc'⟩

/-- Until one of the two messages comes. -/
theorem PopenCalled.pending_after (h : Reach o P s) (hc : PopenCalled s p k pid cp cc)
    (h0 : s.step o (.message cp b (.popen wronly cloexec)) = some s0)
    (hes : Reach.runWhile o (Event.Elsewhere [k, pid] [cp, cc]) es s0 = some s1) :
    PopenPending s wronly p k pid cp cc s1 ∧ s1.pendingPopen p = some { wronly, cloexec } ∧
      Reach o (fun _ _ => True) s1 := by
  have h := h.imp fun _ _ _ => trivial
  obtain ⟨-, -, -, -, -, -, hpopens, -, -⟩ := popen_spec hc.parent h0
  have hpending := hc.pending h h0
  obtain ⟨hunt, hreach⟩ := untouched_of_runWhile (.step h trivial h0) hes
  refine ⟨hpending.untouched hunt, ?_, hreach⟩
  rw [hunt.pendingPopen p hpending.lt (by simp [hpending.parentPid]), hpopens, if_pos rfl]

/-- The first message goes from `s₁` to `s₂`, the second from `s₃` to `s'`. -/
structure PopenMeets (s s₁ s₂ s₃ s' : ProcessTree) (start : Start) (wronly cloexec : Bool) (p pid cp cc a fd f : Nat) :
    Prop where
  done : Popened s start wronly cloexec p pid cc fd f s'
  /-- The fork() that was not seen and its exec child. -/
  one : s₂.size + s'.size = s₁.size + s₃.size + 2
  parked : s₂.sent = s₁.sent
  answered : s'.sent =
    { conn := cc, answers := 0, kind := .scprocResp } :: { conn := cp, answers := a, kind := .popenFd } :: s₃.sent
  first : ∀ q, q < s₁.size → q ≠ p → s₂.life q = s₁.life q ∧ s₂.proc q = s₁.proc q
  second : ∀ q, q < s₃.size → q ≠ p → s'.life q = s₃.life q ∧ (q ≠ f + 1 → idle (s'.proc q) = idle (s₃.proc q))

theorem popen_either_order {x y : Event} (h : Reach o P s)
    (hc : PopenCalled s p k pid cp cc) (hsup : k ≠ o.supervisor)
    (h0 : s.step o (.message cp b (.popen wronly cloexec)) = some s0)
    (hes : Reach.runWhile o (Event.Elsewhere [k, pid] [cp, cc]) es s0 = some s1)
    (hxy : (x, y) = (.message cp a (.popenParent fd start), .scprocQuery cc pid k true isQemu start) ∨
      (y, x) = (.message cp a (.popenParent fd start), .scprocQuery cc pid k true isQemu start))
    (h1 : s1.step o x = some s2) (hes' : Reach.runWhile o (Event.Elsewhere [k, pid] [cp, cc]) es' s2 = some s3)
    (h2 : s3.step o y = some s') : ∃ f, PopenMeets s s1 s2 s3 s' start wronly cloexec p pid cp cc a fd f := by
  obtain ⟨hpending1, hentry, hreach1⟩ := hc.pending_after h h0 hes
  obtain ⟨-, hexpected, -⟩ := popen_spec hc.parent h0
  obtain ⟨hunt', -⟩ := untouched_of_runWhile (.step hreach1 trivial h1) hes'
  rcases hxy with hxy | hxy
  · -- popen_parent is first: the child is made and accepted in one go
    cases hxy
    have hs2 := popenParent_parks hpending1.parent hentry rfl rfl h1
    have hpending2 : PopenPending s wronly p k pid cp cc s2 := by
      rw [hs2]
      exact { hpending1 with }
    have hentry2 : s2.pendingPopen p = some { wronly, cloexec, parent := some (cp, a, fd) } := by
      rw [hs2]
      exact if_pos rfl
    have hpending3 := hpending2.untouched hunt'
    have hentry3 : s3.pendingPopen p = some { wronly, cloexec, parent := some (cp, a, fd) } := by
      rw [hunt'.pendingPopen p hpending2.lt (by simp [hpending2.parentPid]), hentry2]
    obtain ⟨L, hL, hsize, hsent, hothers, -, haccept⟩ :=
      popenChild_spec hpending3 hc.noSpawn hexpected hsup hentry3 rfl h2
    obtain ⟨hdone, hsize', hsent', hothers'⟩ := hL.accepted hexpected rfl rfl haccept
    refine ⟨s3.size, hdone, ?_, ?_, ?_, fun q _ _ => ?_, fun q hq hqp => ?_⟩
    · rw [hsize', hs2]
      show s1.size + _ = _
      omega
    · rw [hs2]
      rfl
    · rw [hsent', hsent]
    · rw [hs2]
      exact ⟨rfl, rfl⟩
    · obtain ⟨hlife, hproc⟩ := hothers q hq hqp
      obtain ⟨hlife', hproc'⟩ := hothers' q hqp
      exact ⟨hlife'.trans hlife, fun hqc => by rw [hproc' hqc, hproc]⟩
  · -- the child is first: it waits below its parent until popen_parent comes
    cases hxy
    obtain ⟨L, hL, hsize, hsent, hothers, hentry2, hs2⟩ :=
      popenChild_spec hpending1 hc.noSpawn hexpected hsup hentry rfl h1
    obtain rfl : L = s2 := Option.some.inj hs2
    have hL' := hL.untouched hunt'
    have holder := hL.older
    have hentry3 : s3.pendingPopen p = some { wronly, cloexec, child := some (s1.size + 1, cc) } := by
      rw [hunt'.pendingPopen p (by omega) (by simp [hL.parentPid]), hentry2]
    have haccept := popenParent_completes hL'.parent hentry3 rfl rfl h2
    have hparked : PopenLaunched s wronly p k pid cp cc s1.size (s3.setPendingPopen p
        (some { wronly, cloexec, child := some (s1.size + 1, cc), parent := some (cp, a, fd) })) :=
      { hL' with }
    obtain ⟨hdone, hsize', hsent', hothers'⟩ := hparked.accepted hexpected rfl rfl haccept
    refine ⟨s1.size, hdone, ?_, hsent, hsent', hothers, fun q _ hqp => hothers' q hqp⟩
    rw [hsize']
    show _ + s3.size = _
    omega

theorem launch_setPendingPopen (htype : env.launchType = .popen)
    (x : Option PendingPopen) : (s.setPendingPopen q x).launch p cc pid isQemu env =
      (s.launch p cc pid isQemu env).map fun s' => s'.setPendingPopen q x := by
  have hadd : (s.setPendingPopen q x).addLaunchedFork p pid (some env) =
      (s.addLaunchedFork p pid (some env)).setPendingPopen q x := by
    unfold addLaunchedFork
    rw [map_some, htype]
    rfl
  unfold launch
  rw [hadd, map_map]
  rfl

theorem setPendingPopen_setPendingPopen (x y : Option PendingPopen) :
    (s.setPendingPopen p x).setPendingPopen p y = s.setPendingPopen p y := by
  simp only [setPendingPopen, mk.injEq, true_and]
  funext q
  split <;> rfl

/-- Side by side, the two messages lead to the same state in either order. -/
theorem popen_side_by_side (h : PopenPending s wronly p k pid cp cc s1)
    (hspawn : (s.proc p).posixSpawnPending = false) (hsup : k ≠ o.supervisor)
    (hpending : s1.pendingPopen p = some { wronly, cloexec }) :
    (s1.step o (.message cp a (.popenParent fd start))).bind
        (fun s => s.step o (.scprocQuery cc pid k true isQemu start)) =
      (s1.step o (.scprocQuery cc pid k true isQemu start)).bind
        fun s => s.step o (.message cp a (.popenParent fd start)) := by
  have h2 : PopenPending s wronly p k pid cp cc
      (s1.setPendingPopen p (some { wronly, cloexec, parent := some (cp, a, fd) })) :=
    { h with }
  obtain ⟨t, ht⟩ : ∃ t, t = s1.withPopulation (s1.modifyProc p ({ · with expectedChild := none })) := ⟨_, rfl⟩
  have hchild : s1.step o (.scprocQuery cc pid k true isQemu start) = (s1.alive p).bind fun _ =>
      (t.launch p cc pid isQemu (popenEnv s p wronly)).bind fun s =>
        s.acceptLaunchedChild p (s1.size + 1) cc (some .popen) start := by
    rw [ht]
    exact popenChild_eq h hspawn hsup
  have hchild2 : (s1.setPendingPopen p (some { wronly, cloexec, parent := some (cp, a, fd) })).step o
      (.scprocQuery cc pid k true isQemu start) = (s1.alive p).bind fun _ =>
        ((t.launch p cc pid isQemu (popenEnv s p wronly)).map fun s' =>
          s'.setPendingPopen p (some { wronly, cloexec, parent := some (cp, a, fd) })).bind fun s =>
            s.acceptLaunchedChild p (s1.size + 1) cc (some .popen) start := by
    rw [← launch_setPendingPopen rfl, ht]
    exact popenChild_eq h2 hspawn hsup
  by_cases hal : (s1.proc p).deleted
  · have hdead : s1.alive p = none := by simp [Population.alive, hal]
    rw [hchild, popenParent_eq h.parent hpending rfl]
    simp [hdead]
  have halive : s1.alive p = some p := alive_eq (by simpa using hal)
  have hparked : s1.step o (.message cp a (.popenParent fd start)) =
      some (s1.setPendingPopen p (some { wronly, cloexec, parent := some (cp, a, fd) })) := by
    rw [popenParent_eq h.parent hpending rfl, halive]
    rfl
  rw [hparked, bind_some, hchild2, hchild, halive, bind_some, bind_some]
  cases hL : t.launch p cc pid isQemu (popenEnv s p wronly) with
  | none => rfl
  | some L =>
    have hsize : t.size = s1.size := by
      rw [ht]
      rfl
    have hspec := launch_spec rfl (hsize ▸ h.lt) hL
    rw [map_some, bind_some, bind_some]
    have hentry : L.pendingPopen p = some { wronly, cloexec } := by
      rw [hspec.popens, ht]
      exact hpending
    have hcp : L.conns cp = some (.proc p) := by
      rw [hspec.conns, if_neg (conn_ne h.parent h.child), ht]
      exact h.parent
    have hpL : (L.proc p).deleted = false := by
      rw [hspec.procs p (hsize ▸ h.lt), ht]
      simpa [withPopulation, modifyProc] using hal
    have hcL : (L.proc (s1.size + 1)).deleted = false := by
      rw [← hsize, hspec.childProc]
    have hset : ∀ x, (L.setPendingPopen p x).pendingPopen p = x := fun _ => if_pos rfl
    have hcp' : ∀ x, (L.setPendingPopen p x).conns cp = some (.proc p) := fun _ => hcp
    have halive1 : ∀ x, (L.setPendingPopen p x).alive p = some p := fun _ => alive_eq hpL
    have halive2 : ∀ x, (L.setPendingPopen p x).alive (s1.size + 1) = some (s1.size + 1) := fun _ => alive_eq hcL
    rw [acceptLaunchedChild_popen (hset _) rfl, acceptLaunchedChild_popen hentry rfl]
    rw [bind_some, popenParent_eq (hcp' _) (hset _) rfl, halive1]
    dsimp only
    rw [setPendingPopen_setPendingPopen, setPendingPopen_setPendingPopen, halive2]
    rfl

theorem acceptPopenChild_exists (hops : (runOps start.ops s.tree).isSome = true)
    (hnode : (s.life c).execPoint.isSome = true) : ∃ s', s.acceptPopenChild p pending c cc cp a fd start = some s' := by
  obtain ⟨ps, hps⟩ : ∃ ps, ps = connectPopen (s.modifyProc p fun q => { q with
    fd2popenChild := (fd, c) :: q.fd2popenChild }) p c fd pending start.popenPipe := ⟨_, rfl⟩
  have hlives : ps.toLives = s.toLives := by
    rw [hps, connectPopen_toLives]
    rfl
  rw [← hlives] at hops hnode
  obtain ⟨s1, h1⟩ :=
    acceptExecChild_exists (s := s.withPopulation (ps.send { conn := cp, answers := a, kind := .popenFd })) cc hops hnode
  rw [acceptPopenChild]
  simp only [← hps, h1]
  exact ⟨_, rfl⟩

/-- The two messages are handled if the operations that the start of the child runs on the tree are. -/
theorem popen_succeeds (hr : Reach o P s1) (h : PopenPending s wronly p k pid cp cc s1)
    (hspawn : (s.proc p).posixSpawnPending = false) (hsup : k ≠ o.supervisor)
    (hpending : s1.pendingPopen p = some { wronly, cloexec }) (halive : (s1.proc p).deleted = false)
    (hops : ∀ t, s1.tree.exec (s.life p).execPoint = some t → (runOps start.ops t).isSome = true) :
    ∃ s', (s1.step o (.message cp a (.popenParent fd start))).bind
      (fun s => s.step o (.scprocQuery cc pid k true isQemu start)) = some s' := by
  have h2 : PopenPending s wronly p k pid cp cc
      (s1.setPendingPopen p (some { wronly, cloexec, parent := some (cp, a, fd) })) :=
    { h with }
  obtain ⟨-, -, -, hpoint, -⟩ := calm_eq h.life
  obtain ⟨t, ht, -⟩ := hr.footing.shape.tree.exec fun n hn => hr.footing.shape.execPoint_lt p n h.lt hn
  rw [popenParent_eq h.parent hpending rfl, alive_eq halive, bind_some, bind_some, popenChild_eq h2 hspawn hsup]
  generalize hs2 : s1.setPendingPopen p _ = s2
  have hlives : s2.toLives = s1.toLives := by rw [← hs2]; rfl
  have hentry : s2.pendingPopen p = some { wronly, cloexec, parent := some (cp, a, fd) } := by rw [← hs2]; exact if_pos rfl
  have halive2 : s2.alive p = some p := alive_eq (by rw [← hs2]; exact halive)
  obtain ⟨L, hL⟩ := launch_exists (s := s2.withPopulation (s2.modifyProc p ({ · with expectedChild := none }))) cc pid
    isQemu (rfl : (popenEnv s p wronly).launchType = .popen) (by show s2.tree.exec (s2.life p).execPoint = _; rw [hlives, ht])
  have hspec := launch_spec rfl (by show p < s2.size; rw [hlives]; exact h.lt) hL
  have htree : s2.tree.exec (s2.life p).execPoint = some L.tree := hspec.tree
  have hnode : (L.life (s2.size + 1)).execPoint.isSome = true :=
    (congrArg (·.execPoint.isSome) hspec.child).trans rfl
  rw [hlives, hpoint] at htree
  rw [halive2, bind_some, hL, bind_some, acceptLaunchedChild_popen (by rw [hspec.popens]; exact hentry) rfl]
  exact acceptPopenChild_exists (hops _ htree) hnode

/-! ## The results -/

def readyToFork : List Event := [.connect 0, .scprocQuery 0 10 1 true false {}, .connect 1]

theorem popenFailed_spec (hcp : s.conns cp = some (.proc p)) (hexpected : (s.proc p).expectedChild = some env)
    (he : s.step o (.message cp a (.popenFailed argvMatches)) = some s') :
    s'.life = s.life ∧ s'.proc p = { s.proc p with expectedChild := none } ∧ (argvMatches = true → s'.tree = s.tree) ∧
      s'.pendingPopen = s.pendingPopen ∧ s'.conns = s.conns := by
  obtain ⟨now, s1, sent, h1, rfl⟩ := message_spec hcp he
  obtain ⟨⟨x, ps⟩, hps, ⟨⟩⟩ := map_eq_some_iff.mp h1
  obtain ⟨⟨-, hlife, hconns, -⟩, hproc, htree⟩ := popExpectedChild_spec hps
  have hprocp : ps.proc p = { s.proc p with expectedChild := none } := by rw [hproc, if_pos rfl]
  have htree' : argvMatches = true → ps.tree = s.tree := fun hm =>
    (htree.resolve_right fun hwhy => by
      have hnone := hwhy.1 hm
      rw [hexpected] at hnone
      cases hnone).2
  exact ⟨hlife, hprocp, htree', rfl, hconns⟩

/-- What a process that hangs up has pending stays so. -/
theorem hangUp_pending (hcp : s.conns cp = some (.proc p)) (he : s.step o (.hangUp cp) = some s') :
    (s'.life p).execPending = (s.life p).execPending ∧ (s'.life p).hasPendingPopen = (s.life p).hasPendingPopen := by
  rw [step, hangUp, hcp] at he
  obtain ⟨ps, hps, rfl⟩ := map_eq_some_iff.mp (alive_bind he).2
  obtain ⟨-, -, -, -, -, -, hexec, hpopen, -⟩ := steady_eq ((Population.finish_settles hps).life p)
  have hended : ((s.setConn cp none).toLives.setTerminated p).life p = { s.life p with state := .terminated } := if_pos rfl
  rw [Population.ended_toLives, hended] at hexec hpopen
  exact ⟨hexec, hpopen⟩

/-- A popen() that fails: the child is not expected any more, and that is all that is taken back. -/
theorem popen_failed_leaves_pending (hcp : s.conns cp = some (.proc p))
    (h₁ : s.step o (.message cp a (.popen wronly cloexec)) = some s₁)
    (h₂ : s₁.step o (.message cp b (.popenFailed argvMatches)) = some s₂) :
    ((s₂.proc p).expectedChild = none ∧ (s₂.proc p).fds = (s.proc p).fds ∧ (argvMatches = true → s₂.tree = s.tree)) ∧
    (s.pendingPopen p = none ∧ s₂.pendingPopen p = some { wronly, cloexec } ∧ (s₂.life p).hasPendingPopen = true) ∧
    (∀ c w x, s₂.step o (.message cp c (.popen w x)) = none) ∧
    (Reach o Event.Prompt s → ∀ s', s₂.step o (.hangUp cp) = some s' → (s'.life p).state = .finalized →
      Exempt s'.toLives p) := by
  obtain ⟨hnone, -, -, htree1, hlife1, hproc1, hpopens1, hconns1, -⟩ := popen_spec hcp h₁
  have hexpected1 : (s₁.proc p).expectedChild = some (popenEnv s p wronly) := by rw [hproc1, if_pos rfl]
  obtain ⟨hlife, hproc, htree, hpopens, hconns⟩ := popenFailed_spec (hconns1 ▸ hcp) hexpected1 h₂
  have hcp2 : s₂.conns cp = some (.proc p) := by rw [hconns, hconns1, hcp]
  have hentry : s₂.pendingPopen p = some { wronly, cloexec } := by rw [hpopens, hpopens1, if_pos rfl]
  have hflag : (s₂.life p).hasPendingPopen = true := by rw [hlife, hlife1, if_pos rfl]
  refine ⟨⟨by rw [hproc], by rw [hproc, hproc1, if_pos rfl], fun hm => (htree hm).trans htree1⟩, ⟨hnone, hentry, hflag⟩,
    fun c w x => ?_, fun hreach s' he hfin => ?_⟩
  · cases he : s₂.step o (.message cp c (.popen w x)) with
    | none => rfl
    | some s' =>
      have hfree := (popen_spec hcp2 he).1
      rw [hentry] at hfree
      cases hfree
  · have hreach2 : Reach o Event.Prompt s₂ :=
      .step (.step hreach (by simp [Event.Prompt, Event.lookedUp]) h₁) (by simp [Event.Prompt, Event.lookedUp]) h₂
    have hreach' : Reach o Event.Prompt s' := .step hreach2 (by simp [Event.Prompt, Event.lookedUp]) he
    have hlt : p < s'.size :=
      lt_of_lt_of_le (hreach2.footing.conns cp p hcp2).1 (hreach2.ticks he).moves.grows.1
    refine (hreach'.timely.pending p hlt hfin).resolve_right fun hpending => ?_
    rw [Lives.pending, (hangUp_pending hcp2 he).2, hflag, Bool.or_true] at hpending
    cases hpending

/-- The first process is told that popen() failed. -/
def popenFails : List Event := [.message 0 1 (.popen false false), .message 0 2 (.popenFailed true)]

theorem popenFails_leaves_pending : ∃ s s₁ s₂, run smallBuild readyToFork (init smallBuild) = some s ∧
    s.step smallBuild (.message 0 1 (.popen false false)) = some s₁ ∧
    s₁.step smallBuild (.message 0 2 (.popenFailed true)) = some s₂ ∧ (s₂.life 1).hasPendingPopen = true ∧
    s₂.step smallBuild (.message 0 3 (.popen false false)) = none := by
  obtain ⟨s, hs, hcp, s₁, hs1, s₂, hs2⟩ : ∃ s, run smallBuild readyToFork (init smallBuild) = some s ∧
      s.conns 0 = some (.proc 1) ∧ ∃ s₁, s.step smallBuild (.message 0 1 (.popen false false)) = some s₁ ∧
      ∃ s₂, s₁.step smallBuild (.message 0 2 (.popenFailed true)) = some s₂ := ⟨_, rfl, rfl, _, rfl, _, rfl⟩
  obtain ⟨-, ⟨-, -, hflag⟩, hnext, -⟩ := popen_failed_leaves_pending hcp hs1 hs2
  exact ⟨s, s₁, s₂, hs, hs1, hs2, hflag, hnext 3 false false⟩

/-- It cannot popen() again, and it is not finalized when it is over. -/
theorem popen_failed_blocks :
    (run smallBuild (readyToFork ++ popenFails ++ [.message 0 3 (.popen false false)]) (init smallBuild)).isNone = true ∧
    ((run smallBuild (readyToFork ++ popenFails ++ [.hangUp 0, .sigchild 10 (some 0)]) (init smallBuild)).map fun s =>
      ((s.life 1).state, s.beenWaitedFor 1, (s.life 1).hasPendingPopen, (s.pendingPopen 1).isSome)) =
        some (.terminated, true, true, true) :=
  ⟨rfl, rfl⟩

end ProcessTree
end Firebuild
