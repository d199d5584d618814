/-
  Firebuild.Parked — what is parked under a pid for a fork() is nothing to the events of others.

  An event that is not about the pid does the same whether fork_parent or fork_child has been
  parked under it or not (`step_noFork`).
-/

import Firebuild.Reachable

namespace Firebuild

open Option (bind_some map_map)
namespace ProcessTree

open Population (Options TreeOp runOps)

variable {s : ProcessTree} {o : Options} {p q c conn pid ppid ack k fd : Nat} {start : Start} {isQemu : Bool}
  {argvMatches : Bool} {α β γ : Type} {env : Option Population.ExecedProcessEnv}

/-! ## Without the entries of one pid -/

def noFork (k : Nat) (s : ProcessTree) : ProcessTree :=
  { s with
    parentAck := fun i => if i = k then none else s.parentAck i
    forkChildSock := fun i => if i = k then none else s.forkChildSock i }

theorem noFork_parentAck (hk : p ≠ k) : (noFork k s).parentAck p = s.parentAck p := if_neg hk

theorem noFork_forkChildSock (hk : p ≠ k) : (noFork k s).forkChildSock p = s.forkChildSock p := if_neg hk

theorem noFork_setParentAck (hk : p ≠ k) (a : Option PendingParentAck) :
    (noFork k s).setParentAck p a = noFork k (s.setParentAck p a) := by
  simp only [noFork, setParentAck, mk.injEq, true_and, and_true]
  funext i
  by_cases hi : i = p
  · simp [hi, hk]
  · simp [hi]

theorem noFork_setForkChildSock (hk : p ≠ k) (x : Option ForkChildSock) :
    (noFork k s).setForkChildSock p x = noFork k (s.setForkChildSock p x) := by
  simp only [noFork, setForkChildSock, mk.injEq, true_and, and_true]
  funext i
  by_cases hi : i = p
  · simp [hi, hk]
  · simp [hi]

/-! Every handler that is not about the pid does the same without its entries. -/

theorem bind_map {g : α → Option β}
    (h : ∀ y, x = some y → f y = (g y).map F) : x.bind f = (x.bind g).map F := by
  cases x with
  | none => rfl
  | some y => exact h y rfl

theorem map_out {x : Option α} (h : ∀ y, f y = F (g y)) :
    x.map f = (x.map g).map F := by
  rw [map_map]
  exact congrArg (Option.map · x) (funext h)

theorem eq_of_alive {ps : Population} (h : ps.alive p = some q) : q = p := by
  rw [Population.alive] at h
  split at h
  · cases h
  · exact (Option.some.inj h).symm

theorem acceptExecChild_noFork :
    (noFork k s).acceptExecChild p conn start = (s.acceptExecChild p conn start).map (noFork k) := by
  refine bind_map fun t _ => ?_
  cases hshort : start.shortcut with
  | none => rfl
  | some status =>
    rw [map_map, map_map, map_map]
    rfl

theorem acceptForkChild_noFork {parent parentConn parentAck : Nat} :
    (noFork k s).acceptForkChild parent parentConn parentAck pid conn ack =
      (s.acceptForkChild parent parentConn parentAck pid conn ack).map (noFork k) := by
  rw [acceptForkChild, acceptForkChild, apply_ite (Option.map _)]
  rfl

theorem acceptPopenChild_noFork :
    (noFork k s).acceptPopenChild p pending c childConn conn ack fd start =
      (s.acceptPopenChild p pending c childConn conn ack fd start).map (noFork k) := by
  unfold acceptPopenChild
  dsimp only
  have hacc : ∀ ps : Population, ((noFork k s).withPopulation ps).acceptExecChild c childConn start =
      ((s.withPopulation ps).acceptExecChild c childConn start).map (noFork k) := fun ps =>
    acceptExecChild_noFork (s := s.withPopulation ps)
  have hpop : (noFork k s).toPopulation = s.toPopulation := rfl
  rw [hacc, map_map, map_map]
  rfl

theorem addLaunchedFork_noFork (hps : p < s.size) (hk : (s.proc p).pid ≠ k) :
    (noFork k s).addLaunchedFork p pid env = noFork k (s.addLaunchedFork p pid env) := by
  unfold addLaunchedFork
  dsimp only
  have hne : ((s.newForked p pid (launchFds env)).proc p).pid ≠ k := by
    rw [newForked_proc hps]
    exact hk
  have hinsert : ((noFork k s).withPopulation
      (((noFork k s).newForked p pid (launchFds env)).setTerminated (noFork k s).size)).insert (noFork k s).size =
        noFork k ((s.withPopulation ((s.newForked p pid (launchFds env)).setTerminated s.size)).insert s.size) := rfl
  rw [hinsert]
  generalize hs1 : (s.withPopulation ((s.newForked p pid (launchFds env)).setTerminated s.size)).insert s.size = s1
  have hpid : (s1.proc p).pid ≠ k := by
    rw [← hs1]
    exact hne
  have hack : (noFork k s1).parentAck ((noFork k s1).proc p).pid = s1.parentAck (s1.proc p).pid := noFork_parentAck hpid
  rw [hack]
  cases env.map Population.ExecedProcessEnv.launchType with
  | none => rfl
  | some type =>
    cases type with
    | posixSpawn =>
      cases s1.parentAck (s1.proc p).pid with
      | none => rfl
      | some a => exact noFork_setParentAck (s := s1.withPopulation (s1.ackMsg a.sock a.ackNum)) hpid none
    | _ => rfl

theorem acceptLaunchedChild_noFork :
    (noFork k s).acceptLaunchedChild p c conn type start = (s.acceptLaunchedChild p c conn type start).map (noFork k) := by
  cases type with
  | none => exact acceptExecChild_noFork
  | some type =>
    cases type with
    | system => exact acceptExecChild_noFork (s := s.withPopulation (s.modifyProc p ({ · with systemChild := some c })))
    | posixSpawn => exact acceptExecChild_noFork
    | popen =>
      refine bind_map fun pending _ => ?_
      split
      · rfl
      cases pending.parent with
      | none => rfl
      | some x => exact acceptPopenChild_noFork (s := s.setPendingPopen p _)

theorem launchedChild_noFork (hps : p < s.size) (hk : (s.proc p).pid ≠ k) :
    (noFork k s).launchedChild p conn pid isQemu env start =
      (s.launchedChild p conn pid isQemu env start).map (noFork k) := by
  unfold launchedChild
  rw [addLaunchedFork_noFork hps hk]
  generalize s.addLaunchedFork p pid env = s1
  exact bind_map fun ps _ => acceptLaunchedChild_noFork (s := s1.withPopulation (ps.setConn conn (some (.proc s1.size))))

theorem newExecedProcess_noFork (hk : Known s) (hne : ppid ≠ k) :
    (noFork k s).newExecedProcess o conn pid ppid argvMatches isQemu start =
      (s.newExecedProcess o conn pid ppid argvMatches isQemu start).map (noFork k) := by
  have hexec : ∀ parent, (((noFork k s).getExecedProcess parent pid isQemu).bind fun ps =>
      ((noFork k s).withPopulation (ps.setConn conn (some (.proc (noFork k s).size)))).acceptExecChild (noFork k s).size conn
        start) = ((s.getExecedProcess parent pid isQemu).bind fun ps =>
          (s.withPopulation (ps.setConn conn (some (.proc s.size)))).acceptExecChild s.size conn start).map (noFork k) := by
    exact fun parent => bind_map fun ps _ =>
      acceptExecChild_noFork (s := s.withPopulation (ps.setConn conn (some (.proc s.size))))
  have hmap : (noFork k s).pid2proc = s.pid2proc := rfl
  have halive : (noFork k s).alive = s.alive := rfl
  rw [newExecedProcess, newExecedProcess, hmap]
  cases s.pid2proc pid with
  | some parent => exact bind_map fun parent _ => hexec parent
  | none =>
    by_cases hsup : ppid = o.supervisor
    · rw [if_pos hsup, if_pos hsup]
      exact hexec 0
    rw [if_neg hsup, if_neg hsup]
    cases hunix : s.pid2proc ppid with
    | none => rfl
    | some unixParent =>
      obtain ⟨hlt, hpid⟩ := hk.pids ppid unixParent hunix
      refine bind_map fun parent hal => bind_map fun x hpop => ?_
      obtain ⟨env, ps⟩ := x
      obtain rfl := eq_of_alive hal
      obtain ⟨⟨hsize, -⟩, hproc, -⟩ := popExpectedChild_spec hpop
      by_cases hspawn : ((s.withPopulation ps).proc parent).posixSpawnPending
      · have hspawn' : (((noFork k s).withPopulation ps).proc parent).posixSpawnPending = true := hspawn
        simp only [if_pos hspawn, if_pos hspawn']
        exact map_out fun _ => rfl
      have hspawn' : ¬(((noFork k s).withPopulation ps).proc parent).posixSpawnPending = true := hspawn
      simp only [if_neg hspawn, if_neg hspawn']
      refine launchedChild_noFork (s := s.withPopulation ps) (hsize ▸ hlt) ?_
      show (ps.proc parent).pid ≠ k
      rw [hproc, if_pos rfl]
      exact hpid ▸ hne

theorem newForkedProcess_noFork (hne : ppid ≠ k) :
    (noFork k s).newForkedProcess conn pid ppid ack = (s.newForkedProcess conn pid ppid ack).map (noFork k) := by
  have hmap : (noFork k s).pid2proc = s.pid2proc := rfl
  have halive : (noFork k s).alive = s.alive := rfl
  rw [newForkedProcess, newForkedProcess, noFork_parentAck hne, noFork_forkChildSock hne]
  cases s.parentAck ppid with
  | none =>
    dsimp only
    split
    · rfl
    · rw [noFork_setForkChildSock hne]
      rfl
  | some a =>
    refine bind_map fun parent _ => bind_map fun parent _ => ?_
    rw [acceptForkChild_noFork, map_map, map_map]
    exact congrArg (Option.map · _) (funext fun s1 => noFork_setParentAck hne none)

theorem forkParent_noFork (hne : (s.proc p).pid ≠ k) :
    (noFork k s).forkParent p conn ack = (s.forkParent p conn ack).map (noFork k) := by
  have hproc : (noFork k s).proc = s.proc := rfl
  unfold forkParent
  dsimp only
  rw [hproc, noFork_parentAck hne, noFork_forkChildSock hne]
  cases s.forkChildSock (s.proc p).pid with
  | none =>
    dsimp only
    split
    · rfl
    · rw [noFork_setParentAck hne]
      rfl
  | some x =>
    dsimp only
    rw [acceptForkChild_noFork, map_map, map_map]
    exact congrArg (Option.map · _) (funext fun s1 => noFork_setForkChildSock hne none)

theorem popen_noFork :
    (noFork k s).popen p wronly cloexec = (s.popen p wronly cloexec).map (noFork k) := by
  have hpopen : (noFork k s).pendingPopen p = s.pendingPopen p := rfl
  rw [popen, popen, hpopen]
  split
  · rfl
  · exact map_out fun _ => rfl

theorem popenParent_noFork :
    (noFork k s).popenParent p conn ack fd start = (s.popenParent p conn ack fd start).map (noFork k) := by
  refine bind_map fun pending _ => ?_
  split
  · rfl
  cases pending.child with
  | none => rfl
  | some x => exact bind_map fun child _ => acceptPopenChild_noFork (s := s.setPendingPopen p _)

theorem spawnedProcess_noFork :
    (noFork k s).spawnedProcess p f argvMatches start = (s.spawnedProcess p f argvMatches start).map (noFork k) := by
  have hsock : (noFork k s).posixSpawnChildSock ((noFork k s).proc p).pid = s.posixSpawnChildSock (s.proc p).pid := rfl
  rw [spawnedProcess, spawnedProcess, hsock]
  cases s.posixSpawnChildSock (s.proc p).pid with
  | none => exact map_out fun _ => rfl
  | some x =>
    have hadopt : (noFork k s).adoptPosixSpawnChild f x start = (s.adoptPosixSpawnChild f x start).map (noFork k) :=
      bind_map fun ps _ => acceptExecChild_noFork (s := s.withPopulation (ps.setConn x.sock (some (.proc s.size))))
    dsimp only
    rw [hadopt, map_map, map_map]
    rfl

theorem posixSpawnParent_noFork :
    (noFork k s).posixSpawnParent p pid actions ops argvMatches start =
      (s.posixSpawnParent p pid actions ops argvMatches start).map (noFork k) := by
  have hfork : (noFork k s).addSpawnedFork p pid actions ops = (s.addSpawnedFork p pid actions ops).map (noFork k) := by
    unfold addSpawnedFork
    rw [map_map]
    rfl
  unfold posixSpawnParent
  rw [hfork]
  cases s.addSpawnedFork p pid actions ops with
  | none => rfl
  | some s1 =>
    show Option.map _ ((noFork k s1).spawnedProcess p s.size argvMatches start) = _
    rw [spawnedProcess_noFork, map_map, bind_some, map_map]
    rfl

theorem Message.process_noFork {m : Message} (hne : (s.proc p).pid ≠ k) :
    m.process o (noFork k s) p conn ack = (m.process o s p conn ack).map (Prod.map id (noFork k)) := by
  cases m with
  | forkParent =>
    rw [process, process, forkParent_noFork hne, map_map, map_map]
    rfl
  | execFailed | rusage timeU | exec timeU => rfl
  | system =>
    rw [process, process]
    show (if (s.proc p).systemChild.isSome then none else _) = _
    split
    · rfl
    · exact map_out fun _ => rfl
  | systemRet status | wait pid status => exact bind_map fun child _ => bind_map fun child _ => map_out fun _ => rfl
  | popen wronly cloexec =>
    rw [process, process, popen_noFork, map_map, map_map]
    rfl
  | popenParent fd start =>
    rw [process, process, popenParent_noFork, map_map, map_map]
    rfl
  | popenFailed argvMatches | posixSpawn | posixSpawnFailed argvMatches | other ops fds => exact map_out fun _ => rfl
  | pclose fd error status =>
    rw [process, process]
    split
    · rfl
    · exact bind_map fun child _ => bind_map fun child _ => map_out fun _ => rfl
  | posixSpawnParent pid actions ops argvMatches start =>
    rw [process, process, posixSpawnParent_noFork, map_map, map_map]
    rfl

theorem step_noFork (hk : Known s) (hne : k ∉ e.pids s) :
    (noFork k s).step o e = (s.step o e).map (noFork k) := by
  have hconns : (noFork k s).conns = s.conns := rfl
  have halive : (noFork k s).alive = s.alive := rfl
  cases e with
  | connect conn =>
    rw [step, step, hconns]
    split <;> rfl
  | scprocQuery conn pid ppid argvMatches isQemu start =>
    rw [step, step, hconns]
    split
    · exact newExecedProcess_noFork hk fun he => hne (by simp [Event.pids, he])
    · rfl
  | forkChild conn pid ppid ack =>
    rw [step, step, hconns]
    split
    · exact newForkedProcess_noFork fun he => hne (by simp [Event.pids, he])
    · rfl
  | message conn ack m =>
    rw [step, step, message, message, hconns]
    split
    · next p hconn =>
      refine bind_map fun q hal => ?_
      obtain rfl := eq_of_alive hal
      rw [Message.process_noFork fun he => hne (by simp [Event.pids, hconn, he]), map_map, map_map]
      congr 1
      funext x
      simp only [Function.comp, Prod.map, id]
      split <;> rfl
    · rfl
  | hangUp conn =>
    rw [step, step, hangUp, hangUp, hconns]
    cases s.conns conn with
    | none => rfl
    | some c =>
      cases c with
      | null | incomplete => rfl
      | proc p => exact bind_map fun p _ => map_out fun _ => rfl
  | sigchild pid status =>
    have hmap : (noFork k s).pid2proc = s.pid2proc := rfl
    rw [step, step, collect, collect, hmap]
    cases s.pid2proc pid with
    | none =>
      dsimp only
      split <;> rfl
    | some p =>
      refine bind_map fun p _ => ?_
      have hwaited : (noFork k s).beenWaitedFor p = s.beenWaitedFor p := rfl
      rw [hwaited]
      split
      · exact map_out fun _ => rfl
      · split <;> rfl
  | gcProcesses =>
    rw [step, step, map_map]
    rfl

end ProcessTree
end Firebuild
