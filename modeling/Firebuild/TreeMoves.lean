/-
  Firebuild.TreeMoves — every event is a sequence of small changes.

  `Tick` lists what the handlers do to the tree of processes: a new process, a flag, a
  connection, an entry of a map or a queue, and whatever finalizing comes to. A tick says what it
  may be about (`Scope`), and whether a process runs without a connection after it; there is at
  most one, and only inside a handler.

  `step_ticks`: a message, a closed connection, a SIGCHLD or the garbage collector is a sequence
  of ticks. So whatever ticks do, events do: their effect on the lives of the processes is made of
  the moves of `LifeMoves` (`Tick.moves`), the processes in the maps and queues are known ones
  (`Tick.known`), and nothing is touched but what the event is about (`Tick.touches`). A child
  comes late, below a process that is finalized, only if it is looked up by a pid
  (`Event.lookedUp`).
-/

import Firebuild.Footprint
import Firebuild.Finalizing

namespace Firebuild

open Option (bind_eq_some_iff map_eq_some_iff)
namespace ProcessTree

open Population (Options TreeOp Settles Tame Spares Mine getForkedProcess idle modifyFds modifyProc newForked runOps setTree)
open Lives (Moves Move Footing Weakens)

/-- What an event may be about: the connections it closes, the one it comes on, those whose
    process is set, and pids. A child may come late. -/
structure Scope where
  late : Prop
  closes : List Nat
  own : List Nat
  conns : List Nat
  pids : List Nat

variable {a : Scope} {w w' w'' : Option Nat} {s s' s'' : ProcessTree} {ps : Population} {o : Options}
  {p q c conn pid ppid ack : Nat} {start : Start} {isQemu : Bool} {ops : List TreeOp}

/-- One change. `w` is a process that runs without a connection. -/
inductive Tick (a : Scope) (w : Option Nat) (s : ProcessTree) : Option Nat → ProcessTree → Prop
  | settle {ps : Population} (hm : Moves a.late none s.toLives none ps.toLives) (h : Settles s.toPopulation ps) :
      Tick a w s w (s.withPopulation ps)
  | same {ps : Population} (hlives : ps.toLives = s.toLives) (hproc : ps.proc = s.proc) :
      Tick a w s w (s.withPopulation ps)
  | flags (p : Nat) (f : Life → Life) (hf : ∀ l : Life, f l = { l with
        execPending := (f l).execPending, hasPendingPopen := (f l).hasPendingPopen, beenWaitedFor := (f l).beenWaitedFor })
      (hfin : (s.life p).state = .finalized → ((f (s.life p)).execPending = true → (s.life p).execPending = true) ∧
        ((f (s.life p)).hasPendingPopen = true → (s.life p).hasPendingPopen = true))
      (hp : Mine a.pids s.toPopulation p ∨ calm (f (s.life p)) = calm (s.life p)) :
      Tick a w s w (s.withPopulation (s.modifyLife p f))
  | proc (p : Nat) (f : Population.Process → Population.Process) (hpid : (f (s.proc p)).pid = (s.proc p).pid)
      (hsystem : ∀ c, (f (s.proc p)).systemChild = some c → (s.proc p).systemChild = some c ∨ c < s.size)
      (hpopened : ∀ x, x ∈ (f (s.proc p)).fd2popenChild → x ∈ (s.proc p).fd2popenChild ∨ x.2 < s.size)
      (hp : Mine a.pids s.toPopulation p ∨ idle (f (s.proc p)) = idle (s.proc p)) :
      Tick a w s w (s.withPopulation (s.modifyProc p f))
  | terminate (p : Nat) (hw : w = some p) (hlt : p < s.size) (hrun : (s.life p).state = .running)
      (hfree : ∀ k, s.conns k ≠ some (.proc p)) (hp : Mine a.pids s.toPopulation p) :
      Tick a w s none (s.withPopulation (s.setTerminated p))
  | forked (p pid : Nat) (fds : FdTable) (hw : w = none) (hlt : p < s.size)
      (hlate : a.late ∨ (s.life p).state ≠ .finalized) (hp : Mine a.pids s.toPopulation p) :
      Tick a w s (some s.size) (s.withPopulation (s.newForked p pid fds))
  | execed {ps : Population} (p pid : Nat) (isQemu : Bool) (hw : w = none) (hlt : p < s.size)
      (hlate : a.late ∨ (s.life p).state ≠ .finalized) (hp : Mine a.pids s.toPopulation p)
      (he : s.newExeced p pid isQemu = some ps) : Tick a w s (some s.size) (s.withPopulation ps)
  /-- A posix_spawn() child that has waited gets its place and its process. -/
  | adopt {ps : Population} (p k : Nat) (x : ExecChildSock) (hlt : p < s.size)
      (hlate : a.late ∨ (s.life p).state ≠ .finalized) (hp : Mine a.pids s.toPopulation p)
      (hx : s.posixSpawnChildSock k = some x) (hsock : x.sock ∈ a.conns) (hfree : ∀ k, s.conns k ≠ some (.proc s.size))
      (he : s.adopt p x.pid x.node = some ps) :
      Tick a w s w ((s.withPopulation (ps.setConn x.sock (some (.proc s.size)))).setSock k none)
  | queue {s' : ProcessTree} (conn pid ppid : Nat) (isQemu : Bool) (hconn : conn ∈ a.conns)
      (hnull : s.conns conn = some .null) (he : s.queuePosixSpawnChild conn pid ppid isQemu = some s') : Tick a w s w s'
  /-- The process gets its connection. -/
  | attach (conn p : Nat) (hw : w = some p) (hconn : conn ∈ a.conns) (hnull : s.conns conn = some .null) (hlt : p < s.size)
      (hrun : (s.life p).state = .running) (hfree : ∀ k, s.conns k ≠ some (.proc p)) :
      Tick a w s none (s.withPopulation (s.setConn conn (some (.proc p))))
  | conn {w' : Option Nat} (conn : Nat) (c : Option Connection) (hw : w = none) (hconn : conn ∈ a.conns)
      (hc : c = none ∧ conn ∈ a.closes ∨ c = some .null) (hold : s.conns conn ≠ some .incomplete)
      (hproc : ∀ p, s.conns conn = some (.proc p) → w' = some p) : Tick a w s w' (s.withPopulation (s.setConn conn c))
  | insert (p : Nat) (hlt : p < s.size) (hp : (s.proc p).pid ∈ a.pids) : Tick a w s w (s.insert p)
  | parentAck (k : Nat) (x : Option PendingParentAck) (hk : k ∈ a.pids) (hx : ∀ y, x = some y → y.sock ∈ a.own) :
      Tick a w s w (s.setParentAck k x)
  | forkChildSock (k : Nat) (x : Option ForkChildSock) (hk : k ∈ a.pids) (hx : ∀ y, x = some y → y.sock ∈ a.own) :
      Tick a w s w (s.setForkChildSock k x)
  | pendingPopen (p : Nat) (x : Option PendingPopen) (hp : (s.proc p).pid ∈ a.pids)
      (hchild : ∀ y c, x = some y → y.child = some c →
        (∃ z, s.pendingPopen p = some z ∧ z.child = some c) ∨ (c.2 ∈ a.own ∧ c.1 < s.size))
      (hparent : ∀ y c, x = some y → y.parent = some c →
        (∃ z, s.pendingPopen p = some z ∧ z.parent = some c) ∨ c.1 ∈ a.own) : Tick a w s w (s.setPendingPopen p x)
  /-- The garbage collector. -/
  | drop (p q : Nat) (hq : (s.proc q).pid ∈ a.pids) :
      Tick a w s w (s.withPopulation (deleteProcessSubtree (s.modifyLife q ({ · with execChild := none })) p))

/-! ## What ticks do -/

theorem newExeced_eq {s s' : Population} (h : s.newExeced p pid isQemu = some s') :
    ∃ t, s.tree.exec (s.life p).execPoint = some t ∧ s'.toLives = { s.toLives.addExeced p s.tree.size with tree := t } ∧
      ∀ q, s'.proc q = if q = p then { (if q = s.size then { pid, fds := (s.proc p).fds.passOn true } else s.proc q) with
        fds := FdTable.resetPipeRefs (if q = s.size then { pid, fds := (s.proc p).fds.passOn true } else s.proc q).fds }
        else if q = s.size then { pid, fds := (s.proc p).fds.passOn true } else s.proc q := by
  obtain ⟨t, ht, rfl⟩ := map_eq_some_iff.mp h
  exact ⟨t, ht, rfl, fun _ => rfl⟩

theorem adopt_eq {s s' : Population} (h : s.adopt p pid node = some s') :
    ∃ n t, (s.life p).execPoint = some n ∧ s.tree.setParent node n = some t ∧
      s'.toLives = { s.toLives.addExeced p node with tree := t } ∧
      ∀ q, s'.proc q = if q = s.size then { pid, fds := (s.proc p).fds.passOn true } else s.proc q := by
  obtain ⟨n, hn, h⟩ := bind_eq_some_iff.mp h
  obtain ⟨t, ht, rfl⟩ := map_eq_some_iff.mp h
  exact ⟨n, t, hn, ht, rfl, fun _ => rfl⟩

namespace Tick

theorem moves (h : Tick a w s w' s') : Moves a.late none s.toLives none s'.toLives := by
  cases h with
  | settle hm _ => exact hm
  | same hlives _ =>
    rw [withPopulation, hlives]
    exact .refl
  | flags p f hf hfin _ => exact (Population.flags_move hf hfin).single
  | terminate p _ hlt hrun hfree _ => exact (Move.terminate p hlt hrun hfree).single
  | forked p pid fds _ hlt hlate _ => exact (Move.forked p hlt hlate).single
  | @execed ps p pid isQemu _ hlt hlate _ he =>
    obtain ⟨t, ht, hlives, -⟩ := newExeced_eq he
    show Moves a.late none s.toLives none ps.toLives
    rw [hlives]
    exact (Move.execed p hlt hlate ht).single
  | @adopt ps p k x hlt hlate _ hx _ hfree he =>
    obtain ⟨n, t, hn, ht, hlives, -⟩ := adopt_eq he
    show Moves a.late none s.toLives none ((ps.toLives.setConn x.sock (some (.proc s.size))).setSock k none)
    rw [hlives]
    refine (Move.adopt p k n x hlt hlate hx hn ht).single.tail (.conn x.sock _ ?_)
    rintro q ⟨⟩
    exact ⟨Nat.lt_succ_self _, congrArg Life.state (Lives.addExeced_new s.toLives p x.node), hfree⟩
  | queue conn pid ppid isQemu _ _ he =>
    obtain ⟨t, ht, rfl⟩ := map_eq_some_iff.mp he
    exact (Move.queue conn pid ppid ht).single
  | attach conn p _ _ _ hlt hrun hfree =>
    refine (Move.conn conn _ ?_).single
    rintro q ⟨⟩
    exact ⟨hlt, hrun, hfree⟩
  | conn conn c _ _ hc _ _ =>
    refine (Move.conn conn c ?_).single
    rintro q rfl
    rcases hc with ⟨hc, -⟩ | hc <;> cases hc
  | drop p q _ => exact (Move.dropExecChild q).single
  | _ => exact .refl

theorem known (h : Tick a w s w' s') (hk : Known s) : Known s' := by
  cases h with
  | settle _ h => exact hk.tame (.of_settles h)
  | same hlives hproc => exact hk.tame (.of_proc (by rw [hlives]) hproc)
  | proc p f hpid hsystem hpopened _ => exact hk.tame (.modifyProc hpid hsystem hpopened)
  | forked p pid fds _ _ _ _ =>
    refine hk.tame (.fresh (p := s.size) (f := id) (x := { pid, fds }) rfl rfl rfl fun q => ?_)
    show (if q = s.size then _ else _) = _
    split <;> rfl
  | execed p pid isQemu _ _ _ _ he =>
    obtain ⟨t, -, hlives, hproc⟩ := newExeced_eq he
    exact hk.tame (.fresh (by rw [hlives]; rfl) rfl rfl hproc)
  | @adopt ps p k x _ _ _ _ _ _ he =>
    obtain ⟨n, t, -, -, hlives, hproc⟩ := adopt_eq he
    have hnew : Known (s.withPopulation ps) := by
      refine hk.tame (.fresh (p := s.size) (f := id) (x := { pid := x.pid, fds := (s.proc p).fds.passOn true })
        (by rw [hlives]; rfl) rfl rfl fun q => ?_)
      rw [hproc]
      split <;> rfl
    have hconn : Known ((s.withPopulation ps).withPopulation (ps.setConn x.sock (some (.proc s.size)))) :=
      hnew.tame (.of_proc le_rfl rfl)
    exact hconn.setSock k none
  | queue conn pid ppid isQemu _ _ he =>
    obtain ⟨t, -, rfl⟩ := map_eq_some_iff.mp he
    exact (hk.setSock ppid _).tame (.of_proc le_rfl rfl)
  | insert p hlt _ => exact hk.insert hlt
  | parentAck k x _ _ => exact hk.setParentAck k x
  | forkChildSock k x _ _ => exact hk.setForkChildSock k x
  | pendingPopen p x _ hchild _ =>
    refine hk.setPendingPopen p fun y c hy hc => ?_
    rcases hchild y c hy hc with ⟨z, hz, hzc⟩ | ⟨-, hlt⟩
    · exact hk.pendingPopen p z c hz hzc
    · exact hlt
  | drop p q _ =>
    refine hk.tame (.of_refs le_rfl fun r => ?_)
    simp only [deleteProcessSubtree]
    split <;> exact ⟨rfl, rfl, rfl⟩
  | _ => exact hk.tame (.of_proc le_rfl rfl)

theorem touches (h : Tick a w s w' s') : Touches a.closes a.own a.conns a.pids s s' := by
  cases h with
  | settle _ h => exact .of_spares (.of_settles h)
  | same hlives hproc =>
    exact .of_spares (.of_eq (by rw [hlives]) (by rw [hlives]) (by rw [hlives]) hproc (by rw [hlives]))
  | flags p f _ _ hp => exact .of_spares (.modifyLife hp)
  | proc p f hpid _ _ hp => exact .of_spares (.modifyProc (fun _ => hpid) hp)
  | terminate p _ _ _ _ hp => exact .of_spares (.setTerminated hp)
  | forked p pid fds _ _ _ hp => exact .of_spares (.newForked hp)
  | execed p pid isQemu _ hlt _ hp he => exact .of_spares (.newExeced hlt hp he)
  | adopt p k x _ _ hp _ hsock _ he =>
    refine Touches.trans (Touches.then_spares (.of_spares (.adopt hp he)) ?_) (.setSock nofun)
    exact .setConn (some (.proc s.size)) hsock nofun
  | queue conn pid ppid isQemu hconn _ he =>
    obtain ⟨t, -, rfl⟩ := map_eq_some_iff.mp he
    have hsock : Touches a.closes a.own a.conns a.pids s (s.setSock ppid (some ⟨conn, s.tree.size, pid⟩)) :=
      .setSock (by rintro y ⟨⟩; exact hconn)
    exact (hsock.then_spares (.setConn (some .incomplete) hconn nofun)).then_spares (.of_eq rfl rfl rfl rfl rfl)
  | attach conn p _ hconn _ _ _ _ => exact .of_spares (.setConn _ hconn nofun)
  | conn conn c _ hconn hc _ _ =>
    refine .of_spares (.setConn c hconn fun hnone => ?_)
    rcases hc with ⟨-, hc⟩ | hc
    · exact hc
    · rw [hnone] at hc
      cases hc
  | insert p _ hp => exact .insert hp
  | parentAck k x hk hx => exact .setParentAck hk hx
  | forkChildSock k x hk hx => exact .setForkChildSock hk hx
  | pendingPopen p x hp hchild hparent =>
    exact .setPendingPopen hp (fun y c hy hc => (hchild y c hy hc).imp_right And.left) hparent
  | drop p q hq =>
    have hlink : Spares a.closes a.conns a.pids s.toPopulation (s.modifyLife q ({ · with execChild := none })) :=
      .modifyLife (.inl (.inl hq))
    exact .of_spares (hlink.trans (.deleteProcessSubtree _ p))

end Tick

/-- A process that the event is about. -/
structure Due (a : Scope) (s : ProcessTree) (p : Nat) : Prop where
  lt : p < s.size
  pid : (s.proc p).pid ∈ a.pids

inductive Ticks (a : Scope) (w : Option Nat) (s : ProcessTree) : Option Nat → ProcessTree → Prop
  | refl : Ticks a w s w s
  | tail {w1 w2 : Option Nat} {s₁ s₂ : ProcessTree} : Ticks a w s w1 s₁ → Tick a w1 s₁ w2 s₂ → Ticks a w s w2 s₂

theorem Tick.single (h : Tick a w s w' s') : Ticks a w s w' s' := .tail .refl h

namespace Ticks

variable (h : Ticks a w s w' s')
include h

theorem trans (h' : Ticks a w' s' w'' s'') : Ticks a w s w'' s'' := by
  induction h' with
  | refl => exact h
  | tail _ ht ih => exact .tail ih ht

theorem moves : Moves a.late none s.toLives none s'.toLives := by
  induction h with
  | refl => exact .refl
  | tail _ ht ih => exact ih.trans ht.moves

theorem footing (hf : Footing none s.toLives) : Footing none s'.toLives := h.moves.footing hf

theorem known (hk : Known s) : Known s' := by
  induction h with
  | refl => exact hk
  | tail _ ht ih => exact ht.known ih

theorem touches : Touches a.closes a.own a.conns a.pids s s' := by
  induction h with
  | refl => exact .refl _
  | tail _ ht ih => exact ih.trans ht.touches

theorem lt (hp : p < s.size) : p < s'.size := hp.trans_le h.touches.spares.size

theorem due (hp : Due a s p) : Due a s' p := by
  refine ⟨h.lt hp.lt, ?_⟩
  rw [h.touches.spares.pid p hp.lt]
  exact hp.pid

theorem mine (hp : p < s.size) (hm : Mine a.pids s.toPopulation p) : Mine a.pids s'.toPopulation p :=
  h.touches.spares.mine hp hm

end Ticks

/-! ## Processes that are over -/

theorem ite_at (f : Nat → α) (g : α → α) (p q : Nat) :
    (if q = p then g (f q) else f q) = if q = p then g (f p) else f q := by
  split
  · next h => rw [h]
  · rfl

def Start.fds (start : Start) (fds : FdTable) : FdTable := if start.shortcut.isSome then fds else start.reopen fds

theorem alive_bind {s : Population} (h : (s.alive p).bind f = some x) :
    (s.proc p).deleted = false ∧ f p = some x := by
  obtain ⟨q, hq, h⟩ := bind_eq_some_iff.mp h
  rw [Population.alive] at hq
  split at hq
  · cases hq
  next hd =>
  cases hq
  exact ⟨by simpa using hd, h⟩

theorem fds_tick (f : FdTable → FdTable) (hp : Mine a.pids s.toPopulation p) :
    Tick a w s w (s.withPopulation (s.modifyFds p f)) :=
  .proc p _ rfl (fun _ => .inl) (fun _ => .inl) (.inl hp)

theorem send_tick (r : Population.Reply) : Tick a w s w (s.withPopulation (s.send r)) := .same rfl rfl

theorem modifyExeced_tick (node : Nat) (f : Population.Execed → Population.Execed) :
    Tick a w s w (s.withPopulation (s.modifyExeced node f)) := .same rfl rfl

section

variable (h : Footing none s.toLives)
variable {reason : String} {fds : FdTable}

include h

theorem disable_tick (he : s.disableShortcuttingBubbleUp p reason = some ps) : Tick a w s w (s.withPopulation ps) :=
  .settle (Population.disableShortcuttingBubbleUp_moves a.late h he).1 (Population.disableShortcuttingBubbleUp_settles he)

theorem tree_tick (ht : runOps ops s.tree = some t) : Tick a w s w (s.withPopulation (s.setTree t)) :=
  .settle (Move.tree (Population.runOps_weakens h.shape.tree ht)).single (.setTree t)

theorem maybeFinalize_tick (hlt : p < s.size) (he : s.maybeFinalize o p = some ps) :
    Tick a w s w (s.withPopulation ps) :=
  .settle (Population.maybeFinalize_moves h hlt he) (Population.maybeFinalize_settles he)

theorem setBeenWaitedFor_ticks (hlt : p < s.size) (he : s.setBeenWaitedFor o p = some ps) :
    Ticks a w s w (s.withPopulation ps) := by
  rw [Population.setBeenWaitedFor] at he
  split at he
  · cases he
  have hflag : Ticks a w s w
      (s.withPopulation (s.modifyLife (s.life p).forkPoint ({ · with beenWaitedFor := true }))) :=
    (Tick.flags _ _ (fun _ => rfl) (fun _ => ⟨id, id⟩) (.inr rfl)).single
  have hfs : (s.life p).forkPoint < s.size := lt_of_le_of_lt (h.shape.forkPoint_spec p hlt).1 hlt
  exact hflag.tail (maybeFinalize_tick (hflag.footing h) (h.shape.lastExecDescendant s.size _ hfs).1 he)

omit h in
theorem clearExecPending_tick (hp : Mine a.pids s.toPopulation p) :
    Tick a w s w (s.withPopulation (s.modifyLife p ({ · with execPending := false }))) :=
  .flags p _ (fun _ => rfl) (fun _ => ⟨nofun, id⟩) (.inl hp)

theorem maybeFinalizeWithMissedStaticExecChild_ticks (hlt : p < s.size)
    (hp : Mine a.pids s.toPopulation p) (he : s.maybeFinalizeWithMissedStaticExecChild o p = some ps) :
    Ticks a w s w (s.withPopulation ps) := by
  obtain ⟨ps1, h1, he⟩ := bind_eq_some_iff.mp he
  have hdisable : Ticks a w s w (s.withPopulation ps1) := (disable_tick h h1).single
  have hflag := hdisable.tail (clearExecPending_tick (hdisable.mine hlt hp))
  have hfds := hflag.tail (fds_tick FdTable.resetPipeRefs (hflag.mine hlt hp))
  exact hfds.tail (maybeFinalize_tick (hfds.footing h) (hfds.lt hlt) he)

theorem waitedFor_ticks (hlt : p < s.size)
    (hp : Mine a.pids s.toPopulation p) (he : s.waitedFor o p conn ack status reason = some (now, ps)) :
    Ticks a w s w (s.withPopulation ps) := by
  obtain ⟨ps1, ps2, h1, h2, he⟩ := Population.waitedFor_cases he
  have hknown : Ticks a w s w (s.withPopulation ps1) := by
    rcases h1 with ⟨e, rfl⟩ | ⟨node, t, hnode, ht, rfl⟩
    · exact (Tick.proc _ _ rfl (fun _ => .inl) (fun _ => .inl) (.inr rfl)).single
    have habove : ∀ e ∈ (s.life (s.life p).forkPoint).execPoint, Lib.Forest.AtOrAbove s.tree.up node e := by
      intro e he
      obtain ⟨n, hn, hne⟩ := (h.shape.forkPoint_spec p hlt).2.2 e he
      obtain rfl := Option.some.inj (hnode.symm.trans hn)
      exact hne
    obtain ⟨t1, ht1, hd⟩ := h.shape.tree.disabledTo habove reason
    obtain rfl := Option.some.inj (ht1.symm.trans ht)
    exact (Tick.settle (Move.tree (Population.disabled_of_disabledTo hd).weakens).single (.setTree _)).single
  have hwaited := hknown.trans (setBeenWaitedFor_ticks (hknown.footing h) (hknown.lt hlt) h2)
  rcases he with ⟨-, -, h3⟩ | ⟨-, -, -, rfl⟩ | ⟨-, -, rfl⟩
  · exact hwaited.trans (maybeFinalizeWithMissedStaticExecChild_ticks (hwaited.footing h) (hwaited.lt hlt)
      (hwaited.mine hlt hp) h3)
  · exact hwaited.tail (.proc _ _ rfl (fun _ => .inl) (fun _ => .inl) (.inr rfl))
  · exact hwaited

theorem finish_ticks (hlt : p < s.size) (hrun : (s.life p).state = .running)
    (hfree : ∀ k, s.conns k ≠ some (.proc p)) (hp : Mine a.pids s.toPopulation p) (he : s.finish o p = some ps) :
    Ticks a (some p) s none (s.withPopulation ps) := by
  have hended : Ticks a (some p) s none (s.withPopulation (s.ended p)) := by
    rw [Population.ended]
    split
    · exact (Tick.terminate p rfl hlt hrun hfree hp).single
    have hfds : Ticks a (some p) s (some p) (s.withPopulation (s.modifyFds p FdTable.resetPipeRefs)) :=
      (fds_tick _ hp).single
    exact hfds.tail (.terminate p rfl hlt hrun hfree (hfds.mine hlt hp))
  exact hended.tail (.settle (Population.finish_moves (hended.footing h) hlt he) (Population.finish_settles he))

/-! ## New processes -/

omit h in
theorem fresh {s : Lives} (h : Footing none s) (k : Nat) : s.conns k ≠ some (.proc s.size) := fun hk =>
  lt_irrefl _ (h.conns k _ hk).1

omit h in
theorem newForked_proc (hq : q < s.size) : (s.newForked p pid fds).proc q = s.proc q :=
  if_neg hq.ne

omit h in
theorem newForked_pid : ((s.newForked p pid fds).proc s.size).pid = pid := by
  simp [Population.newForked, Population.modifyProc]

omit h in
theorem newExeced_new {s s' : Population} (hlt : p < s.size) (he : s.newExeced p pid isQemu = some s') :
    s'.size = s.size + 1 ∧ s'.conns = s.conns ∧ (s'.life s.size).state = .running ∧ (s'.proc s.size).pid = pid := by
  obtain ⟨t, -, hlives, hproc⟩ := newExeced_eq he
  rw [hlives]
  refine ⟨rfl, rfl, congrArg Life.state (Lives.addExeced_new s.toLives p s.tree.size), ?_⟩
  rw [hproc, if_neg hlt.ne', if_pos rfl]

omit h in
theorem getExecedProcess_ticks (hlt : p < s.size) (hp : Mine a.pids s.toPopulation p)
    (he : s.getExecedProcess p pid isQemu = some ps) :
    Ticks a none s (some s.size) (s.withPopulation ps) ∧ ps.size = s.size + 1 ∧ ps.conns = s.conns ∧
      (ps.life s.size).state = .running ∧ (ps.proc s.size).pid = pid := by
  rw [Population.getExecedProcess] at he
  split at he
  · next hterm =>
    have hflag : Ticks a none s none (s.withPopulation (s.modifyLife p ({ · with execPending := false }))) :=
      (clearExecPending_tick hp).single
    have hstate : ((s.modifyLife p ({ · with execPending := false })).life p).state = .terminated :=
      (Population.modifyLife_proj Life.state rfl p).trans hterm
    refine ⟨hflag.tail (.execed p pid isQemu rfl hlt (.inr ?_) (hflag.mine hlt hp) he),
      newExeced_new (s := s.modifyLife p ({ · with execPending := false })) hlt he⟩
    show ((s.modifyLife p ({ · with execPending := false })).life p).state ≠ _
    rw [hstate]
    nofun
  · split at he
    · next hqemu =>
      simp only [Bool.and_eq_true, decide_eq_true_eq] at hqemu
      exact ⟨(Tick.execed p pid isQemu rfl hlt (.inr hqemu.2) hp he).single, newExeced_new hlt he⟩
    · cases he

theorem execChild_ticks (hlt : p < s.size) (hp : Mine a.pids s.toPopulation p)
    (hconn : conn ∈ a.conns) (hnull : s.conns conn = some .null) (he : s.getExecedProcess p pid isQemu = some ps) :
    Ticks a none s none (s.withPopulation (ps.setConn conn (some (.proc s.size)))) ∧ s.size < ps.size ∧
      (ps.proc s.size).pid = pid := by
  obtain ⟨hticks, hsize, hconns, hrun, hpid⟩ := getExecedProcess_ticks hlt hp he
  refine ⟨hticks.tail (.attach conn s.size rfl hconn ?_ ?_ hrun fun k => ?_), by omega, hpid⟩
  · show ps.conns conn = _
    rw [hconns]
    exact hnull
  · show s.size < ps.size
    omega
  show ps.conns k ≠ _
  rw [hconns]
  exact fresh h k

theorem acceptExecChild_ticks (hp : Due a s p) (he : s.acceptExecChild p conn start = some s') : Ticks a w s w s' := by
  obtain ⟨t, ht, he⟩ := bind_eq_some_iff.mp he
  obtain ⟨s1, h1, rfl⟩ := map_eq_some_iff.mp he
  have hinsert : Ticks a w s w (s.insert p) := (Tick.insert p hp.lt hp.pid).single
  have htree := hinsert.tail (tree_tick (hinsert.footing h) ht)
  split at h1
  · cases h1
    exact (htree.tail (fds_tick _ (.inl hp.pid))).tail (send_tick _)
  obtain ⟨node, -, rfl⟩ := map_eq_some_iff.mp h1
  have hshortcut := htree.tail (modifyExeced_tick node ({ · with wasShortcut := true }))
  exact (hshortcut.tail (.proc _ _ rfl (fun _ => .inl) (fun _ => .inl) (.inr rfl))).tail (send_tick _)

omit h in
/-- Accepting a child sets its fds and, if it was shortcut, the exit status at its fork point. -/
theorem acceptExecChild_spec (he : s.acceptExecChild c conn start = some s') : s'.size = s.size ∧ s'.life = s.life ∧
    s'.conns = s.conns ∧ (∀ q, q ≠ c → idle (s'.proc q) = idle (s.proc q)) ∧
    idle (s'.proc c) = idle { s.proc c with fds := start.fds (s.proc c).fds } ∧
    (∀ i, s'.pid2proc i = if i = (s.proc c).pid then some c else s.pid2proc i) ∧
    s'.sent = { conn, answers := 0, kind := .scprocResp } :: s.sent ∧ s'.pendingPopen = s.pendingPopen ∧
    runOps start.ops s.tree = some s'.tree := by
  obtain ⟨t, ht, he⟩ := bind_eq_some_iff.mp he
  obtain ⟨s1, h1, rfl⟩ := map_eq_some_iff.mp he
  split at h1
  · next hshort =>
    cases h1
    refine ⟨rfl, rfl, rfl, fun q hq => ?_, ?_, fun _ => rfl, rfl, rfl, ht⟩
    · exact congrArg idle (if_neg hq)
    refine (congrArg idle (if_pos rfl)).trans ?_
    simp [Start.fds, hshort]
    rfl
  · next status hshort =>
    obtain ⟨node, -, rfl⟩ := map_eq_some_iff.mp h1
    have hproc : ∀ q, idle (if q = (s.life c).forkPoint then { s.proc q with exitStatus := status } else s.proc q) =
        idle (s.proc q) := fun q => by
      split <;> rfl
    refine ⟨rfl, rfl, rfl, fun q _ => hproc q, (hproc c).trans ?_, fun _ => rfl, rfl, rfl, ht⟩
    simp [Start.fds, hshort]

omit h in
theorem acceptExecChild_setSock (s : ProcessTree) (k : Nat) (x : Option ExecChildSock) :
    (s.setSock k x).acceptExecChild p conn start = (s.acceptExecChild p conn start).map fun s' => s'.setSock k x := by
  have htree : (s.setSock k x).tree = s.tree := rfl
  have hlife : (s.setSock k x).life = s.life := rfl
  unfold acceptExecChild
  rw [htree]
  cases runOps start.ops s.tree with
  | none => rfl
  | some t =>
    cases start.shortcut with
    | none => rfl
    | some status =>
      simp only [withPopulation, Population.setTree, hlife]
      cases (s.life p).execPoint <;> rfl

theorem acceptForkChild_ticks {parent parentConn parentAck : Nat} (hp : Due a s parent)
    (hlate : a.late ∨ (s.life parent).state ≠ .finalized) (hpid : pid ∈ a.pids)
    (hconn : conn ∈ a.conns) (he : s.acceptForkChild parent parentConn parentAck pid conn ack = some s') :
    Ticks a none s none s' := by
  rw [acceptForkChild] at he
  split at he
  · next hnull =>
    cases he
    have hnew : Ticks a none s (some s.size) (s.withPopulation (s.getForkedProcess parent pid)) :=
      (Tick.forked parent pid _ rfl hp.lt hlate (.inl hp.pid)).single
    have hinsert := hnew.tail (.insert s.size (Nat.lt_succ_self _) (by
      show ((s.getForkedProcess parent pid).proc s.size).pid ∈ _
      rw [Population.getForkedProcess, newForked_pid]
      exact hpid))
    have hattach := hinsert.tail (.attach conn s.size rfl hconn hnull (Nat.lt_succ_self _)
      (congrArg Life.state (Lives.addForked_new s.toLives parent)) (fresh h))
    exact (hattach.tail (send_tick _)).tail (send_tick _)
  · cases he

end

theorem setExpectedChild_tick (hp : Mine a.pids s.toPopulation p)
    (he : s.setExpectedChild p type wronly = some ps) :
    Tick a w s w (s.withPopulation ps) ∧ ps.toLives = s.toLives := by
  rw [Population.setExpectedChild] at he
  split at he
  · cases he
  · cases he
    exact ⟨.proc p _ rfl (fun _ => .inl) (fun _ => .inl) (.inl hp), rfl⟩

variable {argvMatches : Bool} {env : Option Population.ExecedProcessEnv}

theorem popExpectedChild_ticks (h : Footing none s.toLives) (hlt : p < s.size) (hp : Mine a.pids s.toPopulation p)
    (he : s.popExpectedChild p argvMatches = some (env, ps)) : Ticks a w s w (s.withPopulation ps) := by
  rw [Population.popExpectedChild] at he
  split at he
  · obtain ⟨ps1, h1, ⟨⟩⟩ := map_eq_some_iff.mp he
    exact (disable_tick h h1).single
  split at he
  · cases he
    exact (Tick.proc p _ rfl (fun _ => .inl) (fun _ => .inl) (.inl hp)).single
  obtain ⟨ps1, h1, ⟨⟩⟩ := map_eq_some_iff.mp he
  have hdisable : Ticks a w s w (s.withPopulation ps1) := (disable_tick h h1).single
  exact hdisable.tail (.proc p _ rfl (fun _ => .inl) (fun _ => .inl) (.inl (hdisable.mine hlt hp)))

/-- The child is not expected any more; shortcutting is disabled if it was not the one. -/
theorem popExpectedChild_spec {env : Option Population.ExecedProcessEnv}
    (he : ps.popExpectedChild p argvMatches = some (env, ps')) :
    (ps'.size = ps.size ∧ ps'.life = ps.life ∧ ps'.conns = ps.conns ∧ ps'.posixSpawnChildSock = ps.posixSpawnChildSock) ∧
    (∀ q, ps'.proc q = if q = p then { ps.proc p with expectedChild := none } else ps.proc q) ∧
    (argvMatches = true ∧ ps'.tree = ps.tree ∨ (argvMatches = true → (ps.proc p).expectedChild = none) ∧
        ∃ node reason, (ps.life p).execPoint = some node ∧
          ps.tree.disableShortcuttingBubbleUp node reason = some ps'.tree) := by
  have hdisable : ∀ {reason ps1}, ps.disableShortcuttingBubbleUp p reason = some ps1 →
      (ps1.size = ps.size ∧ ps1.life = ps.life ∧ ps1.conns = ps.conns ∧ ps1.posixSpawnChildSock = ps.posixSpawnChildSock) ∧
        ps1.proc = ps.proc ∧ ∃ node reason, (ps.life p).execPoint = some node ∧
          ps.tree.disableShortcuttingBubbleUp node reason = some ps1.tree := by
    intro reason ps1 h1
    obtain ⟨node, hnode, h1⟩ := bind_eq_some_iff.mp h1
    obtain ⟨t, ht, rfl⟩ := map_eq_some_iff.mp h1
    exact ⟨⟨rfl, rfl, rfl, rfl⟩, rfl, node, reason, hnode, ht⟩
  have hset := fun f : Nat → Population.Process => ite_at f ({ · with expectedChild := none }) p
  rw [Population.popExpectedChild] at he
  split at he
  · next hnone =>
    obtain ⟨ps1, h1, ⟨⟩⟩ := map_eq_some_iff.mp he
    obtain ⟨hlives, hproc, hwhy⟩ := hdisable h1
    refine ⟨hlives, fun q => ?_, .inr ⟨fun _ => hnone, hwhy⟩⟩
    rw [hproc]
    split
    · next h =>
      rw [h]
      rw [← hnone]
    · rfl
  · split at he
    · next hmatch =>
      cases he
      exact ⟨⟨rfl, rfl, rfl, rfl⟩, hset ps.proc, .inl ⟨hmatch, rfl⟩⟩
    next hmatch =>
    obtain ⟨ps1, h1, ⟨⟩⟩ := map_eq_some_iff.mp he
    obtain ⟨hlives, hproc, hwhy⟩ := hdisable h1
    refine ⟨hlives, fun q => ?_, .inr ⟨fun hm => absurd hm hmatch, hwhy⟩⟩
    rw [← hproc]
    exact hset ps1.proc q

theorem connectPopen_toLives (s : Population) (unixParent child fd : Nat) (pending : PendingPopen) (x : PopenPipe) :
    (connectPopen s unixParent child fd pending x).toLives = s.toLives := by
  rw [connectPopen]
  split <;> rfl

theorem connectPopen_ticks (fd : Nat) (pending : PendingPopen) (x : PopenPipe) (hp : Due a s p) (hc : Due a s c) :
    Ticks a w s w (s.withPopulation (connectPopen s.toPopulation p c fd pending x)) := by
  have hboth : ∀ {q r : Nat} (f g : FdTable → FdTable), Due a s q → Due a s r →
      Ticks a w s w (s.withPopulation ((s.modifyFds q f).modifyFds r g)) := by
    intro q r f g hq hr
    have hfirst : Ticks a w s w (s.withPopulation (s.modifyFds q f)) := (fds_tick f (.inl hq.pid)).single
    exact hfirst.tail (fds_tick g (.inl (hfirst.due hr).pid))
  rw [connectPopen]
  split
  · exact hboth _ _ hc hp
  · exact hboth _ _ hp hc

theorem acceptPopenChild_ticks (h : Footing none s.toLives) (hp : Due a s p)
    (hc : Due a s c) (he : s.acceptPopenChild p pending c childConn conn ack fd start = some s') : Ticks a w s w s' := by
  obtain ⟨s1, h1, rfl⟩ := map_eq_some_iff.mp he
  have hchild : Ticks a w s w (s.withPopulation
      (s.modifyProc p fun q => { q with fd2popenChild := (fd, c) :: q.fd2popenChild })) := by
    refine (Tick.proc p _ rfl (fun _ => .inl) (fun x hx => ?_) (.inl (.inl hp.pid))).single
    rcases List.mem_cons.mp hx with rfl | hx
    · exact .inr hc.lt
    · exact .inl hx
  have hconnect := hchild.trans (connectPopen_ticks fd pending start.popenPipe (hchild.due hp) (hchild.due hc))
  have hsent := hconnect.tail (send_tick { conn, answers := ack, kind := .popenFd })
  have haccept := hsent.trans (acceptExecChild_ticks (hsent.footing h) (hsent.due hc) h1)
  have hp1 := (haccept.due hp).pid
  have hdrop := haccept.tail (.pendingPopen p none hp1 nofun nofun)
  exact hdrop.tail (.flags p _ (fun _ => rfl) (fun _ => ⟨id, nofun⟩) (.inl (.inl hp1)))

variable (pid) in
theorem addLaunchedFork_ticks (env : Option Population.ExecedProcessEnv) (h : Footing none s.toLives) (hp : Due a s p)
    (hlate : a.late ∨ (s.life p).state ≠ .finalized) (hpid : pid ∈ a.pids) :
    Ticks a none s none (s.addLaunchedFork p pid env) ∧ (s.addLaunchedFork p pid env).size = s.size + 1 ∧
      (s.addLaunchedFork p pid env).conns = s.conns ∧ ((s.addLaunchedFork p pid env).proc s.size).pid = pid := by
  have hnew : Ticks a none s (some s.size) (s.withPopulation (s.newForked p pid (launchFds env))) :=
    (Tick.forked p pid _ rfl hp.lt hlate (.inl hp.pid)).single
  have hpid1 : ((s.newForked p pid (launchFds env)).proc s.size).pid ∈ a.pids := by
    rw [newForked_pid]
    exact hpid
  have hover := hnew.tail (.terminate s.size rfl (Nat.lt_succ_self _)
    (congrArg Life.state (Lives.addForked_new s.toLives p)) (fresh h) (.inl hpid1))
  have hinsert := hover.tail (.insert s.size (Nat.lt_succ_self _) hpid1)
  unfold addLaunchedFork
  dsimp only
  split
  · exact ⟨(hinsert.tail (send_tick _)).tail (.parentAck _ none (hnew.due hp).pid nofun), rfl, rfl, newForked_pid⟩
  · exact ⟨hinsert, rfl, rfl, newForked_pid⟩

theorem acceptLaunchedChild_ticks (h : Footing none s.toLives) (hp : Due a s p) (hc : Due a s c)
    (hown : conn ∈ a.own)
    (he : s.acceptLaunchedChild p c conn type start = some s') : Ticks a w s w s' := by
  unfold acceptLaunchedChild at he
  split at he
  · have hsystem : Ticks a w s w (s.withPopulation (s.modifyProc p ({ · with systemChild := some c }))) := by
      refine (Tick.proc p _ rfl (fun x hx => .inr ?_) (fun _ => .inl) (.inl (.inl hp.pid))).single
      cases hx
      exact hc.lt
    exact hsystem.trans (acceptExecChild_ticks (hsystem.footing h) (hsystem.due hc) he)
  · obtain ⟨pending, hpending, he⟩ := bind_eq_some_iff.mp he
    split at he
    · cases he
    have hset : Ticks a w s w (s.setPendingPopen p (some { pending with child := some (c, conn) })) := by
      refine (Tick.pendingPopen p _ hp.pid ?_ ?_).single
      · rintro y x ⟨⟩ ⟨⟩
        exact .inr ⟨hown, hc.lt⟩
      · rintro y x ⟨⟩ hx
        exact .inl ⟨pending, hpending, hx⟩
    split at he
    · cases he
      exact hset
    · exact hset.trans (acceptPopenChild_ticks (hset.footing h) (hset.due hp) (hset.due hc) he)
  · exact acceptExecChild_ticks h hc he

theorem launchedChild_ticks (h : Footing none s.toLives) (hp : Due a s p)
    (hlate : a.late ∨ (s.life p).state ≠ .finalized) (hpid : pid ∈ a.pids)
    (hconn : conn ∈ a.conns) (hnull : s.conns conn = some .null) (hown : conn ∈ a.own)
    (he : s.launchedChild p conn pid isQemu env start = some s') : Ticks a none s none s' := by
  obtain ⟨ps, hps, he⟩ := bind_eq_some_iff.mp he
  obtain ⟨hfork, hsize, hconns, hforkPid⟩ := addLaunchedFork_ticks pid env h hp hlate hpid
  obtain ⟨hexec, hsize', hexecPid⟩ := execChild_ticks (hfork.footing h) (show s.size < _ by omega)
    (.inl (by rw [hforkPid]; exact hpid)) hconn (by rw [hconns]; exact hnull) hps
  have hnew := hfork.trans hexec
  refine hnew.trans (acceptLaunchedChild_ticks (hnew.footing h) (hnew.due hp) ⟨hsize', ?_⟩ hown he)
  show (ps.proc (s.addLaunchedFork p pid env).size).pid ∈ a.pids
  rw [hexecPid]
  exact hpid

/-- The process that a new one is a child of, where it was looked up by its pid. -/
def Event.lookedUp (s : ProcessTree) : Event → Option Nat
  | .scprocQuery _ pid ppid _ _ _ => if (s.pid2proc pid).isNone then s.pid2proc ppid else none
  | .forkChild _ _ ppid _ => s.pid2proc ppid
  | _ => none

def Event.Prompt (s : ProcessTree) (e : Event) : Prop := ∀ p ∈ e.lookedUp s, (s.life p).state ≠ .finalized

section

variable (h : Footing none s.toLives)
include h

theorem newExecedProcess_ticks (hk : Known s)
    (hlate : a.late ∨ (Event.scprocQuery conn pid ppid argvMatches isQemu start).Prompt s) (hpid : pid ∈ a.pids)
    (hppid : ppid ∈ a.pids) (hconn : conn ∈ a.conns) (hnull : s.conns conn = some .null) (hown : conn ∈ a.own)
    (he : s.newExecedProcess o conn pid ppid argvMatches isQemu start = some s') : Ticks a none s none s' := by
  have hexec : ∀ {p}, p < s.size → Mine a.pids s.toPopulation p → ((s.getExecedProcess p pid isQemu).bind fun ps =>
      (s.withPopulation (ps.setConn conn (some (.proc s.size)))).acceptExecChild s.size conn start) = some s' →
      Ticks a none s none s' := by
    intro p hlt hp he
    obtain ⟨ps, hps, he⟩ := bind_eq_some_iff.mp he
    obtain ⟨hnew, hsize, hnewPid⟩ := execChild_ticks h hlt hp hconn hnull hps
    refine hnew.trans (acceptExecChild_ticks (hnew.footing h) ⟨hsize, ?_⟩ he)
    show (ps.proc s.size).pid ∈ a.pids
    rw [hnewPid]
    exact hpid
  rw [newExecedProcess] at he
  split at he
  · next parent hparent =>
    obtain ⟨hlt, hpp⟩ := hk.pids pid parent hparent
    exact hexec hlt (.inl (by rw [hpp]; exact hpid)) (alive_bind he).2
  next hnone =>
  split at he
  · exact hexec h.shape.pos (.inr (.inl rfl)) he
  split at he
  · cases he
    exact (send_tick _).single
  next unixParent hunix =>
  obtain ⟨⟨env, ps⟩, hpop, he⟩ := bind_eq_some_iff.mp (alive_bind he).2
  obtain ⟨hlt, hpp⟩ := hk.pids ppid unixParent hunix
  have hp : Due a s unixParent := ⟨hlt, by rw [hpp]; exact hppid⟩
  have hpopped : Ticks a none s none (s.withPopulation ps) := popExpectedChild_ticks h hlt (.inl hp.pid) hpop
  obtain ⟨⟨-, hlife, hconns, -⟩, -, -⟩ := popExpectedChild_spec hpop
  have hnull1 : (s.withPopulation ps).conns conn = some .null := by
    show ps.conns conn = _
    rw [hconns]
    exact hnull
  dsimp only at he
  split at he
  · exact hpopped.tail (.queue conn pid ppid isQemu hconn hnull1 he)
  refine hpopped.trans (launchedChild_ticks (hpopped.footing h) (hpopped.due hp) (hlate.imp_right fun hprompt => ?_)
    hpid hconn hnull1 hown he)
  show (ps.life unixParent).state ≠ _
  rw [hlife]
  exact hprompt unixParent (by simp [Event.lookedUp, hnone, hunix])

theorem newForkedProcess_ticks (hk : Known s)
    (hlate : a.late ∨ (Event.forkChild conn pid ppid ack).Prompt s) (hpid : pid ∈ a.pids) (hppid : ppid ∈ a.pids)
    (hconn : conn ∈ a.conns) (hown : conn ∈ a.own) (he : s.newForkedProcess conn pid ppid ack = some s') :
    Ticks a none s none s' := by
  rw [newForkedProcess] at he
  split at he
  · split at he
    · cases he
    · cases he
      exact (Tick.forkChildSock ppid _ hppid (by rintro x ⟨⟩; exact hown)).single
  · obtain ⟨parent, hparent, he⟩ := bind_eq_some_iff.mp he
    obtain ⟨s1, h1, rfl⟩ := map_eq_some_iff.mp (alive_bind he).2
    obtain ⟨hlt, hpp⟩ := hk.pids ppid parent hparent
    have haccept := acceptForkChild_ticks h ⟨hlt, by rw [hpp]; exact hppid⟩
      (hlate.imp_right fun hprompt => hprompt parent hparent) hpid hconn h1
    exact haccept.tail (.parentAck ppid none hppid nofun)

/-! ## Messages of a process -/

theorem forkParent_ticks (hp : Due a s p) (hrun : (s.life p).state = .running) (hown : conn ∈ a.own)
    (hc : ∀ x, s.forkChildSock (s.proc p).pid = some x → x.childPid ∈ a.pids ∧ x.sock ∈ a.conns)
    (he : s.forkParent p conn ack = some s') : Ticks a none s none s' := by
  unfold forkParent at he
  dsimp only at he
  split at he
  · split at he
    · cases he
    · cases he
      exact (Tick.parentAck _ _ hp.pid (by rintro x ⟨⟩; exact hown)).single
  · next x hx =>
    obtain ⟨s1, h1, rfl⟩ := map_eq_some_iff.mp he
    have haccept := acceptForkChild_ticks h hp (.inr (by rw [hrun]; nofun)) (hc x hx).1 (hc x hx).2 h1
    exact haccept.tail (.forkChildSock _ none hp.pid nofun)

omit h in
theorem popen_ticks (hp : Due a s p) (hrun : (s.life p).state = .running)
    (he : s.popen p wronly cloexec = some s') : Ticks a w s w s' := by
  rw [popen] at he
  split at he
  · cases he
  obtain ⟨ps, hps, rfl⟩ := map_eq_some_iff.mp he
  have hset : Ticks a w s w (s.setPendingPopen p (some { wronly, cloexec })) :=
    (Tick.pendingPopen p _ hp.pid (by rintro y x ⟨⟩ ⟨⟩) (by rintro y x ⟨⟩ ⟨⟩)).single
  obtain ⟨hexpect, hlives⟩ := setExpectedChild_tick (s := s.setPendingPopen p (some { wronly, cloexec })) (.inl hp.pid) hps
  have hexpected := hset.tail hexpect
  refine hexpected.tail (.flags p _ (fun _ => rfl) (fun hfin => ?_) (.inl (.inl (hexpected.due hp).pid)))
  have hfin : (ps.life p).state = .finalized := hfin
  have hstate : (s.setPendingPopen p (some { wronly, cloexec })).toLives = s.toLives := rfl
  rw [hlives, hstate, hrun] at hfin
  cases hfin

theorem popenParent_ticks (hk : Known s) (hp : Due a s p) (hown : conn ∈ a.own)
    (hc : ∀ x c, s.pendingPopen p = some x → x.child = some c → (s.proc c.1).pid ∈ a.pids)
    (he : s.popenParent p conn ack fd start = some s') : Ticks a w s w s' := by
  obtain ⟨pending, hpending, he⟩ := bind_eq_some_iff.mp he
  split at he
  · cases he
  have hset : Ticks a w s w (s.setPendingPopen p (some { pending with parent := some (conn, ack, fd) })) := by
    refine (Tick.pendingPopen p _ hp.pid ?_ ?_).single
    · rintro y x ⟨⟩ hx
      exact .inl ⟨pending, hpending, hx⟩
    · rintro y x ⟨⟩ ⟨⟩
      exact .inr hown
  split at he
  · cases he
    exact hset
  next child childConn hchild =>
  have hdue : Due a s child := ⟨hk.pendingPopen p pending (child, childConn) hpending hchild, hc pending _ hpending hchild⟩
  exact hset.trans (acceptPopenChild_ticks (hset.footing h) (hset.due hp) (hset.due hdue) (alive_bind he).2)

variable {actions : List SpawnAction}

def spawnFds (s : ProcessTree) (p : Nat) (actions : List SpawnAction) : FdTable :=
  actions.foldl SpawnAction.run ((s.proc p).fds.passOn false)

omit h in
theorem addSpawnedFork_spec (hp : p < s.size) (he : s.addSpawnedFork p pid actions ops = some s') :
    s'.size = s.size + 1 ∧ runOps ops s.tree = some s'.tree ∧
    (∀ q, s'.life q = if q = s.size then { parent := some p, forkPoint := s.size, execPoint := (s.life p).execPoint }
      else if q = p then { s.life p with forkChildren := (s.life p).forkChildren ++ [s.size] } else s.life q) ∧
    s'.proc s.size = { pid, fds := spawnFds s p actions } ∧ s'.proc p = { s.proc p with posixSpawnPending := false } ∧
    (∀ i, s'.pid2proc i = if i = pid then some s.size else s.pid2proc i) ∧
    s'.conns = s.conns ∧ s'.posixSpawnChildSock = s.posixSpawnChildSock := by
  obtain ⟨t, hops, rfl⟩ := map_eq_some_iff.mp he
  have hne : s.size ≠ p := hp.ne'
  refine ⟨rfl, hops, fun q => ?_, ?_, ?_, fun i => ?_, rfl, rfl⟩
  · exact congrArg (ite _ _) (ite_at s.life (fun l => { l with forkChildren := l.forkChildren ++ [s.size] }) p q)
  · simp [withPopulation, insert, getForkedProcess, newForked, modifyProc, modifyFds, setTree, spawnFds]
  · simp [withPopulation, insert, getForkedProcess, newForked, modifyProc, modifyFds, setTree, hne.symm]
  · simp [withPopulation, insert, getForkedProcess, newForked, modifyProc]

theorem addSpawnedFork_ticks (hp : Due a s p) (hrun : (s.life p).state = .running) (hpid : pid ∈ a.pids)
    (he : s.addSpawnedFork p pid actions ops = some s') : Ticks a none s (some s.size) s' := by
  obtain ⟨t, ht, rfl⟩ := map_eq_some_iff.mp he
  have hnew : Ticks a none s (some s.size) (s.withPopulation (s.getForkedProcess p pid)) :=
    (Tick.forked p pid _ rfl hp.lt (.inr (by rw [hrun]; nofun)) (.inl hp.pid)).single
  have hpid1 : ((s.getForkedProcess p pid).proc s.size).pid = pid := newForked_pid
  have hinsert := hnew.tail (.insert s.size (Nat.lt_succ_self _) (by
    show ((s.getForkedProcess p pid).proc s.size).pid ∈ _
    rw [hpid1]
    exact hpid))
  have htree := hinsert.tail (tree_tick (hinsert.footing h) ht)
  have hrest := htree.tail (fds_tick (actions.foldl SpawnAction.run) (.inl (by
    show ((s.getForkedProcess p pid).proc s.size).pid ∈ a.pids
    rw [hpid1]
    exact hpid)))
  exact hrest.tail (.proc p ({ · with posixSpawnPending := false }) rfl (fun _ => .inl) (fun _ => .inl)
    (.inl (.inl (hrest.due hp).pid)))

theorem spawnedProcess_ticks (hp : Due a s p) (hf : Due a s f) (hrun : (s.life f).state = .running)
    (hfree : ∀ k, s.conns k ≠ some (.proc f))
    (hx : ∀ x, s.posixSpawnChildSock (s.proc p).pid = some x → x.pid ∈ a.pids ∧ x.sock ∈ a.conns)
    (he : s.spawnedProcess p f argvMatches start = some s') :
    Ticks a w s w s' ∧ (s'.life f).state = .running ∧ ∀ k, s'.conns k ≠ some (.proc f) := by
  rw [spawnedProcess] at he
  split at he
  · next x hsock =>
    obtain ⟨s1, h1, rfl⟩ := map_eq_some_iff.mp he
    obtain ⟨ps, hadopt, h1⟩ := bind_eq_some_iff.mp h1
    obtain ⟨n, t, -, -, hlives, hproc⟩ := adopt_eq hadopt
    have hnew : Ticks a w s w ((s.withPopulation (ps.setConn x.sock (some (.proc s.size)))).setSock (s.proc p).pid none) :=
      (Tick.adopt f _ x hf.lt (.inr (by rw [hrun]; nofun)) (.inl hf.pid) hsock (hx x hsock).2 (fresh h) hadopt).single
    have hsize : s.size < ps.size := by
      rw [hlives]
      exact Nat.lt_succ_self _
    have hset : ((s.withPopulation (ps.setConn x.sock (some (.proc s.size)))).setSock (s.proc p).pid none).acceptExecChild
        s.size x.sock start = some (s1.setSock (s.proc p).pid none) := by
      rw [acceptExecChild_setSock, h1]
      rfl
    have haccept := hnew.trans (acceptExecChild_ticks (hnew.footing h) ⟨hsize, by
      show (ps.proc s.size).pid ∈ a.pids
      rw [hproc, if_pos rfl]
      exact (hx x hsock).1⟩ hset)
    obtain ⟨-, hlife1, hconns1, -⟩ := acceptExecChild_spec h1
    refine ⟨haccept, ?_, fun k => ?_⟩
    · show (s1.life f).state = _
      rw [hlife1]
      show (ps.life f).state = _
      rw [hlives]
      rw [Lives.addExeced_life s.toLives f x.node f hf.lt, if_pos rfl]
      exact hrun
    · show s1.conns k ≠ _
      rw [hconns1]
      show (if k = x.sock then _ else ps.conns k) ≠ _
      split
      · rintro ⟨⟩
        exact hf.lt.false
      · rw [hlives]
        exact hfree k
  · obtain ⟨⟨env, ps⟩, hpop, rfl⟩ := map_eq_some_iff.mp he
    obtain ⟨⟨-, hlife, hconns, -⟩, -, -⟩ := popExpectedChild_spec hpop
    have hpopped : Ticks a w s w (s.withPopulation ps) := popExpectedChild_ticks h hp.lt (.inl hp.pid) hpop
    refine ⟨hpopped.tail (.flags f _ (fun _ => rfl) (fun hfin => ?_) (.inl (.inl (hpopped.due hf).pid))), ?_, fun k => ?_⟩
    · have hfin : (ps.life f).state = .finalized := hfin
      rw [hlife, hrun] at hfin
      cases hfin
    · refine (Population.modifyLife_proj Life.state rfl f).trans ?_
      rw [hlife, hrun]
    show ps.conns k ≠ _
    rw [hconns]
    exact hfree k

theorem posixSpawnParent_ticks (hp : Due a s p) (hrun : (s.life p).state = .running)
    (hpid : pid ∈ a.pids) (hx : ∀ x, s.posixSpawnChildSock (s.proc p).pid = some x → x.pid ∈ a.pids ∧ x.sock ∈ a.conns)
    (he : s.posixSpawnParent p pid actions ops argvMatches start = some s') : Ticks a none s none s' := by
  obtain ⟨s1, h1, he⟩ := bind_eq_some_iff.mp he
  obtain ⟨s2, h2, rfl⟩ := map_eq_some_iff.mp he
  have hfork := addSpawnedFork_ticks h hp hrun hpid h1
  obtain ⟨hsize, -, hlife, hproc, -, -, hconns, hsock⟩ := addSpawnedFork_spec hp.lt h1
  have hf : Due a s1 s.size := ⟨by omega, by rw [hproc]; exact hpid⟩
  obtain ⟨hspawned, hrun2, hfree⟩ := spawnedProcess_ticks (hfork.footing h) (hfork.due hp) hf
    (by rw [hlife, if_pos rfl]) (fun k => by rw [hconns]; exact fresh h k) (fun x hs => hx x (by
      rw [hsock, hfork.touches.spares.pid p hp.lt] at hs
      exact hs)) h2
  have hall := hfork.trans hspawned
  have hf2 := hspawned.due hf
  exact hall.tail (.terminate s.size rfl hf2.lt hrun2 hfree (.inl hf2.pid))

omit h in
theorem updateRusage_tick (p timeU : Nat) : Tick a w s w (s.withPopulation (s.updateRusage p timeU)) := by
  rw [Population.updateRusage]
  split <;> exact .same rfl rfl

omit h in
theorem flags_tick (hp : (s.proc p).pid ∈ a.pids) (hrun : (s.life p).state = .running)
    (hf : ∀ l : Life, f l = { l with
      execPending := (f l).execPending, hasPendingPopen := (f l).hasPendingPopen, beenWaitedFor := (f l).beenWaitedFor }) :
    Tick a w s w (s.withPopulation (s.modifyLife p f)) := by
  refine .flags p f hf (fun hfin => ?_) (.inl (.inl hp))
  rw [hrun] at hfin
  cases hfin

theorem Message.process_ticks {m : Message} (hk : Known s) (hp : Due a s p)
    (hrun : (s.life p).state = .running) (hown : conn ∈ a.own)
    (hks : ∀ k ∈ m.pids s p, k ∈ a.pids) (hjs : ∀ j ∈ m.conns s p, j ∈ a.conns)
    (he : m.process o s p conn ack = some (now, s')) : Ticks a none s none s' := by
  have hmine : Mine a.pids s.toPopulation p := .inl hp.pid
  cases m with
  | forkParent =>
    obtain ⟨s1, h1, ⟨⟩⟩ := map_eq_some_iff.mp he
    refine forkParent_ticks h hp hrun hown (fun x hx => ⟨hks _ ?_, hjs _ ?_⟩) h1
    · simp [pids, hx]
    · simp [conns, hx]
  | execFailed =>
    cases he
    exact (clearExecPending_tick hmine).single
  | rusage timeU =>
    cases he
    exact (updateRusage_tick p timeU).single
  | system =>
    rw [process] at he
    split at he
    · cases he
    · obtain ⟨ps, hps, ⟨⟩⟩ := map_eq_some_iff.mp he
      exact (setExpectedChild_tick hmine hps).1.single
  | systemRet status =>
    obtain ⟨child, hchild, he⟩ := bind_eq_some_iff.mp he
    obtain ⟨⟨now', ps⟩, hw, ⟨⟩⟩ := map_eq_some_iff.mp (alive_bind he).2
    have hwait : Ticks a none s none (s.withPopulation ps) := waitedFor_ticks h (hk.system p child hchild)
      (.inl (hks _ (by simp [pids, hchild]))) hw
    exact hwait.tail (.proc p _ rfl nofun (fun _ => .inl) (.inl (hwait.mine hp.lt hmine)))
  | popen wronly cloexec =>
    obtain ⟨s1, h1, ⟨⟩⟩ := map_eq_some_iff.mp he
    exact popen_ticks hp hrun h1
  | popenParent fd start =>
    obtain ⟨s1, h1, ⟨⟩⟩ := map_eq_some_iff.mp he
    refine popenParent_ticks h hk hp hown (fun x c hx hc => hks _ ?_) h1
    simp [pids, hx, hc]
  | popenFailed argvMatches =>
    obtain ⟨⟨env, ps⟩, hps, ⟨⟩⟩ := map_eq_some_iff.mp he
    exact popExpectedChild_ticks h hp.lt hmine hps
  | pclose fd error status =>
    rw [process] at he
    split at he
    · cases he
      exact .refl
    obtain ⟨child, hchild, he⟩ := bind_eq_some_iff.mp he
    obtain ⟨⟨now', ps⟩, hw, ⟨⟩⟩ := map_eq_some_iff.mp (alive_bind he).2
    have hcs : child < s.size := by
      obtain ⟨l, l', hl, -⟩ := List.lookup_eq_some_iff.mp hchild
      exact hk.popened p (fd, child) (by rw [hl]; exact List.mem_append_right l List.mem_cons_self)
    have hdrop : Ticks a none s none (s.withPopulation
        (s.modifyProc p fun q => { q with fd2popenChild := q.fd2popenChild.filter (·.1 ≠ fd) })) :=
      (Tick.proc p _ rfl (fun _ => .inl) (fun x hx => .inl (List.mem_filter.mp hx).1) (.inl hmine)).single
    have hc : Mine a.pids s.toPopulation child := .inl (hks _ (by simp [pids, hchild]))
    exact hdrop.trans (waitedFor_ticks (hdrop.footing h) hcs (hdrop.mine hcs hc) hw)
  | posixSpawn =>
    obtain ⟨ps, hps, ⟨⟩⟩ := map_eq_some_iff.mp he
    have hexpect : Ticks a none s none (s.withPopulation ps) := (setExpectedChild_tick hmine hps).1.single
    have hpending := hexpect.tail (.proc p ({ · with posixSpawnPending := true }) rfl (fun _ => .inl) (fun _ => .inl)
      (.inl (hexpect.mine hp.lt hmine)))
    exact hpending.tail (send_tick _)
  | posixSpawnParent pid actions ops argvMatches start =>
    obtain ⟨s1, h1, ⟨⟩⟩ := map_eq_some_iff.mp he
    refine posixSpawnParent_ticks h hp hrun (hks _ (by simp [pids])) (fun x hx => ⟨hks _ ?_, hjs _ ?_⟩) h1
    · simp [pids, hx]
    · simp [conns, hx]
  | posixSpawnFailed argvMatches =>
    obtain ⟨⟨env, ps⟩, hps, ⟨⟩⟩ := map_eq_some_iff.mp he
    have hpop : Ticks a none s none (s.withPopulation ps) := popExpectedChild_ticks h hp.lt hmine hps
    exact hpop.tail (.proc p _ rfl (fun _ => .inl) (fun _ => .inl) (.inl (hpop.mine hp.lt hmine)))
  | wait pid status =>
    obtain ⟨child, hchild, he⟩ := bind_eq_some_iff.mp he
    obtain ⟨⟨now', ps⟩, hw, ⟨⟩⟩ := map_eq_some_iff.mp (alive_bind he).2
    obtain ⟨hcs, hc⟩ := hk.pids pid child hchild
    exact waitedFor_ticks h hcs (.inl (by rw [hc]; exact hks _ (by simp [pids]))) hw
  | exec timeU =>
    cases he
    have htime : Ticks a none s none (s.withPopulation (s.updateRusage p timeU)) := (updateRusage_tick p timeU).single
    have hstate : ((s.updateRusage p timeU).life p).state = .running := by
      rw [Population.updateRusage]
      split <;> exact hrun
    exact (htime.tail (flags_tick (htime.due hp).pid hstate fun _ => rfl)).tail (send_tick _)
  | other ops fds =>
    obtain ⟨t, ht, ⟨⟩⟩ := map_eq_some_iff.mp he
    exact (tree_tick h ht).single.tail (fds_tick fds hmine)

end

/-! ## Events -/

theorem gcLoop_ticks
    (hks : ∀ p ∈ queue, ∀ q, (ps.life p).parent = some q → (ps.proc q).pid ∈ a.pids)
    (he : gcLoop haveOrphan queue ps = some ps') : Ticks a w (s.withPopulation ps) w (s.withPopulation ps') := by
  induction queue generalizing ps with
  | nil =>
    cases he
    exact .refl
  | cons p queue ih =>
    replace he := (alive_bind he).2
    have htail : ∀ r ∈ queue, ∀ q, (ps.life r).parent = some q → (ps.proc q).pid ∈ a.pids := fun r hr =>
      hks r (List.mem_cons_of_mem p hr)
    split at he
    · exact ih htail he
    next q hq =>
    split at he
    · exact ih htail he
    have hdrop : Tick a w (s.withPopulation ps) w (s.withPopulation
        (deleteProcessSubtree (ps.modifyLife q ({ · with execChild := none })) p)) :=
      .drop p q (hks p List.mem_cons_self q hq)
    refine hdrop.single.trans (ih (fun r hr q' hq' => ?_) (alive_bind he).2)
    have hpar : ((ps.modifyLife q ({ · with execChild := none })).life r).parent = (ps.life r).parent :=
      Population.modifyLife_proj Life.parent rfl r
    have hmem := htail r hr q' (hpar.symm.trans hq')
    simp only [deleteProcessSubtree]
    split <;> exact hmem

theorem setExitStatusIfKnown_ticks (p : Nat) (status : Option Int) :
    Ticks a w s w (s.withPopulation (s.setExitStatusIfKnown p status)) := by
  cases status with
  | none => exact .refl
  | some status =>
    have hset : Tick a w s w (s.withPopulation (s.setExitStatus p status)) :=
      .proc _ _ rfl (fun _ => .inl) (fun _ => .inl) (.inr rfl)
    exact hset.single

/-- What an event is about, if children may come late. -/
def Event.scope (late : Prop) (s : ProcessTree) (e : Event) : Scope := ⟨late, e.closes, e.own, e.conns s, e.pids s⟩

section

variable (h : Footing none s.toLives)
variable {late : Prop} {e : Event}

include h

theorem message_ticks (hk : Known s)
    (he : s.message o conn ack m = some s') : Ticks ((Event.message conn ack m).scope late s) none s none s' := by
  rw [message] at he
  split at he
  · next p hconn =>
    obtain ⟨⟨now, s1⟩, h1, rfl⟩ := map_eq_some_iff.mp (alive_bind he).2
    obtain ⟨hlt, hrun⟩ := h.conns conn p hconn
    have hm : Ticks ((Event.message conn ack m).scope late s) none s none s1 := by
      refine Message.process_ticks h hk ⟨hlt, ?_⟩ hrun ?_ (fun k hk => ?_) (fun j hj => ?_) h1
      · simp [Event.scope, Event.pids, hconn]
      · simp [Event.scope, Event.own]
      · simp [Event.scope, Event.pids, hconn, hk]
      · simp [Event.scope, Event.conns, hconn, hj]
    dsimp only
    split
    · exact hm.tail (send_tick _)
    · exact hm
  · cases he

theorem hangUp_ticks (he : s.hangUp o conn = some s') : Ticks ((Event.hangUp conn).scope late s) none s none s' := by
  have hmem : conn ∈ ((Event.hangUp conn).scope late s).conns := by simp [Event.scope, Event.conns]
  have hcloses : conn ∈ ((Event.hangUp conn).scope late s).closes := by simp [Event.scope, Event.closes]
  rw [hangUp] at he
  split at he
  · next hnull =>
    cases he
    exact (Tick.conn conn none rfl hmem (.inl ⟨rfl, hcloses⟩) (by simp [hnull]) (by simp [hnull])).single
  · next p hconn =>
    obtain ⟨ps, hps, rfl⟩ := map_eq_some_iff.mp (alive_bind he).2
    obtain ⟨hlt, hrun⟩ := h.conns conn p hconn
    have hclose : Ticks ((Event.hangUp conn).scope late s) none s (some p) (s.withPopulation (s.setConn conn none)) :=
      (Tick.conn conn none rfl hmem (.inl ⟨rfl, hcloses⟩) (by simp [hconn]) (by simp [hconn])).single
    refine hclose.trans (finish_ticks (hclose.footing h) hlt hrun (fun k hk => ?_) (.inl ?_) hps)
    · have hk : (if k = conn then none else s.conns k) = some (.proc p) := hk
      split at hk
      · cases hk
      · next hne => exact hne (h.connsInj k conn p hk hconn)
    · show (s.proc p).pid ∈ _
      simp [Event.scope, Event.pids, hconn]
  · cases he
  · cases he

theorem collect_ticks (hk : Known s)
    (he : s.collect o pid status = some s') : Ticks a none s none s' := by
  rw [collect] at he
  split at he
  · next p hpid =>
    replace he := (alive_bind he).2
    have hsaved : Ticks a none s none (s.withPopulation (s.setExitStatusIfKnown p status)) :=
      setExitStatusIfKnown_ticks p status
    split at he
    · obtain ⟨ps, hps, rfl⟩ := map_eq_some_iff.mp he
      exact hsaved.trans (setBeenWaitedFor_ticks (hsaved.footing h) (hsaved.lt (hk.pids pid p hpid).1) hps)
    split at he
    · cases he
    · cases he
      exact hsaved
  · split at he
    · cases he
    · cases he
      exact .refl

theorem step_ticks (hk : Known s) (hlate : late ∨ e.Prompt s)
    (he : s.step o e = some s') : Ticks (e.scope late s) none s none s' := by
  cases e with
  | connect conn =>
    rw [step] at he
    split at he
    · cases he
    next hfree =>
    cases he
    rw [Option.isSome_iff_ne_none, not_not] at hfree
    exact (Tick.conn conn _ rfl (by simp [Event.scope, Event.conns]) (.inr rfl) (by simp [hfree]) (by simp [hfree])).single
  | scprocQuery conn pid ppid argvMatches isQemu start =>
    rw [step] at he
    split at he
    · next hnull =>
      exact newExecedProcess_ticks h hk hlate (by simp [Event.scope, Event.pids]) (by simp [Event.scope, Event.pids])
        (by simp [Event.scope, Event.conns]) hnull (by simp [Event.scope, Event.own]) he
    · cases he
  | forkChild conn pid ppid ack =>
    rw [step] at he
    split at he
    · exact newForkedProcess_ticks h hk hlate (by simp [Event.scope, Event.pids]) (by simp [Event.scope, Event.pids])
        (by simp [Event.scope, Event.conns]) (by simp [Event.scope, Event.own]) he
    · cases he
  | message conn ack m => exact message_ticks h hk he
  | hangUp conn => exact hangUp_ticks h he
  | sigchild pid status => exact collect_ticks h hk he
  | gcProcesses =>
    obtain ⟨ps, hps, rfl⟩ := map_eq_some_iff.mp he
    obtain ⟨ps1, h1, rfl⟩ := map_eq_some_iff.mp hps
    have hgc : Ticks (Event.gcProcesses.scope late s) none s none (s.withPopulation ps1) := by
      split at h1
      · cases h1
        exact .refl
      · refine gcLoop_ticks (fun p hp q hq => ?_) h1
        exact List.mem_filterMap.mpr ⟨p, hp, by rw [hq]; rfl⟩
    have hempty : Tick (Event.gcProcesses.scope late s) none (s.withPopulation ps1) none
        (s.withPopulation { ps1 with procGcQueue := [] }) := .same rfl rfl
    exact hgc.tail hempty

theorem step_touches (hk : Known s) (he : s.step o e = some s') :
    Touches e.closes e.own (e.conns s) (e.pids s) s s' := by
  have hticks : Ticks (e.scope True s) none s none s' := step_ticks h hk (.inl trivial) he
  exact hticks.touches

end

end ProcessTree
end Firebuild
