/-
  Firebuild.Lifecycle — what the supervisor keeps of each process to decide when to finalize
  it (`process.h`; `forked_process.h`: `can_ack_parent_wait`; `process.cc`:
  `last_exec_descendant`, `any_child_not_finalized`,
  `finalized_or_terminated_and_has_orphan_and_finalized_children`,
  `any_child_not_finalized_or_terminated_with_orphan` and the checks of `maybe_finalize`).

  Processes are numbered in the order of their creation, so a parent is smaller than its
  children; 0 is the root, which stands for the supervisor's own fork. `execPoint` is a node
  of the tree of exec()ed processes. The fields of a `ForkedProcess` are those of the fork
  point. A walk down the tree carries a count, and the number of processes is enough for it.

  The log is not kept by the program: it holds, newest first, each time a state is set and
  each time an entry is stored in the cache.
-/

import Firebuild.ExecTree
import Firebuild.Lib.Chronicle

namespace Firebuild

inductive ProcessState where
  | running
  | terminated
  | finalized
  deriving DecidableEq, Repr

structure Life where
  execed : Bool := false
  parent : Option Nat := none
  forkPoint : Nat := 0
  execPoint : Option Nat := none
  state : ProcessState := .running
  execChild : Option Nat := none
  forkChildren : List Nat := []
  execPending : Bool := false
  hasPendingPopen : Bool := false
  beenWaitedFor : Bool := false
  orphan : Bool := false
  hasOrphanDescendant : Bool := false
  deriving DecidableEq, Repr

inductive Milestone where
  | terminated (p : Nat)
  | finalized (p : Nat)
  | stored (p : Nat) (exitStatus : Int)
  deriving DecidableEq, Repr

def Milestone.isStoreOf (p : Nat) : Milestone → Bool
  | .stored q _ => decide (q = p)
  | _ => false

@[simp]
theorem Milestone.isStoreOf_stored (p q : Nat) (e : Int) : (Milestone.stored q e).isStoreOf p = decide (q = p) := rfl

@[simp]
theorem Milestone.isStoreOf_finalized (p q : Nat) : (Milestone.finalized q).isStoreOf p = false := rfl

/-- `ConnectionContext::proc` -/
inductive Connection where
  | null
  /-- A posix_spawn() child that waits for its parent's message and is not in the tree yet. -/
  | incomplete
  | proc (p : Nat)
  deriving DecidableEq, Repr

structure ExecChildSock where
  sock : Nat
  node : Nat
  pid : Nat
  deriving DecidableEq, Repr

structure Lives where
  size : Nat
  life : Nat → Life
  tree : ExecTree
  /-- Connections are numbered and the numbers not used again; null is a closed one. -/
  conns : Nat → Option Connection
  /-- By the pid of the parent. -/
  posixSpawnChildSock : Nat → Option ExecChildSock
  log : List Milestone

namespace Lives

def modify (s : Lives) (p : Nat) (f : Life → Life) : Lives :=
  { s with life := fun q => if q = p then f (s.life q) else s.life q }

def lastExecDescendant (s : Lives) : Nat → Nat → Nat
  | 0, p => p
  | n + 1, p =>
    match (s.life p).execChild with
    | none => p
    | some c => lastExecDescendant s n c

def forkParent (s : Lives) (p : Nat) : Option Nat := (s.life (s.life p).forkPoint).parent

def beenWaitedFor (s : Lives) (p : Nat) : Bool := (s.life (s.life p).forkPoint).beenWaitedFor

def pending (s : Lives) (p : Nat) : Bool := (s.life p).execPending || (s.life p).hasPendingPopen

def notFinalized (s : Lives) (p : Nat) : Bool := decide ((s.life p).state ≠ .finalized)

def anyChildNotFinalized (s : Lives) (p : Nat) : Bool :=
  s.pending p || (s.life p).execChild.any s.notFinalized || (s.life p).forkChildren.any s.notFinalized

def finalizedOrTerminatedAndHasOrphanAndFinalizedChildren (s : Lives) : Nat → Nat → Bool
  | 0, _ => false
  | n + 1, p =>
    match (s.life p).state with
    | .finalized => true
    | .running => false
    | .terminated =>
      (s.life (s.life p).forkPoint).hasOrphanDescendant
      && ((s.life p).forkChildren.all fun c =>
        (s.life c).orphan || finalizedOrTerminatedAndHasOrphanAndFinalizedChildren s n c)
      && (s.life p).execChild.all (finalizedOrTerminatedAndHasOrphanAndFinalizedChildren s n)

def anyChildNotFinalizedOrTerminatedWithOrphan (s : Lives) (p : Nat) : Bool :=
  let fine := s.finalizedOrTerminatedAndHasOrphanAndFinalizedChildren s.size
  s.pending p || !(s.life p).execChild.all fine || !(s.life p).forkChildren.all fine

/-- `can_ack_parent_wait()` of a fork point. -/
def canAckParentWait (s : Lives) (p : Nat) : Bool :=
  decide ((s.life p).state = .finalized)
  || (decide ((s.life p).state = .terminated) && (s.life p).hasOrphanDescendant
    && !s.anyChildNotFinalizedOrTerminatedWithOrphan p)

/-- The root exec process can be finalized although orphans below it are not. The pending
    exec() or popen() that `any_child_not_finalized()` may have found is not asked for again. -/
def onlyOrphansLeft (s : Lives) (p : Nat) : Bool :=
  let forkPoint := s.life (s.life p).forkPoint
  forkPoint.parent.isNone && forkPoint.hasOrphanDescendant
  && s.finalizedOrTerminatedAndHasOrphanAndFinalizedChildren s.size p

/-- How `maybe_finalize()` goes on after its checks. -/
inductive Verdict where
  | stay
  | finalize
  /-- The process that could wait for this one is not running any more. -/
  | orphan (forkParent : Nat)
  deriving DecidableEq, Repr

def verdict (s : Lives) (p : Nat) : Verdict :=
  if (s.life p).state ≠ .terminated then .stay
  else if s.anyChildNotFinalized p && !s.onlyOrphansLeft p then .stay
  else if s.beenWaitedFor p then .finalize
  else
    match s.forkParent p with
    -- the top process is waited for later
    | none => .stay
    | some q =>
      let waiter := s.life (s.lastExecDescendant s.size q)
      if waiter.state ≠ .running && !waiter.execPending then .orphan q else .stay

/-! ## New processes -/

def addForked (s : Lives) (parent : Nat) : Lives :=
  { s with
    size := s.size + 1
    life := fun q =>
      if q = s.size then { parent := some parent, forkPoint := s.size, execPoint := (s.life parent).execPoint }
      else if q = parent then { s.life q with forkChildren := (s.life q).forkChildren ++ [s.size] }
      else s.life q }

/-- What the constructor of `ExecedProcess` sets, or `set_parent()` and `set_exec_child()`
    for a posix_spawn() child that was queued. -/
def addExeced (s : Lives) (parent node : Nat) : Lives :=
  { s with
    size := s.size + 1
    life := fun q =>
      if q = s.size then
        { execed := true, parent := some parent, forkPoint := (s.life parent).forkPoint, execPoint := some node }
      else if q = parent then { s.life q with execChild := some s.size }
      else s.life q }

def setConn (s : Lives) (conn : Nat) (c : Option Connection) : Lives :=
  { s with conns := fun k => if k = conn then c else s.conns k }

def setSock (s : Lives) (pid : Nat) (c : Option ExecChildSock) : Lives :=
  { s with posixSpawnChildSock := fun k => if k = pid then c else s.posixSpawnChildSock k }

def setTerminated (s : Lives) (p : Nat) : Lives :=
  { s.modify p ({ · with state := .terminated }) with log := .terminated p :: s.log }

/-- `store()`, if it is called, and then the state. -/
def setFinalized (s : Lives) (p : Nat) (stored : Option Int) : Lives :=
  { s.modify p ({ · with state := .finalized }) with
    log := .finalized p :: ((stored.map (Milestone.stored p)).toList ++ s.log) }

end Lives
end Firebuild
