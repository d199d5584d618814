/-
  Firebuild.Population — the processes the supervisor knows and how they are finalized
  (`process.*`: `maybe_finalize`, `maybe_finalize_with_missed_static_exec_child`, `finish`,
  `pop_expected_child_fds`, `pass_on_fds`, `reset_file_fd_pipe_refs`, `close_fds`;
  `execed_process.cc`, `forked_process.cc`: the constructors, `do_finalize`,
  `set_been_waited_for`, `set_has_orphan_descendant_bubble_up`; `message_processor.cc`: what
  system_ret, pclose and wait share).

  A process has its table of fds by value: `pass_on_fds()` copies every `FileFD`, and a copy's
  reference to its pipe is given up separately. `none` is an assertion that fails, a null
  pointer or a process that is used after it was deleted.

  Not here: what the fds refer to and the traffic in the pipes (`Pipe`), the SIGTERM
  that `terminate_top_orphans` sends, report data. What other handlers disable comes with the
  message (`TreeOp`).
-/

import Mathlib.Data.List.DropRight
import Firebuild.Lifecycle

namespace Firebuild

/-! ## Tables of fds -/

/-- An fd of a process; `ofd` is the open file description it refers to. -/
structure FileFD where
  ofd : Nat
  cloexec : Bool := false
  closeOnPopen : Bool := false
  deriving DecidableEq, Repr

inductive LaunchType where
  | system
  | popen
  | posixSpawn
  deriving DecidableEq, Repr

/-- A `FileFD` with its `pipe_`. -/
structure PipedFD extends FileFD where
  pipe : Option Nat := none
  deriving DecidableEq, Repr

abbrev FdTable := List (Option PipedFD)

namespace FdTable

def get (fds : FdTable) (fd : Nat) : Option PipedFD := fds[fd]?.join

/-- `add_filefd()`: the table grows up to the fd. -/
def put (fds : FdTable) (fd : Nat) (x : Option PipedFD) : FdTable :=
  if fd < fds.length then fds.set fd x else fds ++ (List.replicate (fd - fds.length) none ++ [x])

/-- `pass_on_fds()` -/
def passOn (execed : Bool) (fds : FdTable) : FdTable :=
  (fds.map fun x => x.bind fun f =>
    if execed && f.cloexec then none
    else some { f with closeOnPopen := f.closeOnPopen && !execed }).rdropWhile Option.isNone

/-- `reset_file_fd_pipe_refs()` -/
def resetPipeRefs (fds : FdTable) : FdTable := fds.map (Option.map ({ · with pipe := none }))

def hasPipe (fds : FdTable) : Bool := fds.any (Option.any (·.pipe.isSome))

def closeIf (test : PipedFD → Bool) (fds : FdTable) : FdTable := fds.map (Option.filter (!test ·))

end FdTable

/-- The file actions of posix_spawn(), as far as the table goes. -/
inductive SpawnAction where
  /-- The new description and whether it is closed on exec(), if the path could be resolved. -/
  | open (fd : Nat) (ofd : Option (Nat × Bool))
  | close (fd : Nat)
  | closefrom (lowfd : Nat)
  | dup2 (oldfd newfd : Nat)
  /-- chdir() and fchdir() -/
  | chdir
  deriving DecidableEq, Repr

def SpawnAction.run (fds : FdTable) : SpawnAction → FdTable
  | .open fd none => fds.set fd none
  | .open fd (some (ofd, cloexec)) => fds.put fd (some { ofd, cloexec })
  | .close fd => fds.set fd none
  | .closefrom lowfd => fds.mapIdx fun fd x => if lowfd ≤ fd then none else x
  | .dup2 oldfd newfd =>
    match fds.get oldfd with
    | none => fds
    | some f =>
      if oldfd = newfd then fds.put oldfd (some { f with cloexec := false })
      else fds.put newfd (some { ofd := f.ofd, pipe := f.pipe })
  | .chdir => fds

namespace Population

structure Options where
  /-- `getpid()` of the supervisor -/
  supervisor : Nat
  /-- `child_pid`, the process the supervisor started -/
  childPid : Nat
  minCpuTimeU : Nat := 0
  generateReport : Bool := false
  /-- stdout and stderr of the supervisor are the same -/
  stdoutStderrMatch : Bool := false

/-- The child a process is about to launch; the fds are those it had then. -/
structure ExecedProcessEnv where
  fds : FdTable
  launchType : LaunchType
  /-- `is_wronly(type_flags_)` -/
  wronly : Bool := false
  deriving DecidableEq, Repr

/-- The rest of a `Process`; the exit status and the ack are those of a `ForkedProcess`. -/
structure Process where
  pid : Nat := 0
  fds : FdTable := []
  posixSpawnPending : Bool := false
  expectedChild : Option ExecedProcessEnv := none
  systemChild : Option Nat := none
  fd2popenChild : List (Nat × Nat) := []
  exitStatus : Int := -1
  /-- id and connection -/
  onFinalizedAck : Option (Nat × Nat) := none
  deleted : Bool := false
  deriving DecidableEq, Repr

/-- The rest of an `ExecedProcess`. -/
structure Execed where
  /-- The name of the executable starts with "qemu-". -/
  isQemu : Bool := false
  wasShortcut : Bool := false
  cpuTimeU : Nat := 0
  childrenCpuTimeU : Nat := 0
  deriving DecidableEq, Repr

inductive ReplyKind where
  | ack
  | scprocResp
  | popenFd
  | rewrittenArgs
  deriving DecidableEq, Repr

/-- A message to an interceptor, with the ack number of the message it answers. -/
structure Reply where
  conn : Nat
  answers : Nat
  kind : ReplyKind := .ack
  deriving DecidableEq, Repr

/-- What is done to the tree of exec()ed processes. -/
inductive TreeOp where
  | disableShortcuttingOnlyThis (node : Nat) (reason : String)
  | disableShortcuttingBubbleUp (node : Nat) (reason : String)
  /-- Up to the common ancestor with another process. -/
  | disableShortcuttingBelowCommon (node other : Nat) (reason : String)
  | nextShortcutableAncestor (node : Nat)

end Population

structure Population extends Lives where
  proc : Nat → Population.Process
  /-- By node. -/
  execs : Nat → Population.Execed
  procGcQueue : List Nat
  /-- What was sent to the interceptors, newest first. -/
  sent : List Population.Reply

namespace Population

/-! ## Updates -/

def modifyLife (s : Population) (p : Nat) (f : Life → Life) : Population :=
  { s with toLives := s.toLives.modify p f }

def modifyProc (s : Population) (p : Nat) (f : Process → Process) : Population :=
  { s with proc := fun q => if q = p then f (s.proc q) else s.proc q }

def modifyExeced (s : Population) (node : Nat) (f : Execed → Execed) : Population :=
  { s with execs := fun n => if n = node then f (s.execs n) else s.execs n }

def setTree (s : Population) (t : ExecTree) : Population := { s with tree := t }

def setConn (s : Population) (conn : Nat) (c : Option Connection) : Population :=
  { s with toLives := s.toLives.setConn conn c }

def setTerminated (s : Population) (p : Nat) : Population := { s with toLives := s.toLives.setTerminated p }

def modifyFds (s : Population) (p : Nat) (f : FdTable → FdTable) : Population :=
  s.modifyProc p fun q => { q with fds := f q.fds }

def send (s : Population) (r : Reply) : Population := { s with sent := r :: s.sent }

def ackMsg (s : Population) (conn num : Nat) : Population := s.send { conn, answers := num }

def alive (s : Population) (p : Nat) : Option Nat := if (s.proc p).deleted then none else some p

/-! ## Shortcutting -/

def TreeOp.run (t : ExecTree) : TreeOp → Option ExecTree
  | disableShortcuttingOnlyThis node reason => some (t.disableShortcuttingOnlyThis node reason none)
  | disableShortcuttingBubbleUp node reason => t.disableShortcuttingBubbleUp node reason
  | disableShortcuttingBelowCommon node other reason =>
    (t.commonExecAncestor node other).bind fun a => t.disableShortcuttingBubbleUpToExcl node (some a) reason
  | nextShortcutableAncestor node => (t.nextShortcutableAncestor node).map Prod.snd

def runOps : List TreeOp → ExecTree → Option ExecTree
  | [], t => some t
  | op :: ops, t => (op.run t).bind (runOps ops)

/-- `exec_point()->disable_shortcutting_bubble_up(reason)` -/
def disableShortcuttingBubbleUp (s : Population) (p : Nat) (reason : String) : Option Population :=
  (s.life p).execPoint.bind fun node => (s.tree.disableShortcuttingBubbleUp node reason).map s.setTree

/-- With the process it happened in, as `finish()` gives it. -/
def disableShortcuttingBubbleUpBy (s : Population) (p by_ : Nat) (reason : String) : Option Population :=
  (s.life p).execPoint.bind fun node =>
    (ExecTree.bubbleUpLoop none reason (s.tree.size + 2) s.tree node (s.life by_).execPoint none).map s.setTree

/-! ## Finalizing -/

def maybeSendOnFinalizedAck (s : Population) (p : Nat) : Population :=
  match (s.proc p).onFinalizedAck with
  | none => s
  | some (id, conn) => (s.ackMsg conn id).modifyProc p ({ · with onFinalizedAck := none })

/-- The wait for a process ends if only orphans are left below it. -/
def setHasOrphanDescendant (s : Population) (p : Nat) : Population :=
  let s := s.modifyLife p ({ · with hasOrphanDescendant := true })
  if (s.proc p).onFinalizedAck.isSome && s.canAckParentWait p then s.maybeSendOnFinalizedAck p else s

/-- On a fork point. -/
def setHasOrphanDescendantBubbleUp : Nat → Population → Nat → Population
  | 0, s, _ => s
  | n + 1, s, p =>
    let s := s.setHasOrphanDescendant p
    match (s.life p).parent with
    | none => s
    | some q => setHasOrphanDescendantBubbleUp n s (s.life q).forkPoint

/-- Whether, and with which exit status, `do_finalize()` stores the process. -/
def toStore (o : Options) (s : Population) (p node : Nat) : Option Int :=
  let x := s.execs node
  let status := (s.proc (s.life p).forkPoint).exitStatus
  if !x.wasShortcut && s.tree.can node && decide (status ≠ -1)
      && decide (o.minCpuTimeU ≤ x.cpuTimeU + x.childrenCpuTimeU) then some status
  else none

def addChildrenCpuTimeU (s : Population) (parentExecPoint : Option Nat) (t : Nat) : Population :=
  match parentExecPoint with
  | none => s
  | some n => s.modifyExeced n fun x => { x with childrenCpuTimeU := x.childrenCpuTimeU + t }

def setFinalized (s : Population) (p : Nat) (stored : Option Int) : Population :=
  { s with toLives := s.toLives.setFinalized p stored }

def closeFds (s : Population) (p : Nat) : Population := s.modifyFds p (FdTable.closeIf fun _ => true)

def queueExecProcForGC (s : Population) (p : Nat) : Population := { s with procGcQueue := s.procGcQueue ++ [p] }

def doFinalize (o : Options) (s : Population) (p : Nat) : Option Population :=
  if (s.life p).execed then
    (s.life p).execPoint.map fun node =>
      let x := s.execs node
      (((s.closeFds p).setFinalized p (toStore o s p node)).addChildrenCpuTimeU (s.tree.up node)
        (x.cpuTimeU + x.childrenCpuTimeU)).queueExecProcForGC p
  else some (((s.maybeSendOnFinalizedAck p).closeFds p).setFinalized p none)

def becomeOrphan (s : Population) (p forkParent : Nat) : Option Population :=
  let s := s.modifyLife (s.life p).forkPoint ({ · with orphan := true })
  (s.disableShortcuttingBubbleUp p "Orphan processes can't be shortcut").map fun s =>
    setHasOrphanDescendantBubbleUp s.size s (s.life forkParent).forkPoint

def maybeFinalizeLoop (o : Options) : Nat → Population → Nat → Option Population
  | 0, _, _ => none
  | n + 1, s, p =>
    let finalize (s : Population) :=
      (s.doFinalize o p).bind fun s =>
        match (s.life p).parent with
        | none => some s
        | some q => maybeFinalizeLoop o n s q
    match s.verdict p with
    | .stay => some s
    | .finalize => finalize s
    | .orphan forkParent => (s.becomeOrphan p forkParent).bind finalize

/-- A parent is older than its child, so there are at most `p` processes above it. -/
def maybeFinalize (o : Options) (s : Population) (p : Nat) : Option Population := maybeFinalizeLoop o (p + 1) s p

def maybeFinalizeWithMissedStaticExecChild (o : Options) (s : Population) (p : Nat) : Option Population :=
  (s.disableShortcuttingBubbleUp p
    "Process did not sign in to supervisor, perhaps statically linked or failed to link").bind fun s =>
      ((s.modifyLife p ({ · with execPending := false })).modifyFds p FdTable.resetPipeRefs).maybeFinalize o p

/-- The fork children that were not waited for, and whether there were any. -/
def leaveChildren (o : Options) : List Nat → Population → Option (Bool × Population)
  | [], s => some (false, s)
  | c :: cs, s =>
    if (s.life c).beenWaitedFor then leaveChildren o cs s
    else
      ((s.modifyLife c ({ · with orphan := true })).maybeFinalize o (s.lastExecDescendant s.size c)).bind fun s =>
        (leaveChildren o cs s).map fun (_, s) => (true, s)

def leaveOrphans (o : Options) (this : Nat) : Nat → Population → Option Nat → Option Population
  | _, s, none => some s
  | 0, _, some _ => none
  | n + 1, s, some curr =>
    (leaveChildren o (s.life curr).forkChildren s).bind fun (orphanFound, s) =>
      (if orphanFound then
          (s.disableShortcuttingBubbleUpBy curr this "Orphan processes can't be shortcut").map fun s =>
            setHasOrphanDescendantBubbleUp s.size s (s.life curr).forkPoint
        else some s).bind fun s => leaveOrphans o this n s (s.life curr).execChild

def finish (o : Options) (s : Population) (p : Nat) : Option Population :=
  -- a pending child may show up and needs to inherit the pipes
  let s := if s.pending p then s else s.modifyFds p FdTable.resetPipeRefs
  let s := s.setTerminated p
  -- the last process of the exec chain
  (if (s.life p).execChild.isNone && !(s.life p).execPending then
      leaveOrphans o p s.size s (some (s.life p).forkPoint)
    else some s).bind fun s => s.maybeFinalize o p

/-- `assert(!been_waited_for_)` -/
def setBeenWaitedFor (o : Options) (s : Population) (p : Nat) : Option Population :=
  let f := (s.life p).forkPoint
  if (s.life f).beenWaitedFor then none
  else (s.modifyLife f ({ · with beenWaitedFor := true })).maybeFinalize o (s.lastExecDescendant s.size f)

/-! ## Waiting -/

def setExitStatus (s : Population) (p : Nat) (status : Int) : Population :=
  s.modifyProc (s.life p).forkPoint ({ · with exitStatus := status })

/-- The status is unknown after a signal. -/
def setExitStatusIfKnown (s : Population) (p : Nat) : Option Int → Population
  | some status => s.setExitStatus p status
  | none => s

def setOnFinalizedAck (s : Population) (f conn ack : Nat) : Option Population :=
  if (s.proc f).onFinalizedAck.isSome then none
  else some (s.modifyProc f ({ · with onFinalizedAck := some (ack, conn) }))

/-- What system_ret, pclose and wait share. The exit status is unknown if the child did not
    exit normally. True if the message can be acked right away. -/
def waitedFor (o : Options) (s : Population) (child conn ack : Nat) (status : Option Int) (reason : String) :
    Option (Bool × Population) :=
  let f := (s.life child).forkPoint
  let known : Option Population := match status with
    | some status => some (s.setExitStatus child status)
    | none => (s.life child).execPoint.bind fun node =>
      (s.tree.disableShortcuttingBubbleUpToExcl node (s.life f).execPoint reason).map s.setTree
  known.bind fun s => (s.setBeenWaitedFor o child).bind fun s =>
    if (s.life child).execPending then
      (s.maybeFinalizeWithMissedStaticExecChild o child).map fun s => (true, s)
    else if !s.canAckParentWait f then (s.setOnFinalizedAck f conn ack).map fun s => (false, s)
    else some (true, s)

def updateRusage (s : Population) (p timeU : Nat) : Population :=
  match (s.life p).execPoint with
  | none => s
  | some node => s.modifyExeced node fun x => { x with cpuTimeU := x.cpuTimeU + timeU }

/-! ## New processes -/

def newForked (s : Population) (parent pid : Nat) (fds : FdTable) : Population :=
  { s with toLives := s.toLives.addForked parent }.modifyProc s.size fun _ => { pid, fds }

def getForkedProcess (s : Population) (parent pid : Nat) : Population :=
  s.newForked parent pid ((s.proc parent).fds.passOn false)

/-- The new process gets the next number and the next node, and what the parent passes on. -/
def newExeced (s : Population) (parent pid : Nat) (isQemu : Bool) : Option Population :=
  (s.tree.exec (s.life parent).execPoint).map fun t =>
    (({ s with toLives := { s.toLives.addExeced parent s.tree.size with tree := t } }.modifyProc s.size
      fun _ => { pid, fds := (s.proc parent).fds.passOn true }).modifyExeced s.tree.size
        fun _ => { isQemu }).modifyFds parent FdTable.resetPipeRefs

/-- `set_parent()` and `set_exec_child()`, for a process that was built without a parent. -/
def adopt (s : Population) (parent pid node : Nat) : Option Population :=
  (s.life parent).execPoint.bind fun parentNode => (s.tree.setParent node parentNode).map fun t =>
    { s with toLives := { s.toLives.addExeced parent node with tree := t } }.modifyProc s.size
      fun _ => { pid, fds := (s.proc parent).fds.passOn true }

def isQemu (s : Population) (p : Nat) : Bool := (s.life p).execPoint.any fun node => (s.execs node).isQemu

/-- `getExecedProcess()` with the check of the parent's state: the constructor asserts that it
    has terminated. A child that signs in while its exec parent's connection is open is
    therefore never queued, although `proc_new_process_msg()` means to. -/
def getExecedProcess (s : Population) (parent pid : Nat) (isQemu : Bool) : Option Population :=
  if (s.life parent).state = .terminated then
    (s.modifyLife parent ({ · with execPending := false })).newExeced parent pid isQemu
  -- the exec() was emulated inside the process
  else if s.isQemu parent && decide ((s.life parent).state ≠ .finalized) then s.newExeced parent pid isQemu
  else none

def setExpectedChild (s : Population) (p : Nat) (launchType : LaunchType) (wronly : Bool) : Option Population :=
  if (s.proc p).expectedChild.isSome then none
  else
    some (s.modifyProc p fun q => { q with expectedChild := some { fds := q.fds.passOn false, launchType, wronly } })

/-- `pop_expected_child_fds()` -/
def popExpectedChild (s : Population) (p : Nat) (argvMatches : Bool) :
    Option (Option ExecedProcessEnv × Population) :=
  let popped (s : Population) := s.modifyProc p ({ · with expectedChild := none })
  match (s.proc p).expectedChild with
  | none => (s.disableShortcuttingBubbleUp p "Unexpected system/popen/posix_spawn child").map fun s => (none, s)
  | some e =>
    if argvMatches then some (some e, popped s)
    else
      (s.disableShortcuttingBubbleUp p "Unexpected system/popen/posix_spawn child appeared").map fun s =>
        (none, popped s)

end Population
end Firebuild
