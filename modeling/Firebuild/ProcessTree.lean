/-
  Firebuild.ProcessTree — how processes come and go (`process_tree.*`; `message_processor.cc`:
  `proc_new_process_msg`, `accept_exec_child`, `accept_popen_child`, `accept_fork_child`, the
  cases of `proc_ic_msg` about processes; `connection_context.h`; `sigchild_callback.cc`).

  The tree is the population with the maps and queues that messages are matched by: the
  processes by pid, the fork()ed children and the parents that wait for each other, the
  popen()s and posix_spawn()s under way.

  What `accept_exec_child` disables and whether the process could be shortcut comes with the
  message, as do the table of fds it leaves and the pipe of a popen() (`Start`).
-/

import Firebuild.Population

namespace Firebuild

open FdTable (put)

namespace ProcessTree

structure ForkChildSock where
  sock : Nat
  childPid : Nat
  ackNum : Nat
  deriving DecidableEq, Repr

structure PendingParentAck where
  ackNum : Nat
  sock : Nat
  deriving DecidableEq, Repr

structure PendingPopen where
  wronly : Bool := false
  cloexec : Bool := false
  /-- The child and its connection, set when it signs in. -/
  child : Option (Nat × Nat) := none
  /-- Connection, ack number and client fd, set by popen_parent. -/
  parent : Option (Nat × Nat × Nat) := none
  deriving DecidableEq, Repr

structure PopenPipe where
  pipe : Nat := 0
  ofd0 : Nat := 0
  ofd1 : Nat := 0
  deriving DecidableEq, Repr

/-- What accepting a new process comes to. -/
structure Start where
  ops : List Population.TreeOp := []
  /-- The exit status, if the process could be shortcut. -/
  shortcut : Option Int := none
  /-- Inherited pipes are opened again. -/
  reopen : FdTable → FdTable := id
  popenPipe : PopenPipe := {}

end ProcessTree

structure ProcessTree extends Population where
  pid2proc : Nat → Option Nat
  /-- By the pid of the parent. -/
  forkChildSock : Nat → Option ProcessTree.ForkChildSock
  parentAck : Nat → Option ProcessTree.PendingParentAck
  pendingPopen : Nat → Option ProcessTree.PendingPopen

namespace ProcessTree

open Population (Options TreeOp Reply runOps)

/-! ## Updates -/

/-- The processes change, the maps and queues do not. -/
def withPopulation (s : ProcessTree) (ps : Population) : ProcessTree := { s with toPopulation := ps }

/-- `insert_process()` -/
def insert (s : ProcessTree) (p : Nat) : ProcessTree :=
  { s with pid2proc := fun pid => if pid = (s.proc p).pid then some p else s.pid2proc pid }

def setParentAck (s : ProcessTree) (pid : Nat) (a : Option PendingParentAck) : ProcessTree :=
  { s with parentAck := fun k => if k = pid then a else s.parentAck k }

def setForkChildSock (s : ProcessTree) (pid : Nat) (c : Option ForkChildSock) : ProcessTree :=
  { s with forkChildSock := fun k => if k = pid then c else s.forkChildSock k }

def setPendingPopen (s : ProcessTree) (p : Nat) (x : Option PendingPopen) : ProcessTree :=
  { s with pendingPopen := fun k => if k = p then x else s.pendingPopen k }

def setSock (s : ProcessTree) (pid : Nat) (c : Option ExecChildSock) : ProcessTree :=
  { s with toLives := s.toLives.setSock pid c }

/-! ## New processes -/

def acceptExecChild (s : ProcessTree) (p conn : Nat) (start : Start) : Option ProcessTree :=
  (runOps start.ops s.tree).bind fun t =>
    let s := (s.insert p).withPopulation (s.setTree t)
    (match start.shortcut with
      | none => some (s.withPopulation (s.modifyFds p start.reopen))
      | some status => (s.life p).execPoint.map fun node =>
        s.withPopulation ((s.modifyExeced node ({ · with wasShortcut := true })).modifyProc (s.life p).forkPoint
          ({ · with exitStatus := status }))).map fun (s : ProcessTree) =>
      s.withPopulation (s.send { conn, answers := 0, kind := .scprocResp })

/-- The ends of the pipe in the parent, at the client fd, and in the child. -/
def connectPopen (s : Population) (unixParent child fd : Nat) (pending : PendingPopen) (x : PopenPipe) : Population :=
  let fd0 (closeOnPopen : Bool) : PipedFD := { ofd := x.ofd0, cloexec := pending.cloexec, closeOnPopen, pipe := some x.pipe }
  let fd1 (closeOnPopen : Bool) : PipedFD := { ofd := x.ofd1, cloexec := pending.cloexec, closeOnPopen, pipe := some x.pipe }
  if pending.wronly then
    (s.modifyFds child (put · 0 (some (fd0 false)))).modifyFds unixParent (put · fd (some (fd1 true)))
  else
    (s.modifyFds unixParent (put · fd (some (fd0 true)))).modifyFds child (put · 1 (some (fd1 false)))

/-- Both the popen_parent message and the child have arrived. -/
def acceptPopenChild (s : ProcessTree) (unixParent : Nat) (pending : PendingPopen) (child childConn conn ackNum fd : Nat)
    (start : Start) : Option ProcessTree :=
  let ps := s.modifyProc unixParent fun q => { q with fd2popenChild := (fd, child) :: q.fd2popenChild }
  let ps := (connectPopen ps unixParent child fd pending start.popenPipe).send { conn, answers := ackNum, kind := .popenFd }
  ((s.withPopulation ps).acceptExecChild child childConn start).map fun s =>
    (s.setPendingPopen unixParent none).withPopulation (s.modifyLife unixParent ({ · with hasPendingPopen := false }))

def acceptForkChild (s : ProcessTree) (parent parentConn parentAck pid conn ack : Nat) : Option ProcessTree :=
  -- a closed connection leaves a dangling reference to store the process at
  if s.conns conn = some .null then
    let c := s.size
    let s := (s.withPopulation (s.getForkedProcess parent pid)).insert c
    some (s.withPopulation (((s.setConn conn (some (.proc c))).ackMsg parentConn parentAck).ackMsg conn ack))
  else none

def queuePosixSpawnChild (s : ProcessTree) (conn pid ppid : Nat) (isQemu : Bool) : Option ProcessTree :=
  (s.tree.exec none).map fun t =>
    let s := s.setSock ppid (some ⟨conn, s.tree.size, pid⟩)
    s.withPopulation (((s.setConn conn (some .incomplete)).setTree t).modifyExeced s.tree.size fun _ => { isQemu })

/-- The fds of the fork()ed process that a system() or popen() child was before its exec(). -/
def launchFds : Option Population.ExecedProcessEnv → FdTable
  | none => []
  | some e =>
    if e.launchType = .popen then
      FdTable.closeIf (·.closeOnPopen) (e.fds.set (if e.wronly then 0 else 1) none)
    else e.fds

/-- The fork of a system() or popen() child was not seen. Nothing is known about the launch
    if the child was not expected. -/
def addLaunchedFork (s : ProcessTree) (unixParent pid : Nat) (env : Option Population.ExecedProcessEnv) : ProcessTree :=
  let f := s.size
  let s := (s.withPopulation ((s.newForked unixParent pid (launchFds env)).setTerminated f)).insert f
  match env.map Population.ExecedProcessEnv.launchType, s.parentAck (s.proc unixParent).pid with
  | some .posixSpawn, some a =>
    (s.withPopulation (s.ackMsg a.sock a.ackNum)).setParentAck (s.proc unixParent).pid none
  | _, _ => s

/-- The parent gets to know the process it launched. -/
def acceptLaunchedChild (s : ProcessTree) (unixParent p conn : Nat) (type : Option LaunchType) (start : Start) :
    Option ProcessTree :=
  match type with
  | some .system =>
    (s.withPopulation (s.modifyProc unixParent ({ · with systemChild := some p }))).acceptExecChild p conn start
  | some .popen =>
    (s.pendingPopen unixParent).bind fun pending =>
      if pending.child.isSome then none
      else
        let s := s.setPendingPopen unixParent (some { pending with child := some (p, conn) })
        match pending.parent with
        | none => some s
        | some (parentConn, ackNum, fd) => s.acceptPopenChild unixParent pending p conn parentConn ackNum fd start
  | _ => s.acceptExecChild p conn start

def launchedChild (s : ProcessTree) (unixParent conn pid : Nat) (isQemu : Bool) (env : Option Population.ExecedProcessEnv)
    (start : Start) : Option ProcessTree :=
  let f := s.size
  let s := s.addLaunchedFork unixParent pid env
  let p := s.size
  (s.getExecedProcess f pid isQemu).bind fun ps =>
    (s.withPopulation (ps.setConn conn (some (.proc p)))).acceptLaunchedChild unixParent p conn
      (env.map Population.ExecedProcessEnv.launchType) start

/-- scproc_query -/
def newExecedProcess (o : Options) (s : ProcessTree) (conn pid ppid : Nat) (argvMatches isQemu : Bool) (start : Start) :
    Option ProcessTree :=
  let execChild (parent : Nat) :=
    (s.getExecedProcess parent pid isQemu).bind fun ps =>
      (s.withPopulation (ps.setConn conn (some (.proc s.size)))).acceptExecChild s.size conn start
  match s.pid2proc pid with
  | some parent => (s.alive parent).bind execChild
  | none =>
    -- the first intercepted process, or one that lost its parent
    if ppid = o.supervisor then execChild 0
    else
      match s.pid2proc ppid with
      -- `reject_exec_child()`: the child goes on without being intercepted
      | none => some (s.withPopulation (s.send { conn, answers := 0, kind := .scprocResp }))
      | some unixParent =>
        (s.alive unixParent).bind fun unixParent =>
          (s.popExpectedChild unixParent argvMatches).bind fun (env, ps) =>
            let s := s.withPopulation ps
            if (s.proc unixParent).posixSpawnPending then s.queuePosixSpawnChild conn pid ppid isQemu
            else s.launchedChild unixParent conn pid isQemu env start

/-- fork_child -/
def newForkedProcess (s : ProcessTree) (conn pid ppid ack : Nat) : Option ProcessTree :=
  match s.parentAck ppid with
  | none =>
    if (s.forkChildSock ppid).isSome then none else some (s.setForkChildSock ppid (some ⟨conn, pid, ack⟩))
  | some a =>
    (s.pid2proc ppid).bind fun parent => (s.alive parent).bind fun parent =>
      (s.acceptForkChild parent a.sock a.ackNum pid conn ack).map fun s => s.setParentAck ppid none

/-! ## Messages of a process -/

def forkParent (s : ProcessTree) (p conn ack : Nat) : Option ProcessTree :=
  let pid := (s.proc p).pid
  match s.forkChildSock pid with
  | none => if (s.parentAck pid).isSome then none else some (s.setParentAck pid (some ⟨ack, conn⟩))
  | some c =>
    (s.acceptForkChild p conn ack c.childPid c.sock c.ackNum).map fun s => s.setForkChildSock pid none

def popen (s : ProcessTree) (p : Nat) (wronly cloexec : Bool) : Option ProcessTree :=
  if (s.pendingPopen p).isSome then none
  else
    (s.setExpectedChild p .popen wronly).map fun ps =>
      (s.setPendingPopen p (some { wronly, cloexec })).withPopulation
        (ps.modifyLife p ({ · with hasPendingPopen := true }))

def popenParent (s : ProcessTree) (p conn ack fd : Nat) (start : Start) : Option ProcessTree :=
  (s.pendingPopen p).bind fun pending =>
    if pending.parent.isSome then none
    else
      let s := s.setPendingPopen p (some { pending with parent := some (conn, ack, fd) })
      match pending.child with
      | none => some s
      | some (child, childConn) =>
        (s.alive child).bind fun child => s.acceptPopenChild p pending child childConn conn ack fd start

/-- The spawned process was faster than its parent's message. -/
def adoptPosixSpawnChild (s : ProcessTree) (f : Nat) (c : ExecChildSock) (start : Start) : Option ProcessTree :=
  (s.adopt f c.pid c.node).bind fun ps =>
    (s.withPopulation (ps.setConn c.sock (some (.proc s.size)))).acceptExecChild s.size c.sock start

/-- The process between fork and exec, after the file actions; what they disable is in `ops`. -/
def addSpawnedFork (s : ProcessTree) (p pid : Nat) (actions : List SpawnAction) (ops : List TreeOp) : Option ProcessTree :=
  let f := s.size
  let s := (s.withPopulation (s.getForkedProcess p pid)).insert f
  (runOps ops s.tree).map fun t =>
    s.withPopulation (((s.setTree t).modifyFds f (actions.foldl SpawnAction.run)).modifyProc p
      ({ · with posixSpawnPending := false }))

def spawnedProcess (s : ProcessTree) (p f : Nat) (argvMatches : Bool) (start : Start) : Option ProcessTree :=
  match s.posixSpawnChildSock (s.proc p).pid with
  | some c => (s.adoptPosixSpawnChild f c start).map fun s' => s'.setSock (s.proc p).pid none
  -- a pending exec, as after an exec(): a statically linked child is noticed when it is waited for
  | none =>
    (s.popExpectedChild p argvMatches).map fun (_, ps) =>
      s.withPopulation (ps.modifyLife f ({ · with execPending := true }))

def posixSpawnParent (s : ProcessTree) (p pid : Nat) (actions : List SpawnAction) (ops : List TreeOp) (argvMatches : Bool)
    (start : Start) : Option ProcessTree :=
  let f := s.size
  (s.addSpawnedFork p pid actions ops).bind fun s =>
    (s.spawnedProcess p f argvMatches start).map fun s => s.withPopulation (s.setTerminated f)

inductive Message where
  | forkParent
  | execFailed
  | rusage (timeU : Nat)
  | system
  | systemRet (status : Option Int)
  | popen (wronly cloexec : Bool)
  | popenParent (fd : Nat) (start : Start)
  | popenFailed (argvMatches : Bool)
  | pclose (fd : Nat) (error : Bool) (status : Option Int)
  | posixSpawn
  | posixSpawnParent (pid : Nat) (actions : List SpawnAction) (ops : List TreeOp) (argvMatches : Bool) (start : Start)
  | posixSpawnFailed (argvMatches : Bool)
  | wait (pid : Nat) (status : Option Int)
  | exec (timeU : Nat)
  /-- Any other message: what it disables and what it does to the fds of the process. -/
  | other (ops : List TreeOp) (fds : FdTable → FdTable)

/-- True if the message is acked when its handler is done. -/
def Message.process (o : Options) (s : ProcessTree) (p conn ack : Nat) : Message → Option (Bool × ProcessTree)
  | forkParent => (s.forkParent p conn ack).map fun s => (false, s)
  | execFailed => some (true, s.withPopulation (s.modifyLife p ({ · with execPending := false })))
  | rusage timeU => some (true, s.withPopulation (s.updateRusage p timeU))
  | system =>
    if (s.proc p).systemChild.isSome then none
    else (s.setExpectedChild p .system false).map fun ps => (true, s.withPopulation ps)
  | systemRet status =>
    (s.proc p).systemChild.bind fun child => (s.alive child).bind fun child =>
      (s.waitedFor o child conn ack status
        "Process started by system() exited abnormally or the exit status could not be collected").map
        fun (now, ps) => (now, s.withPopulation (ps.modifyProc p ({ · with systemChild := none })))
  | popen wronly cloexec => (s.popen p wronly cloexec).map fun s => (true, s)
  | popenParent fd start => (s.popenParent p conn ack fd start).map fun s => (false, s)
  | popenFailed argvMatches =>
    (s.popExpectedChild p argvMatches).map fun (_, ps) => (true, s.withPopulation ps)
  | pclose fd error status =>
    if error then some (true, s)
    else
      ((s.proc p).fd2popenChild.lookup fd).bind fun child => (s.alive child).bind fun child =>
        ((s.modifyProc p fun q => { q with fd2popenChild := q.fd2popenChild.filter (·.1 ≠ fd) }).waitedFor o child
          conn ack status
          "Process started by popen() exited abnormally or the exit status could not be collected").map
          fun (now, ps) => (now, s.withPopulation ps)
  | posixSpawn =>
    (s.setExpectedChild p .posixSpawn false).map fun ps =>
      (false, s.withPopulation ((ps.modifyProc p ({ · with posixSpawnPending := true })).send
        { conn, answers := ack, kind := .rewrittenArgs }))
  | posixSpawnParent pid actions ops argvMatches start =>
    (s.posixSpawnParent p pid actions ops argvMatches start).map fun s => (true, s)
  | posixSpawnFailed argvMatches =>
    (s.popExpectedChild p argvMatches).map fun (_, ps) =>
      (true, s.withPopulation (ps.modifyProc p ({ · with posixSpawnPending := false })))
  | wait pid status =>
    (s.pid2proc pid).bind fun child => (s.alive child).bind fun child =>
      (s.waitedFor o child conn ack status "Process exited abnormally").map fun (now, ps) => (now, s.withPopulation ps)
  | exec timeU =>
    some (false, s.withPopulation (((s.updateRusage p timeU).modifyLife p ({ · with execPending := true })).send
      { conn, answers := ack, kind := .rewrittenArgs }))
  | other ops fds =>
    (runOps ops s.tree).map fun t => (true, s.withPopulation ((s.setTree t).modifyFds p fds))

def message (o : Options) (s : ProcessTree) (conn ack : Nat) (m : Message) : Option ProcessTree :=
  match s.conns conn with
  | some (.proc p) =>
    (s.alive p).bind fun p =>
      (m.process o s p conn ack).map fun (now, s) =>
        if now && decide (ack ≠ 0) then s.withPopulation (s.ackMsg conn ack) else s
  | _ => none

/-! ## Events -/

/-- `~ConnectionContext()` -/
def hangUp (o : Options) (s : ProcessTree) (conn : Nat) : Option ProcessTree :=
  match s.conns conn with
  | some .null => some (s.withPopulation (s.setConn conn none))
  | some (.proc p) =>
    (s.alive p).bind fun p => ((s.setConn conn none).finish o p).map s.withPopulation
  -- a queued process has no fork point to ask whether it was waited for
  | some .incomplete => none
  | none => none

/-- One process that `sigchild_cb()` collects. -/
def collect (o : Options) (s : ProcessTree) (pid : Nat) (status : Option Int) : Option ProcessTree :=
  match s.pid2proc pid with
  | some p =>
    (s.alive p).bind fun p =>
      let saved := s.setExitStatusIfKnown p status
      if pid = o.childPid then (saved.setBeenWaitedFor o p).map s.withPopulation
      else if s.beenWaitedFor p then none
      else some (s.withPopulation saved)
  | none => if pid = o.childPid then none else some s

def subtree (s : Lives) : Nat → Nat → List Nat
  | 0, _ => []
  | n + 1, p => p :: ((s.life p).execChild.toList ++ (s.life p).forkChildren).flatMap (subtree s n)

def deleteProcessSubtree (s : Population) (p : Nat) : Population :=
  { s with proc := fun q => if q ∈ subtree s.toLives s.size p then { s.proc q with deleted := true } else s.proc q }

def gcLoop (haveOrphan : Bool) : List Nat → Population → Option Population
  | [], s => some s
  | p :: ps, s =>
    (s.alive p).bind fun p =>
      match (s.life p).parent with
      | none => gcLoop haveOrphan ps s
      | some q =>
        if haveOrphan then gcLoop haveOrphan ps s
        else
          (s.alive q).bind fun q =>
            gcLoop haveOrphan ps (deleteProcessSubtree (s.modifyLife q ({ · with execChild := none })) p)

def gcProcesses (o : Options) (s : Population) : Option Population :=
  (if o.generateReport then some s else gcLoop (s.life 0).hasOrphanDescendant s.procGcQueue s).map fun s =>
    { s with procGcQueue := [] }

inductive Event where
  | connect (conn : Nat)
  | scprocQuery (conn pid ppid : Nat) (argvMatches isQemu : Bool) (start : Start)
  | forkChild (conn pid ppid ack : Nat)
  | message (conn ack : Nat) (m : Message)
  | hangUp (conn : Nat)
  | sigchild (pid : Nat) (status : Option Int)
  | gcProcesses

def step (o : Options) (s : ProcessTree) : Event → Option ProcessTree
  | .connect conn => if (s.conns conn).isSome then none else some (s.withPopulation (s.setConn conn (some .null)))
  | .scprocQuery conn pid ppid argvMatches isQemu start =>
    if s.conns conn = some .null then s.newExecedProcess o conn pid ppid argvMatches isQemu start else none
  | .forkChild conn pid ppid ack =>
    if s.conns conn = some .null then s.newForkedProcess conn pid ppid ack else none
  | .message conn ack m => s.message o conn ack m
  | .hangUp conn => s.hangUp o conn
  | .sigchild pid status => s.collect o pid status
  | .gcProcesses => (gcProcesses o s.toPopulation).map s.withPopulation

/-- `insert_root()`: stdin has no pipe. -/
def init (o : Options) : ProcessTree where
  size := 1
  life := fun _ => { state := .terminated }
  tree := .empty
  conns := fun _ => none
  posixSpawnChildSock := fun _ => none
  log := [.terminated 0]
  proc := fun _ => {
    pid := o.childPid
    fds := [some { ofd := 0 }, some { ofd := 1, pipe := some 0 },
      some (if o.stdoutStderrMatch then { ofd := 1, pipe := some 0 } else { ofd := 2, pipe := some 1 })] }
  execs := fun _ => {}
  procGcQueue := []
  sent := []
  pid2proc := fun pid => if pid = o.childPid then some 0 else none
  forkChildSock := fun _ => none
  parentAck := fun _ => none
  pendingPopen := fun _ => none

def run (o : Options) : List Event → ProcessTree → Option ProcessTree
  | [], s => some s
  | e :: es, s => (s.step o e).bind (run o es)

/-- The states of the runs in which every event meets `P` when it comes. -/
inductive Reach (o : Options) (P : ProcessTree → Event → Prop) : ProcessTree → Prop
  | init : Reach o P (init o)
  | step {s s' : ProcessTree} {e : Event} : Reach o P s → P s e → s.step o e = some s' → Reach o P s'

end ProcessTree
end Firebuild
