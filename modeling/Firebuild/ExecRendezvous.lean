/-
  Firebuild.ExecRendezvous — exec() and posix_spawn(), where the new image signs in before or
  after something of its parent is seen (`message_processor.cc`: `proc_new_process_msg`, the
  case posix_spawn_parent of `proc_ic_msg`; `execed_process.cc`: the constructor and
  `set_parent`; `connection_context.h`).

  An exec()ing process is left behind when its connection is closed, and the new image signs
  in under the same pid.
    - `exec_meets_iff`: this works if the connection is seen closed first. The constructor
      asserts that the parent has terminated, so the queue for the other order is never used.

  A posix_spawn() child is announced by its parent's message, with the file actions.
    - `spawn_meets_iff`: child and parent are linked in either order, but if the child comes
      first and is queued, the process between fork and exec keeps its pipes, and the arguments
      that are compared with the expected ones are those of the child and not the parent's own.
    - `rewritten_is_recognised_iff`: so a command that was rewritten can disable its parent.
-/

import Firebuild.CommandRewriter
import Firebuild.Rendezvous

namespace Firebuild

open Option (bind_eq_some_iff bind_some map_eq_some_iff)

namespace ExecTree

open Lib.Forest (AtOrAbove Chain)

variable {t t' t₁ t₂ : ExecTree} {n m q : Nat} {l : List Nat} {d : Nat → Prop}

def nearest (t : ExecTree) (n : Nat) : Option (Option Nat) := (t.nextShortcutableAncestor n).map Prod.fst

def closest (t : ExecTree) (m : Nat) : Option (Option Nat) := (t.closestShortcutPoint m).map Prod.fst

theorem nearest_of_up (h : t.Inv) (hup : t.up n = some m) : t.nearest n = t.closest m := by
  obtain ⟨l, hl⟩ := h.chain m
  obtain ⟨x, hx, -⟩ := h.next (.step hup hl)
  obtain ⟨y, hy, -⟩ := h.closest hl
  rw [nearest, closest, hx, hy]
  rfl

/-- The parents once there is a new node below `m`. -/
def upBelow (t : ExecTree) (m : Nat) : Nat → Option Nat := fun x => if x = t.size then some m else t.up x

theorem upBelow_of_ne (hq : q ≠ t.size) : t.upBelow m q = t.up q := if_neg hq

/-- There is a new node below `m`, and of the others those of `d` are disabled. -/
structure Extended (t : ExecTree) (m : Nat) (d : Nat → Prop) (t' : ExecTree) : Prop where
  inv : t'.Inv
  up : t'.up = t.upBelow m
  can : ∀ q, q ≠ t.size → (t'.can q = true ↔ t.can q = true ∧ ¬d q)

theorem Inv.ne_size (h : t.Inv) (hm : m < t.size) (hl : Chain t.up m l) (hq : q ∈ m :: l) : q ≠ t.size := by
  rcases List.mem_cons.mp hq with rfl | hq
  · exact hm.ne
  · exact (h.mem_lt hl hq).ne

theorem Extended.nearest (h : t.Inv) (hm : m < t.size) (hl : Chain t.up m l) (he : Extended t m d t') :
    t'.nearest t.size = some ((m :: l).find? t'.can) := by
  have hchain : Chain t'.up m l := hl.congr fun x hx => by rw [he.up, upBelow_of_ne (h.ne_size hm hl hx)]
  have hup : t'.up t.size = some m := by rw [he.up, upBelow, if_pos rfl]
  obtain ⟨x, hx, -⟩ := he.inv.next (.step hup hchain)
  rw [ExecTree.nearest, hx]
  rfl

/-- The nearest ancestor is another one if everything above is disabled besides, and there was one. -/
theorem Extended.nearest_eq_iff {all : Prop} (h : t.Inv) (hm : m < t.size) (h₁ : Extended t m d t₁)
    (h₂ : Extended t m (fun q => d q ∨ all ∧ AtOrAbove t.up m q) t₂) :
    t₂.nearest t.size = t₁.nearest t.size ↔ (all → ∀ q, AtOrAbove t.up m q → t.can q = true → d q) := by
  obtain ⟨l, hl⟩ := h.chain m
  rw [h₁.nearest h hm hl, h₂.nearest h hm hl, Option.some_inj]
  have hcan₁ := fun q hq => h₁.can q (h.ne_size hm hl hq)
  have hcan₂ := fun q hq => h₂.can q (h.ne_size hm hl hq)
  by_cases hall : all
  · have hnone : (m :: l).find? t₂.can = none :=
      List.find?_eq_none.mpr fun q hq => by simp [hcan₂ q hq, hall, hl.mem_iff, hq]
    rw [hnone, eq_comm, List.find?_eq_none]
    simp only [hall, true_imp_iff, hl.mem_iff]
    refine forall₂_congr fun q hq => ?_
    rw [hcan₁ q hq]
    tauto
  · have hsame : (m :: l).find? t₂.can = (m :: l).find? t₁.can :=
      List.find?_congr fun q hq => Bool.eq_iff_iff.mpr (by simp [hcan₁ q hq, hcan₂ q hq, hall])
    simp [hsame, hall]

end ExecTree

namespace Population

open Lib.Forest (AtOrAbove Chain)
open ExecTree (Extended)

variable {t t1 : ExecTree} {up up' : Nat → Option Nat} {n m q : Nat} {op : TreeOp} {ops startOps : List TreeOp}
  {d : Nat → Prop}

def TreeOp.nodes : TreeOp → List Nat
  | disableShortcuttingOnlyThis node _ => [node]
  | disableShortcuttingBubbleUp node _ => [node]
  | disableShortcuttingBelowCommon node other _ => [node, other]
  | nextShortcutableAncestor node => [node]

section

variable (hc : ∀ x, ∃ l, Chain up x l) (hup : ∀ x, x ≠ n → up' x = up x) (hleaf : ∀ x, up x ≠ some n)

include hc hup hleaf

theorem atOrAbove_congr (hm : m ≠ n) : AtOrAbove up' m q ↔ AtOrAbove up m q := by
  obtain ⟨l, hl⟩ := hc m
  exact AtOrAbove.iff_of_leaf hl hup hleaf hm

theorem TreeOp.disables_congr (hn : n ∉ op.nodes) : op.Disables up' q ↔ op.Disables up q := by
  cases op with
  | disableShortcuttingOnlyThis | nextShortcutableAncestor => rfl
  | disableShortcuttingBubbleUp node => exact atOrAbove_congr hc hup hleaf (Ne.symm (by simpa [nodes] using hn))
  | disableShortcuttingBelowCommon node other =>
    obtain ⟨h1, h2⟩ : n ≠ node ∧ n ≠ other := by simpa [nodes] using hn
    exact and_congr (atOrAbove_congr hc hup hleaf h1.symm) (not_congr (atOrAbove_congr hc hup hleaf h2.symm))

theorem TreeOp.runs_congr (hn : n ∉ op.nodes) : op.Runs up' ↔ op.Runs up := by
  cases op with
  | disableShortcuttingBelowCommon node other =>
    obtain ⟨h1, h2⟩ : n ≠ node ∧ n ≠ other := by simpa [nodes] using hn
    exact exists_congr fun q =>
      and_congr (atOrAbove_congr hc hup hleaf h1.symm) (atOrAbove_congr hc hup hleaf h2.symm)
  | _ => rfl

theorem clears_congr (hn : ∀ op ∈ ops, n ∉ op.nodes) : Clears ops up' q ↔ Clears ops up q :=
  exists_congr fun op => and_congr_right fun hop => op.disables_congr hc hup hleaf (hn op hop)

end

theorem clears_append : Clears (ops ++ startOps) up q ↔ Clears ops up q ∨ Clears startOps up q := by
  simp [Clears, or_and_right, exists_or]

/-- The operations of the parent's message, and then the new node and what its start disables. -/
theorem Disabled.exec (h : t.Inv) (hd : Disabled t (Clears ops t.up) t1) (hm : m < t.size)
    (hn : ∀ op ∈ ops, t.size ∉ op.nodes) (hstart : ∀ op ∈ startOps, op.Runs (t.upBelow m)) :
    ∃ t2 t3, t1.exec (some m) = some t2 ∧ runOps startOps t2 = some t3 ∧
      Extended t m (Clears (ops ++ startOps) (t.upBelow m)) t3 := by
  obtain ⟨t2, ht2, hinv, -, hup, hcan⟩ :=
    hd.inv.exec (by simpa [hd.size] using hm : ∀ q ∈ some m, q < t1.size)
  have hup2 : t2.up = t.upBelow m := funext fun x => by rw [hup, hd.size, hd.up, ExecTree.upBelow]
  obtain ⟨t3, ht3, hd3⟩ := runOps_spec hinv (hup2 ▸ hstart)
  refine ⟨t2, t3, ht2, ht3, hd3.inv, hd3.up.trans hup2, fun q hq => ?_⟩
  rw [hd3.can, hcan, hd.size, if_neg hq, hd.can, hup2, clears_append,
    clears_congr h.chain (fun _ => t.upBelow_of_ne) (fun x hx => (h.lt hx).false) hn]
  tauto

/-- The new node without a parent, the operations of the parent's message, and then it gets the parent. -/
theorem Disabled.adopted (h : t.Inv) (hd : Disabled t d t1) (hm : m < t.size)
    (hn : ∀ op ∈ ops, t.size ∉ op.nodes) (hops : ∀ op ∈ ops, op.Runs t.up)
    (hstart : ∀ op ∈ startOps, op.Runs (t.upBelow m)) :
    ∃ t2 t3 t4 t5, t1.exec none = some t2 ∧ runOps ops t2 = some t3 ∧ t3.setParent t.size m = some t4 ∧
      runOps startOps t4 = some t5 ∧ Extended t m (fun q => Clears (ops ++ startOps) (t.upBelow m) q ∨ d q) t5 := by
  have hleaf : ∀ x, t.up x ≠ some t.size := fun x hx => (h.lt hx).false
  obtain ⟨t2, ht2, hinv2, hsize2, hup2, hcan2⟩ := hd.inv.exec (by simp : ∀ q ∈ (none : Option Nat), q < t1.size)
  have hup2' : ∀ x, x ≠ t.size → t2.up x = t.up x := fun x hx => by rw [hup2, hd.size, if_neg hx, hd.up]
  obtain ⟨t3, ht3, hd3⟩ := runOps_spec hinv2 fun op hop =>
    (op.runs_congr h.chain hup2' hleaf (hn op hop)).mpr (hops op hop)
  have hleaf3 : ∀ x, t3.up x ≠ some t.size := fun x hx => by
    rw [hd3.up, hup2, hd.up] at hx
    split at hx
    · cases hx
    · exact hleaf x hx
  have hlt3 : m < t3.size := by
    rw [hd3.size, hsize2, hd.size]
    exact Nat.lt_succ_of_lt hm
  obtain ⟨t4, ht4, hinv4, -, hup4, hcan4⟩ := hd3.inv.setParent hleaf3 hlt3 hm.ne
  have hup4' : t4.up = t.upBelow m := funext fun x => by
    rw [hup4, ExecTree.upBelow, hd3.up]
    split
    · rfl
    · next hx => exact hup2' x hx
  obtain ⟨t5, ht5, hd5⟩ := runOps_spec hinv4 (hup4' ▸ hstart)
  refine ⟨t2, t3, t4, t5, ht2, ht3, ht4, ht5, hd5.inv, hd5.up.trans hup4', fun q hq => ?_⟩
  rw [hd5.can, hcan4, hd3.can, hcan2, hd.size, if_neg hq, hd.can, hup4', clears_append,
    clears_congr h.chain hup2' hleaf hn, clears_congr h.chain (fun _ => t.upBelow_of_ne) hleaf hn]
  tauto

end Population

theorem FdTable.resetPipeRefs_hasPipe (fds : FdTable) : fds.resetPipeRefs.hasPipe = false := by
  simp only [resetPipeRefs, hasPipe, List.any_map, List.any_eq_false]
  intro x _
  cases x <;> simp

namespace ProcessTree

open Lib.Forest (AtOrAbove)
open Population (Clears Disabled Options TreeOp idle idle_eq modifyProc runOps)
open CommandRewriter (Arg Cfg argvMatchesExpectation maybeRewrite Recognisable)

variable {s s' s₁ s1 : ProcessTree} {o : Options} {P : ProcessTree → Event → Prop} {p q c k pid ppid cp cn ack f : Nat}
  {start : Start} {isQemu argvMatches : Bool} {ps : Population}

/-- The process between an exec()ed one and the node above it. -/
theorem Reach.nearest (h : Reach o P s) (hc : c < s.size) (hlife : (s.life c).execed = true)
    (hparent : (s.life c).parent = some f) (hnode : (s.life c).execPoint = some n) (hf : (s.life f).execPoint = some m) :
    s.tree.nearest n = s.tree.closest m := by
  have hc0 : c ≠ 0 := by
    rintro rfl
    rw [h.footing.shape.parent_root] at hparent
    cases hparent
  obtain ⟨q, hq⟩ := h.footing.shape.lineage c hc0 hc
  obtain rfl : q = f := Option.some.inj (hq.parent.symm.trans hparent)
  obtain ⟨-, n', hn', -, hup⟩ := hq.execed hlife
  obtain rfl : n' = n := Option.some.inj (hn'.symm.trans hnode)
  exact ExecTree.nearest_of_up h.footing.shape.tree (hup.trans hf)

/-! ## exec() -/

/-- A process is to become another, whose connection is `cn`. -/
structure ExecCalled (s : ProcessTree) (p pid cp cn : Nat) : Prop where
  parent : s.conns cp = some (.proc p)
  child : s.conns cn = some .null
  alive : (s.proc p).deleted = false
  found : s.pid2proc pid = some p
  pending : (s.life p).execPending = true
  notWaited : s.beenWaitedFor p = false

structure Execed (s : ProcessTree) (start : Start) (p pid cp cn : Nat) (s' : ProcessTree) : Prop where
  parent : s'.life p = { s.life p with state := .terminated, execPending := false, execChild := some s.size }
  child : s'.life s.size =
    { execed := true, parent := some p, forkPoint := (s.life p).forkPoint, execPoint := some s.tree.size }
  nearest : ∀ m, (s.life p).execPoint = some m → s'.tree.nearest s.tree.size = s'.tree.closest m
  noPipes : (s'.proc p).fds.hasPipe = false
  fds : (s'.proc s.size).fds = start.fds ((s.proc p).fds.passOn true)
  conns : s'.conns cp = none ∧ s'.conns cn = some (.proc s.size)
  found : s'.pid2proc pid = some s.size

/-- A process that has an exec() pending and is not waited for just terminates. -/
theorem finish_pending (hpending : (ps.life p).execPending = true) (hwaited : ps.beenWaitedFor p = false) :
    ps.finish o p = some (ps.setTerminated p) := by
  have hended : ps.ended p = ps.setTerminated p := by
    rw [Population.ended, if_pos (by simp [Lives.pending, hpending])]
  have hlife : (ps.setTerminated p).life p = { ps.life p with state := .terminated } := if_pos rfl
  rw [Population.finish_eq, hended, hlife, hpending]
  simp only [Bool.not_true, Bool.and_false, Bool.false_eq_true, if_false, bind_some]
  have hforkPoint : ∀ q, ((ps.setTerminated p).life q).forkPoint = (ps.life q).forkPoint :=
    Lives.setTerminated_proj Life.forkPoint (fun _ => rfl) ps.toLives p
  have hbeen : ∀ q, ((ps.setTerminated p).life q).beenWaitedFor = (ps.life q).beenWaitedFor :=
    Lives.setTerminated_proj Life.beenWaitedFor (fun _ => rfl) ps.toLives p
  have hany : (ps.setTerminated p).anyChildNotFinalized p = true := by
    simp [Lives.anyChildNotFinalized, Lives.pending, hlife, hpending]
  have hwaited' : (ps.setTerminated p).beenWaitedFor p = false := by
    rw [Lives.beenWaitedFor, hforkPoint, hbeen]
    exact hwaited
  have hstay : (ps.setTerminated p).verdict p = .stay := by
    have hstate : ¬((ps.setTerminated p).life p).state ≠ .terminated := by simp [hlife]
    rw [Lives.verdict, hany, hwaited']
    by_cases horphans : (ps.setTerminated p).onlyOrphansLeft p = true
    · -- on the exec chain of the root, which nobody waits for yet
      have htop : (ps.setTerminated p).forkParent p = none := by
        simp only [Lives.onlyOrphansLeft, Bool.and_eq_true, Option.isNone_iff_eq_none] at horphans
        exact horphans.1.1
      simp [htop]
    · simp [horphans]
  rw [Population.maybeFinalize, Population.maybeFinalizeLoop]
  rw [hstay]

variable (ppid isQemu argvMatches) in
/-- The new image of a process that is over is accepted. -/
theorem execChild_exists (h : Reach o P s) (hfound : s.pid2proc pid = some p) (hcn : s.conns cn = some .null)
    (halive : (s.proc p).deleted = false) (hstate : (s.life p).state = .terminated)
    (hops : ∀ t, s.tree.exec (s.life p).execPoint = some t → (runOps start.ops t).isSome = true) :
    ∃ s', s.step o (.scprocQuery cn pid ppid argvMatches isQemu start) = some s' := by
  obtain ⟨hlt, -⟩ := h.known.pids pid p hfound
  obtain ⟨t, ht, -⟩ := h.footing.shape.tree.exec fun n hn => h.footing.shape.execPoint_lt p n hlt hn
  obtain ⟨ps, hps⟩ := getExecedProcess_exists pid isQemu hstate ht
  obtain ⟨-, hlife, -, htree, -⟩ := getExecedProcess_spec hlt hstate hps
  rw [step, if_pos hcn, newExecedProcess, hfound]
  simp only [alive_eq halive, hps, bind_some]
  refine acceptExecChild_exists cn (hops _ htree) ?_
  show (ps.life s.size).execPoint.isSome = true
  rw [hlife, if_pos rfl]
  rfl

/-- The new image of a process that is over signs in. -/
theorem execChild_spec (h : Reach o P s) (hfound : s.pid2proc pid = some p) (hcn : s.conns cn = some .null)
    (hstate : (s.life p).state = .terminated)
    (he : s.step o (.scprocQuery cn pid ppid argvMatches isQemu start) = some s') :
    s'.life p = { s.life p with execPending := false, execChild := some s.size } ∧
    s'.life s.size =
      { execed := true, parent := some p, forkPoint := (s.life p).forkPoint, execPoint := some s.tree.size } ∧
    (∀ m, (s.life p).execPoint = some m → s'.tree.nearest s.tree.size = s'.tree.closest m) ∧
    (s'.proc p).fds.hasPipe = false ∧ (s'.proc s.size).fds = start.fds ((s.proc p).fds.passOn true) ∧
    (∀ j, s'.conns j = if j = cn then some (.proc s.size) else s.conns j) ∧ s'.pid2proc pid = some s.size ∧
    ∃ t, s.tree.exec (s.life p).execPoint = some t ∧ runOps start.ops t = some s'.tree := by
  have hreach : Reach o (fun _ _ => True) s' := .step (h.imp fun _ _ _ => trivial) trivial he
  obtain ⟨hlt, -⟩ := h.known.pids pid p hfound
  have hne : p ≠ s.size := hlt.ne
  rw [step, if_pos hcn, newExecedProcess, hfound] at he
  obtain ⟨ps, hps, he⟩ := bind_eq_some_iff.mp (alive_bind he).2
  obtain ⟨hsize, hlife, hproc, htree, hconns, -⟩ := getExecedProcess_spec hlt hstate hps
  obtain ⟨hsize', hlife', hconns', hothers, hchild, hmap, -, -, hops⟩ := acceptExecChild_spec he
  have hlifep : s'.life p = { s.life p with execPending := false, execChild := some s.size } := by
    rw [hlife']
    exact (hlife p).trans (by rw [if_neg hne, if_pos rfl])
  have hlifec : s'.life s.size =
      { execed := true, parent := some p, forkPoint := (s.life p).forkPoint, execPoint := some s.tree.size } := by
    rw [hlife']
    exact (hlife s.size).trans (if_pos rfl)
  have hps' : ps.proc s.size = { pid, fds := (s.proc p).fds.passOn true } := by rw [hproc, if_pos rfl]
  refine ⟨hlifep, hlifec, fun m hm => ?_, ?_, ?_, fun j => ?_, ?_, _, htree, hops⟩
  · refine hreach.nearest ?_ (by rw [hlifec]) (by rw [hlifec]) (by rw [hlifec]) (by rw [hlifep, hm])
    rw [hsize']
    show s.size < ps.size
    omega
  · obtain ⟨-, hfds, -⟩ := idle_eq (hothers p hne)
    rw [hfds]
    show (ps.proc p).fds.hasPipe = false
    rw [hproc, if_neg hne, if_pos rfl]
    exact FdTable.resetPipeRefs_hasPipe _
  · obtain ⟨-, hfds, -⟩ := idle_eq hchild
    rw [hfds]
    show start.fds (ps.proc s.size).fds = _
    rw [hps']
  · rw [hconns']
    show (if j = cn then some (.proc s.size) else ps.conns j) = _
    rw [hconns]
  · rw [hmap]
    show (if pid = (ps.proc s.size).pid then some s.size else s.pid2proc pid) = some s.size
    rw [hps', if_pos rfl]

/-- Before the parent is seen to be gone, a new image is accepted only below qemu, and nothing is cleared. -/
theorem execChild_early (hx : ExecCalled s p pid cp cn) (hrun : (s.life p).state = .running) (hlt : p < s.size)
    (he : s.step o (.scprocQuery cn pid ppid argvMatches isQemu start) = some s') :
    (s'.life p).execPending = true ∧ s'.conns cp = s.conns cp := by
  have hne : p ≠ s.size := hlt.ne
  rw [step, if_pos hx.child, newExecedProcess, hx.found] at he
  obtain ⟨ps, hps, he⟩ := bind_eq_some_iff.mp (alive_bind he).2
  rw [Population.getExecedProcess, if_neg (by simp [hrun])] at hps
  split at hps
  · obtain ⟨-, hlife, -, -, hconns, -⟩ := newExeced_spec hlt hps
    obtain ⟨-, hlife', hconns', -⟩ := acceptExecChild_spec he
    refine ⟨?_, ?_⟩
    · rw [hlife']
      refine (congrArg Life.execPending (hlife p)).trans ?_
      rw [if_neg hne, if_pos rfl]
      exact hx.pending
    · rw [hconns']
      exact (if_neg (conn_ne hx.parent hx.child)).trans (congrFun hconns cp)
  · cases hps

theorem exec_meets_iff (closedFirst : Bool) (h : Reach o P s) (hx : ExecCalled s p pid cp cn)
    (hops : ∀ t, s.tree.exec (s.life p).execPoint = some t → (runOps start.ops t).isSome = true) :
    (∃ s', run o (if closedFirst then [.hangUp cp, .scprocQuery cn pid ppid argvMatches isQemu start]
        else [.scprocQuery cn pid ppid argvMatches isQemu start, .hangUp cp]) s = some s' ∧
      Execed s start p pid cp cn s') ↔ closedFirst = true := by
  obtain ⟨hlt, hrun⟩ := h.footing.conns cp p hx.parent
  have hcpcn : cn ≠ cp := (conn_ne hx.parent hx.child).symm
  constructor
  · rintro ⟨s', hs', hdone⟩
    by_contra hfirst
    rw [if_neg hfirst] at hs'
    obtain ⟨s1, h1, hs'⟩ := bind_eq_some_iff.mp hs'
    obtain ⟨s2, h2, hs'⟩ := bind_eq_some_iff.mp hs'
    cases hs'
    obtain ⟨hpending, hcp⟩ := execChild_early hx hrun hlt h1
    have hstill := (hangUp_pending (hcp.trans hx.parent) h2).1
    rw [hpending, hdone.parent] at hstill
    cases hstill
  · intro hfirst
    rw [if_pos hfirst]
    have hfirst : s.step o (.hangUp cp) = some (s.withPopulation ((s.setConn cp none).setTerminated p)) := by
      have hfinish : (s.setConn cp none).finish o p = some ((s.setConn cp none).setTerminated p) :=
        finish_pending hx.pending hx.notWaited
      rw [step, hangUp, hx.parent]
      simp only [alive_eq hx.alive, bind_some]
      rw [hfinish]
      rfl
    obtain ⟨s1, hs1⟩ : ∃ s1, s1 = s.withPopulation ((s.setConn cp none).setTerminated p) := ⟨_, rfl⟩
    rw [← hs1] at hfirst
    have hreach : Reach o (fun _ _ => True) s1 := .step (h.imp fun _ _ _ => trivial) trivial hfirst
    have hlife : s1.life p = { s.life p with state := .terminated } := by
      rw [hs1]
      exact if_pos rfl
    have hcn : s1.conns cn = some .null := by
      rw [hs1]
      exact (if_neg hcpcn).trans hx.child
    have hfound : s1.pid2proc pid = some p := by
      rw [hs1]
      exact hx.found
    have hrest : s1.size = s.size ∧ s1.tree = s.tree ∧ s1.proc = s.proc ∧ s1.conns cp = none := by
      rw [hs1]
      exact ⟨rfl, rfl, rfl, if_pos rfl⟩
    obtain ⟨hsize, htree, hproc, hclosed⟩ := hrest
    obtain ⟨s', hs'⟩ := execChild_exists ppid isQemu argvMatches hreach hfound hcn
      (by rw [hproc]; exact hx.alive) (by rw [hlife]) (by rw [htree, hlife]; exact hops)
    obtain ⟨hp, hc, hnearest, hpipes, hfds, hconns, hmap, -⟩ := execChild_spec hreach hfound hcn (by rw [hlife]) hs'
    rw [hlife] at hp hc hnearest
    rw [hsize] at hp hc hfds hmap
    rw [htree] at hc hnearest
    rw [hproc] at hfds
    refine ⟨s', by rw [run, hfirst, bind_some, run, hs']; rfl, ⟨hp, hc, hnearest, hpipes, hfds, ⟨?_, ?_⟩, hmap⟩⟩
    · rw [hconns, if_neg (Ne.symm hcpcn), hclosed]
    · rw [hconns, if_pos rfl, hsize]

def readyToExec : List Event :=
  [.connect 0, .scprocQuery 0 10 1 true false {}, .message 0 0 (.exec 0), .connect 1]

theorem readyToExec_meets : ∃ s s', run smallBuild readyToExec (init smallBuild) = some s ∧
    run smallBuild [.hangUp 0, .scprocQuery 1 10 1 true false {}] s = some s' ∧ Execed s {} 1 10 0 1 s' := by
  have hs : run smallBuild readyToExec (init smallBuild) = some _ := rfl
  have hreach : Reach smallBuild (fun _ _ => True) _ := .of_run .init (fun _ _ _ => trivial) hs
  obtain ⟨s', hs', hdone⟩ : ∃ s', run smallBuild [.hangUp 0, .scprocQuery 1 10 1 true false {}] _ = some s' ∧
      Execed _ {} 1 10 0 1 s' := (exec_meets_iff true hreach ⟨rfl, rfl, rfl, rfl, rfl, rfl⟩ fun _ _ => rfl).mpr rfl
  exact ⟨_, s', hs, hs', hdone⟩

/-- The new image is faster than the end of the old connection. -/
theorem exec_child_too_early :
    (run smallBuild (readyToExec ++ [.scprocQuery 1 10 1 true false {}, .hangUp 0]) (init smallBuild)).isNone = true ∧
    (run smallBuild (readyToExec ++ [.hangUp 0, .scprocQuery 1 10 1 true false {}]) (init smallBuild)).isSome = true :=
  ⟨rfl, rfl⟩

/-! ## posix_spawn() -/

/-- posix_spawn() was called, and neither its end nor the child has been heard of. -/
structure SpawnCalled (s : ProcessTree) (p m k pid cp cn : Nat) : Prop where
  parent : s.conns cp = some (.proc p)
  child : s.conns cn = some .null
  alive : (s.proc p).deleted = false
  node : (s.life p).execPoint = some m
  parentPid : (s.proc p).pid = k
  found : s.pid2proc k = some p
  newPid : s.pid2proc pid = none
  expected : (s.proc p).expectedChild.isSome = true
  pending : (s.proc p).posixSpawnPending = true
  noChild : s.posixSpawnChildSock k = none

/-- The process between fork and exec and the one that was spawned. -/
structure Spawned (s : ProcessTree) (start : Start) (actions : List SpawnAction) (p : Nat) (s' : ProcessTree) : Prop where
  fork : s'.life s.size =
    { parent := some p
      forkPoint := s.size
      execPoint := (s.life p).execPoint
      state := .terminated
      execChild := some (s.size + 1) }
  child : s'.life (s.size + 1) =
    { execed := true, parent := some s.size, forkPoint := s.size, execPoint := some s.tree.size }
  fds : (s'.proc (s.size + 1)).fds = start.fds ((spawnFds s p actions).passOn true)
  nearest : ∀ m, (s.life p).execPoint = some m → s'.tree.nearest s.tree.size = s'.tree.closest m

/-- The process between fork and exec, once it is known that there is an exec. -/
def spawnedFork (s : ProcessTree) (p : Nat) : Life :=
  { parent := some p, forkPoint := s.size, execPoint := (s.life p).execPoint, state := .terminated }

variable {actions : List SpawnAction} {ops : List TreeOp} {ps' : Population} {a m : Nat}

/-- The child that appears is expected, and everything above its parent is disabled if it is not the one. -/
theorem popExpectedChild_expected (ht : ps.tree.Inv) (hnode : (ps.life p).execPoint = some m)
    (hexpected : (ps.proc p).expectedChild.isSome = true) (argvMatches : Bool) :
    ∃ env ps', ps.popExpectedChild p argvMatches = some (env, ps') ∧
      Disabled ps.tree (fun q => argvMatches = false ∧ AtOrAbove ps.tree.up m q) ps'.tree := by
  obtain ⟨e, he⟩ := Option.isSome_iff_exists.mp hexpected
  cases argvMatches with
  | true =>
    refine ⟨some e, ps.modifyProc p ({ · with expectedChild := none }), ?_, ht, rfl, rfl, by simp [modifyProc]⟩
    rw [Population.popExpectedChild, he]
    rfl
  | false =>
    obtain ⟨t, hdis, hd⟩ := (TreeOp.disableShortcuttingBubbleUp m
      "Unexpected system/popen/posix_spawn child appeared").run_spec ht trivial
    have hps : ps.disableShortcuttingBubbleUp p "Unexpected system/popen/posix_spawn child appeared" =
        some (ps.setTree t) := by
      rw [Population.disableShortcuttingBubbleUp, hnode]
      exact congrArg (Option.map _) hdis
    refine ⟨none, (ps.setTree t).modifyProc p ({ · with expectedChild := none }), ?_, ?_⟩
    · rw [Population.popExpectedChild, he]
      simp only [hps]
      rfl
    exact ⟨hd.inv, hd.size, hd.up, fun q => (hd.can q).trans (by simp [TreeOp.Disables])⟩

theorem message_exists {msg : Message} (hcp : s.conns cp = some (.proc p)) (halive : (s.proc p).deleted = false)
    (h1 : msg.process o s p cp a = some (now, s1)) : ∃ s', s.step o (.message cp a msg) = some s' := by
  rw [step, message, hcp]
  simp only [alive_eq halive, bind_some, h1]
  exact ⟨_, rfl⟩

variable (p pid actions) in
theorem addSpawnedFork_exists (ht : runOps ops s.tree = some t) : ∃ s', s.addSpawnedFork p pid actions ops = some s' := by
  rw [addSpawnedFork]
  have htree : ((s.withPopulation (s.getForkedProcess p pid)).insert s.size).tree = s.tree := rfl
  rw [htree, ht]
  exact ⟨_, rfl⟩

variable (start actions a) in
/-- The parent's message is first: the process between fork and exec waits for the exec. -/
theorem spawnParent_parks (h : Reach o P s) (hc : SpawnCalled s p m k pid cp cn)
    (hops : ∀ op ∈ ops, op.Runs s.tree.up) :
    ∃ s', s.step o (.message cp a (.posixSpawnParent pid actions ops true start)) = some s' ∧
    s'.size = s.size + 1 ∧ Disabled s.tree (Clears ops s.tree.up) s'.tree ∧
    s'.life s.size = { spawnedFork s p with execPending := true } ∧
    (s'.proc s.size).deleted = false ∧ (s'.proc s.size).fds = spawnFds s p actions ∧ s'.pid2proc pid = some s.size ∧
    s'.conns cn = some .null := by
  obtain ⟨hlt, -⟩ := h.footing.conns cp p hc.parent
  have hne : s.size ≠ p := hlt.ne'
  obtain ⟨t, ht, hd⟩ := Population.runOps_spec h.footing.shape.tree hops
  obtain ⟨s2, h2⟩ := addSpawnedFork_exists p pid actions ht
  obtain ⟨hsize, htree, hlife, hproc, hprocp, hmap, hconns, hsock⟩ := addSpawnedFork_spec hlt h2
  obtain rfl := Option.some.inj (ht.symm.trans htree)
  have hnode : (s2.life p).execPoint = some m := by rw [hlife, if_neg hne.symm, if_pos rfl, hc.node]
  have hexpected : (s2.proc p).expectedChild.isSome = true := by rw [hprocp]; exact hc.expected
  obtain ⟨env, ps, hps, hpop⟩ := popExpectedChild_expected hd.inv hnode hexpected true
  obtain ⟨⟨hsize', hlife', hconns', -⟩, hproc', -⟩ := popExpectedChild_spec hps
  have hnone : s2.posixSpawnChildSock (s2.proc p).pid = none := by rw [hsock, hprocp, hc.parentPid, hc.noChild]
  have h1 : Message.process o s p cp a (.posixSpawnParent pid actions ops true start) = some (true, s2.withPopulation
      ((ps.modifyLife s.size ({ · with execPending := true })).setTerminated s.size)) := by
    rw [Message.process, posixSpawnParent, h2, bind_some, spawnedProcess, hnone]
    simp only [hps]
    rfl
  obtain ⟨s', he⟩ := message_exists hc.parent hc.alive h1
  refine ⟨s', he, ?_⟩
  obtain ⟨now, s1, sent, h1', rfl⟩ := message_spec hc.parent he
  obtain ⟨-, rfl⟩ := Prod.mk.inj (Option.some.inj (h1.symm.trans h1'))
  have hlifef : ((ps.modifyLife s.size ({ · with execPending := true })).setTerminated s.size).life s.size =
      { spawnedFork s p with execPending := true } := by
    simp [spawnedFork, Population.modifyLife, Population.setTerminated, Lives.modify, Lives.setTerminated, hlife', hlife]
  have hprocf : ps.proc s.size = { pid, fds := spawnFds s p actions } := by rw [hproc', if_neg hne, hproc]
  have hd' : Disabled s.tree (Clears ops s.tree.up) ps.tree :=
    ⟨hpop.inv, hpop.size.trans hd.size, hpop.up.trans hd.up, fun q => by simp [hpop.can, hd.can]⟩
  have hmap' : s2.pid2proc pid = some s.size := by rw [hmap, if_pos rfl]
  have hcn : ps.conns cn = some .null := by rw [hconns', hconns, hc.child]
  exact ⟨hsize'.trans hsize, hd', hlifef, congrArg Population.Process.deleted hprocf,
    congrArg Population.Process.fds hprocf, hmap', hcn⟩

/-- The child is first: it is queued without a parent. -/
theorem spawnChild_queues (h : Reach o P s) (hc : SpawnCalled s p m k pid cp cn) (hsup : k ≠ o.supervisor)
    (argvMatches isQemu : Bool) (start : Start) :
    ∃ s' t, s.step o (.scprocQuery cn pid k argvMatches isQemu start) = some s' ∧
    s'.size = s.size ∧ s'.life = s.life ∧ Disabled s.tree (fun q => argvMatches = false ∧ AtOrAbove s.tree.up m q) t ∧
    t.exec none = some s'.tree ∧ s'.proc p = { s.proc p with expectedChild := none } ∧ s'.conns cp = some (.proc p) ∧
    s'.posixSpawnChildSock k = some ⟨cn, s.tree.size, pid⟩ := by
  have hcpcn : cp ≠ cn := conn_ne hc.parent hc.child
  obtain ⟨env, ps, hps, hd⟩ := popExpectedChild_expected h.footing.shape.tree hc.node hc.expected argvMatches
  obtain ⟨⟨hsize, hlife, hconns, -⟩, hproc, -⟩ := popExpectedChild_spec hps
  have hprocp : ps.proc p = { s.proc p with expectedChild := none } := by rw [hproc, if_pos rfl]
  obtain ⟨t, ht, -⟩ := hd.inv.exec (by simp : ∀ q ∈ (none : Option Nat), q < ps.tree.size)
  have hspawn : ((s.withPopulation ps).proc p).posixSpawnPending = true := by
    show (ps.proc p).posixSpawnPending = true
    rw [hprocp]
    exact hc.pending
  have htree : (s.withPopulation ps).tree.exec none = some t := ht
  have he : s.step o (.scprocQuery cn pid k argvMatches isQemu start) =
      (s.withPopulation ps).queuePosixSpawnChild cn pid k isQemu := by
    rw [step, if_pos hc.child, newExecedProcess, hc.newPid]
    simp only [if_neg hsup, hc.found, alive_eq hc.alive, hps, bind_some]
    rw [if_pos hspawn]
  rw [queuePosixSpawnChild, htree, Option.map_some] at he
  refine ⟨_, ps.tree, he, hsize, hlife, hd, ht, hprocp, ?_, ?_⟩
  · show (if cp = cn then _ else ps.conns cp) = _
    rw [if_neg hcpcn, hconns, hc.parent]
  · show (if k = k then some ⟨cn, ps.tree.size, pid⟩ else _) = some (⟨cn, s.tree.size, pid⟩ : ExecChildSock)
    rw [if_pos rfl, hd.size]

theorem adopt_spec (he : ps.adopt f pid node = some ps') : ps'.size = ps.size + 1 ∧
    (∀ q, ps'.life q =
      if q = ps.size then { execed := true, parent := some f, forkPoint := (ps.life f).forkPoint, execPoint := some node }
      else if q = f then { ps.life f with execChild := some ps.size }
      else ps.life q) ∧
    ∀ q, ps'.proc q = if q = ps.size then { pid, fds := (ps.proc f).fds.passOn true } else ps.proc q := by
  obtain ⟨n, -, he⟩ := bind_eq_some_iff.mp he
  obtain ⟨t, -, rfl⟩ := map_eq_some_iff.mp he
  exact ⟨rfl, fun q => congrArg (ite _ _) (ite_at ps.life ({ · with execChild := some ps.size }) f q), fun _ => rfl⟩

variable (o pid actions a) in
/-- The parent's message finds the child that was queued. -/
theorem spawnParent_adopts (hlt : p < s.size) (halive : (s.proc p).deleted = false)
    (hnode : (s.life p).execPoint = some m) (hcp : s.conns cp = some (.proc p))
    (hx : s.posixSpawnChildSock (s.proc p).pid = some x) (h1 : runOps ops s.tree = some t)
    (h2 : t.setParent x.node m = some t') (h3 : runOps start.ops t' = some t'') (argvMatches : Bool) :
    ∃ s', s.step o (.message cp a (.posixSpawnParent pid actions ops argvMatches start)) = some s' ∧
    s'.tree = t'' ∧ s'.size = s.size + 2 ∧
    s'.life s.size = { spawnedFork s p with execChild := some (s.size + 1) } ∧
    s'.life (s.size + 1) = { execed := true, parent := some s.size, forkPoint := s.size, execPoint := some x.node } ∧
    (s'.proc s.size).fds = spawnFds s p actions ∧
    (s'.proc (s.size + 1)).fds = start.fds ((spawnFds s p actions).passOn true) := by
  obtain ⟨s2, hfork⟩ := addSpawnedFork_exists p pid actions h1
  obtain ⟨hsize, htree, hlife, hproc, hprocp, -, -, hsock⟩ := addSpawnedFork_spec hlt hfork
  obtain rfl := Option.some.inj (h1.symm.trans htree)
  have hfound : s2.posixSpawnChildSock (s2.proc p).pid = some x := by rw [hsock, hprocp, hx]
  have hlifef2 : (s2.life s.size).execPoint = some m := by rw [hlife, if_pos rfl]; exact hnode
  obtain ⟨ps, hps⟩ : ∃ ps, s2.adopt s.size x.pid x.node = some ps := by
    rw [Population.adopt, hlifef2, bind_some, h2]
    exact ⟨_, rfl⟩
  obtain ⟨hsize', hlife', hproc'⟩ := adopt_spec hps
  have htree' : ps.tree = t' := by
    obtain ⟨n, t1, hn, ht1, hlives, -⟩ := adopt_eq hps
    obtain rfl := Option.some.inj (hlifef2.symm.trans hn)
    rw [hlives]
    exact Option.some.inj (ht1.symm.trans h2)
  have hops : (runOps start.ops ps.tree).isSome = true := by rw [htree', h3]; rfl
  have hnodec : (ps.life s2.size).execPoint.isSome = true := by rw [hlife', if_pos rfl]; rfl
  obtain ⟨s4, h4⟩ :=
    acceptExecChild_exists (s := s2.withPopulation (ps.setConn x.sock (some (.proc s2.size)))) x.sock hops hnodec
  obtain ⟨hsize4, hlife4, -, hothers, hchild, -, -, -, htree4⟩ := acceptExecChild_spec h4
  have hprocess : Message.process o s p cp a (.posixSpawnParent pid actions ops argvMatches start) = some (true,
      (s4.setSock (s2.proc p).pid none).withPopulation ((s4.setSock (s2.proc p).pid none).setTerminated s.size)) := by
    rw [Message.process, posixSpawnParent, hfork, bind_some, spawnedProcess, hfound]
    simp only [adoptPosixSpawnChild, hps, bind_some, h4]
    rfl
  obtain ⟨s', he⟩ := message_exists hcp halive hprocess
  refine ⟨s', he, ?_⟩
  obtain ⟨now, s1, sent, hprocess', rfl⟩ := message_spec hcp he
  obtain ⟨-, rfl⟩ := Prod.mk.inj (Option.some.inj (hprocess.symm.trans hprocess'))
  have hfc : s.size ≠ s2.size := by omega
  have hlifef : (s4.toLives.setTerminated s.size).life s.size = { spawnedFork s p with execChild := some (s.size + 1) } := by
    have hf : s4.life s.size = { s2.life s.size with execChild := some s2.size } := by
      rw [hlife4]
      exact (hlife' s.size).trans (by rw [if_neg hfc, if_pos rfl])
    simp [spawnedFork, Lives.setTerminated, Lives.modify, hf, hlife, hsize]
  have hlifec : (s4.toLives.setTerminated s.size).life (s.size + 1) =
      { execed := true, parent := some s.size, forkPoint := s.size, execPoint := some x.node } := by
    have hc : s4.life (s.size + 1) =
        { execed := true, parent := some s.size, forkPoint := (s2.life s.size).forkPoint, execPoint := some x.node } := by
      rw [hlife4]
      exact (hlife' (s.size + 1)).trans (if_pos hsize.symm)
    simp [Lives.setTerminated, Lives.modify, hc, hlife]
  have hfdsf : (s4.proc s.size).fds = spawnFds s p actions := by
    obtain ⟨-, hfds, -⟩ := idle_eq (hothers s.size hfc)
    rw [hfds]
    show (ps.proc s.size).fds = _
    rw [hproc', if_neg hfc, hproc]
  have hfdsc : (s4.proc (s.size + 1)).fds = start.fds ((spawnFds s p actions).passOn true) := by
    obtain ⟨-, hfds, -⟩ := idle_eq hchild
    rw [hsize] at hfds
    rw [hfds]
    show start.fds (ps.proc (s.size + 1)).fds = _
    rw [hproc', if_pos hsize.symm, hproc]
  have hsize2 : s4.size = s.size + 2 := by
    rw [hsize4]
    show ps.size = _
    omega
  have htreeEnd : s4.tree = t'' := by
    have hrun : runOps start.ops ps.tree = some s4.tree := htree4
    rw [htree'] at hrun
    exact Option.some.inj (hrun.symm.trans h3)
  exact ⟨htreeEnd, hsize2, hlifef, hlifec, hfdsf, hfdsc⟩

/-- What the file actions and the start of the child disable is about nodes that there are. -/
structure OpsRun (s : ProcessTree) (m : Nat) (ops startOps : List TreeOp) : Prop where
  known : ∀ op ∈ ops, s.tree.size ∉ op.nodes
  runs : ∀ op ∈ ops, op.Runs s.tree.up
  startRuns : ∀ op ∈ startOps, op.Runs (s.tree.upBelow m)

/-- The parent's message and that of the child. -/
def spawnEvents (parentFirst : Bool) (cp a cn pid k : Nat) (actions : List SpawnAction) (ops : List TreeOp)
    (argvMatches childMatches isQemu : Bool) (start : Start) : List Event :=
  let parent := .message cp a (.posixSpawnParent pid actions ops argvMatches start)
  let child := .scprocQuery cn pid k childMatches isQemu start
  if parentFirst then [parent, child] else [child, parent]

variable (isQemu actions a) in
/-- Both orders: who is linked to whom, what is disabled, and that pipes are kept if the child was first. -/
theorem spawn_meets (parentFirst childMatches : Bool) (h : Reach o P s) (hc : SpawnCalled s p m k pid cp cn)
    (hsup : k ≠ o.supervisor) (hops : OpsRun s m ops start.ops) :
    ∃ s', run o (spawnEvents parentFirst cp a cn pid k actions ops true childMatches isQemu start) s = some s' ∧
    Spawned s start actions p s' ∧
    ((s'.proc s.size).fds.hasPipe = false ↔ parentFirst = true ∨ (spawnFds s p actions).hasPipe = false) ∧
    s.tree.Extended m (fun q => Clears (ops ++ start.ops) (s.tree.upBelow m) q ∨
      (parentFirst = false ∧ childMatches = false) ∧ AtOrAbove s.tree.up m q) s'.tree := by
  have h := h.imp fun _ _ _ => trivial
  have ht := h.footing.shape.tree
  obtain ⟨hlt, -⟩ := h.footing.conns cp p hc.parent
  have hm : m < s.tree.size := h.footing.shape.execPoint_lt p m hlt hc.node
  cases parentFirst with
  | true =>
    obtain ⟨s1, h1, hsize, hd, hlife, halive, hfds, hfound, hcn⟩ :=
      spawnParent_parks start actions a h hc hops.runs
    have hnode : (s1.life s.size).execPoint = some m := by rw [hlife]; exact hc.node
    obtain ⟨t2, t3, ht2, ht3, hext⟩ := hd.exec ht hm hops.known hops.startRuns
    have hreach1 : Reach o (fun _ _ => True) s1 := .step h trivial h1
    have hstart : ∀ t, s1.tree.exec (s1.life s.size).execPoint = some t → (runOps start.ops t).isSome = true := by
      intro t ht
      rw [hnode, ht2] at ht
      rw [← Option.some.inj ht, ht3]
      rfl
    obtain ⟨s2, h2⟩ := execChild_exists k isQemu childMatches hreach1 hfound hcn halive (by rw [hlife]; rfl) hstart
    obtain ⟨hfork, hchild, hnearest, hpipes, hfds', -, -, t, ht, hrun⟩ :=
      execChild_spec hreach1 hfound hcn (by rw [hlife]; rfl) h2
    rw [hnode, ht2] at ht
    rw [← Option.some.inj ht, ht3] at hrun
    rw [hlife, hsize] at hfork hchild
    rw [hd.size] at hchild hnearest
    rw [hsize, hfds] at hfds'
    rw [hlife] at hnearest
    refine ⟨s2, ?_, ⟨hfork, hchild, hfds', hnearest⟩, by simp [hpipes], ?_⟩
    · rw [spawnEvents, if_pos rfl, run, h1, bind_some, run, h2]
      rfl
    · rw [← Option.some.inj hrun]
      simpa using hext
  | false =>
    obtain ⟨s1, t1, h1, hsize, hlife, hd, ht2, hproc, hcp, hsock⟩ := spawnChild_queues h hc hsup childMatches isQemu start
    obtain ⟨t2, t3, t4, t5, ht2', ht3, ht4, ht5, hext⟩ := hd.adopted ht hm hops.known hops.runs hops.startRuns
    rw [← Option.some.inj (ht2.symm.trans ht2')] at ht3
    have htable : spawnFds s1 p actions = spawnFds s p actions := by rw [spawnFds, hproc, spawnFds]
    obtain ⟨s2, h2, rfl, hsize2, hfork, hchild, hfdsf, hfdsc⟩ := spawnParent_adopts o pid actions a
      (hsize ▸ hlt) (by rw [hproc]; exact hc.alive) (by rw [hlife]; exact hc.node) hcp
      (by rw [hproc, hc.parentPid]; exact hsock) ht3 ht4 ht5 true
    have hreach2 : Reach o (fun _ _ => True) s2 := .step (.step h trivial h1) trivial h2
    rw [spawnedFork, hsize, hlife] at hfork
    rw [hsize] at hchild hsize2
    rw [hsize, htable] at hfdsf hfdsc
    refine ⟨s2, ?_, ⟨hfork, hchild, hfdsc, fun m hm => ?_⟩, by simp [hfdsf], by simpa using hext⟩
    · rw [spawnEvents, if_neg Bool.false_ne_true, run, h1, bind_some, run, h2]
      rfl
    · exact hreach2.nearest (c := s.size + 1) (by omega) (by rw [hchild]) (by rw [hchild]) (by rw [hchild])
        (by rw [hfork, hm])

variable {oldLibc : Bool} {actual args : List Arg}

theorem argvMatches_self (h : argvMatchesExpectation oldLibc args args = some argvMatches) : argvMatches = true := by
  rw [argvMatchesExpectation, if_pos rfl] at h
  simpa using h.symm

variable (isQemu actions a) in
/-- The expectation is `args`; the parent's message repeats it, and the child signs in with `actual`. -/
theorem spawn_meets_iff {childMatches : Bool} (h : Reach o P s) (hc : SpawnCalled s p m k pid cp cn)
    (hsup : k ≠ o.supervisor) (hops : OpsRun s m ops start.ops)
    (hparent : argvMatchesExpectation oldLibc args args = some argvMatches)
    (hchild : argvMatchesExpectation oldLibc actual args = some childMatches) :
    ∃ s₁ s₂, run o (spawnEvents true cp a cn pid k actions ops argvMatches childMatches isQemu start) s = some s₁ ∧
      run o (spawnEvents false cp a cn pid k actions ops argvMatches childMatches isQemu start) s = some s₂ ∧
      Spawned s start actions p s₁ ∧ Spawned s start actions p s₂ ∧ (s₁.proc s.size).fds.hasPipe = false ∧
      ((s₂.proc s.size).fds.hasPipe = false ∧ s₂.tree.nearest s.tree.size = s₁.tree.nearest s.tree.size ↔
        (spawnFds s p actions).hasPipe = false ∧ (argvMatchesExpectation oldLibc actual args = some true ∨
          ∀ q, AtOrAbove s.tree.up m q → s.tree.can q = true → Clears (ops ++ start.ops) (s.tree.upBelow m) q)) := by
  obtain rfl := argvMatches_self hparent
  obtain ⟨s₁, hrun₁, hdone₁, hpipes₁, hext₁⟩ :=
    spawn_meets isQemu actions a true childMatches h hc hsup hops
  obtain ⟨s₂, hrun₂, hdone₂, hpipes₂, hext₂⟩ :=
    spawn_meets isQemu actions a false childMatches h hc hsup hops
  refine ⟨s₁, s₂, hrun₁, hrun₂, hdone₁, hdone₂, hpipes₁.mpr (.inl rfl), ?_⟩
  have hlt := (h.footing.conns cp p hc.parent).1
  have hnearest := ExecTree.Extended.nearest_eq_iff h.footing.shape.tree
    (h.footing.shape.execPoint_lt p m hlt hc.node) (by simpa using hext₁) hext₂
  rw [hpipes₂, hnearest, hchild]
  cases childMatches <;> simp

variable (isQemu actions a) in
/-- `maybe_rewrite()` made `r` of `args`: the parent, which nothing else disables, stays shortcutable if its own
    message is handled first, or the rewritten arguments are recognised. -/
theorem rewritten_is_recognised_iff {cfg : Cfg} {executable e : Arg} {r : List Arg} {childMatches : Bool}
    (parentFirst : Bool) (h : Reach o P s) (hc : SpawnCalled s p m k pid cp cn) (hsup : k ≠ o.supervisor)
    (hops : OpsRun s m ops start.ops) (hcan : s.tree.can m = true)
    (hkeeps : ¬Clears (ops ++ start.ops) (s.tree.upBelow m) m)
    (hr : maybeRewrite cfg executable args = some (e, r))
    (hparent : argvMatchesExpectation oldLibc args args = some argvMatches)
    (hchild : argvMatchesExpectation oldLibc r args = some childMatches) :
    ∃ s', run o (spawnEvents parentFirst cp a cn pid k actions ops argvMatches childMatches isQemu start) s = some s' ∧
      (s'.tree.can m = true ↔ parentFirst = true ∨ Recognisable cfg executable args) := by
  obtain rfl := argvMatches_self hparent
  obtain ⟨s', hrun, -, -, hext⟩ :=
    spawn_meets isQemu actions a parentFirst childMatches h hc hsup hops
  have ht := h.footing.shape.tree
  have hm : m < s.tree.size := h.footing.shape.execPoint_lt p m (h.footing.conns cp p hc.parent).1 hc.node
  have hself : AtOrAbove s.tree.up m m := by
    obtain ⟨l, hl⟩ := ht.chain m
    exact ⟨l, hl, List.mem_cons_self⟩
  refine ⟨s', hrun, ?_⟩
  rw [hext.can m hm.ne, ← CommandRewriter.rewritten_accepted_iff oldLibc hr, hchild]
  cases parentFirst <;> cases childMatches <;> simp [hcan, hkeeps, hself]

def readyToSpawn : List Event :=
  [.connect 0, .scprocQuery 0 10 1 true false {}, .message 0 0 .posixSpawn, .connect 1]

theorem readyToSpawn_called : ∃ s, run smallBuild readyToSpawn (init smallBuild) = some s ∧
    Reach smallBuild (fun _ _ => True) s ∧ SpawnCalled s 1 0 10 11 0 1 ∧ s.tree.can 0 = true ∧
    (spawnFds s 1 [.close 1, .close 2]).hasPipe = false := by
  obtain ⟨s, hs, hrest⟩ : ∃ s, run smallBuild readyToSpawn (init smallBuild) = some s ∧ SpawnCalled s 1 0 10 11 0 1 ∧
      s.tree.can 0 = true ∧ (spawnFds s 1 [.close 1, .close 2]).hasPipe = false :=
    ⟨_, rfl, ⟨rfl, rfl, rfl, rfl, rfl, rfl, rfl, rfl, rfl, rfl⟩, rfl, rfl⟩
  exact ⟨s, hs, .of_run .init (fun _ _ _ => trivial) hs, hrest⟩

theorem readyToSpawn_meets : ∃ s s₁ s₂, run smallBuild readyToSpawn (init smallBuild) = some s ∧
    run smallBuild (spawnEvents true 0 1 1 11 10 [.close 1, .close 2] [] true true false {}) s = some s₁ ∧
    run smallBuild (spawnEvents false 0 1 1 11 10 [.close 1, .close 2] [] true true false {}) s = some s₂ ∧
    Spawned s {} [.close 1, .close 2] 1 s₁ ∧ Spawned s {} [.close 1, .close 2] 1 s₂ ∧
    (s₂.proc s.size).fds.hasPipe = false ∧ s₂.tree.nearest s.tree.size = s₁.tree.nearest s.tree.size := by
  obtain ⟨s, hs, hreach, hcalled, -, hpipes⟩ := readyToSpawn_called
  have hargs : argvMatchesExpectation false ["true".toList] ["true".toList] = some true := by decide
  have hops : OpsRun s 0 [] (Start.ops {}) := ⟨by simp, by simp, by simp⟩
  obtain ⟨s₁, s₂, h₁, h₂, hdone₁, hdone₂, -, hsame⟩ :=
    spawn_meets_iff false [.close 1, .close 2] 1 hreach hcalled (by decide) hops hargs hargs
  obtain ⟨hpipes₂, hnearest⟩ := hsame.mpr ⟨hpipes, .inl (by decide)⟩
  exact ⟨s, s₁, s₂, hs, h₁, h₂, hdone₁, hdone₂, hpipes₂, hnearest⟩

/-- Process 2 is the one between fork and exec, with stdout at fd 3: it keeps its pipes if the child was first. And
    if the child is not the expected one, the first node is its nearest ancestor or not. -/
theorem spawned_child_first_keeps_pipes :
    let after (parentFirst childMatches : Bool) := (run smallBuild (readyToSpawn ++
      spawnEvents parentFirst 0 1 1 11 10 [.dup2 1 3] [] true childMatches false {}) (init smallBuild)).map fun s =>
        ((s.life 2).state, (s.life 2).execChild, (s.proc 2).fds.hasPipe, s.tree.nearest 1)
    after true true = some (.terminated, some 3, false, some (some 0)) ∧
    after false true = some (.terminated, some 3, true, some (some 0)) ∧
    after true false = some (.terminated, some 3, false, some (some 0)) ∧
    after false false = some (.terminated, some 3, true, some none) :=
  ⟨rfl, rfl, rfl, rfl⟩

/-- A static command without arguments. -/
theorem emulated_is_recognised : ∃ s s', run smallBuild readyToSpawn (init smallBuild) = some s ∧
    maybeRewrite ⟨fun _ => false, some "qemu".toList, fun _ => true⟩ "/bin/true".toList ["true".toList] =
      some ("qemu".toList, CommandRewriter.toArgs ["qemu", "-libc-syscalls", "/bin/true"]) ∧
    run smallBuild (spawnEvents false 0 1 1 11 10 [] [] true true false {}) s = some s' ∧ s'.tree.can 0 = true := by
  obtain ⟨s, hs, hreach, hcalled, hcan, -⟩ := readyToSpawn_called
  have hr : maybeRewrite ⟨fun _ => false, some "qemu".toList, fun _ => true⟩ "/bin/true".toList ["true".toList] =
      some ("qemu".toList, CommandRewriter.toArgs ["qemu", "-libc-syscalls", "/bin/true"]) := by decide
  have hargs : argvMatchesExpectation false ["true".toList] ["true".toList] = some true := by decide
  have hchild : argvMatchesExpectation false (CommandRewriter.toArgs ["qemu", "-libc-syscalls", "/bin/true"])
      ["true".toList] = some true := by decide
  have hops : OpsRun s 0 [] (Start.ops {}) := ⟨by simp, by simp, by simp⟩
  obtain ⟨s', hs', hcan'⟩ :=
    rewritten_is_recognised_iff false [] 1 false hreach hcalled (by decide) hops hcan (by simp [Clears]) hr hargs hchild
  refine ⟨s, s', hs, hr, hs', hcan'.mpr (.inr ⟨?_, ?_, fun _ => ⟨_, _, rfl, by decide⟩⟩)⟩
  · unfold CommandRewriter.SphinxRule
    decide
  · unfold CommandRewriter.ClangRule
    decide

/-- "-Xclang -fno-pch-timestamp" is inserted: the parent is disabled if the child is first. -/
theorem a_rewritten_command_is_unexpected :
    let args := CommandRewriter.toArgs ["clang", "-emit-pch", "a.h"]
    let after (parentFirst childMatches : Bool) := (run smallBuild (readyToSpawn ++
      spawnEvents parentFirst 0 1 1 11 10 [] [] true childMatches false {}) (init smallBuild)).map (·.tree.can 0)
    ∃ r, maybeRewrite ⟨fun _ => false, none, fun _ => false⟩ "/usr/bin/clang".toList args =
        some ("/usr/bin/clang".toList, r) ∧
      argvMatchesExpectation false r args = some false ∧ after true false = some true ∧ after false false = some false :=
  ⟨_, rfl, by decide, rfl, rfl⟩

end ProcessTree
end Firebuild
