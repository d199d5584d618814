/-
  Firebuild.Footprint — what a change leaves alone.

  A change touches some connections, closes at most one, and is about some pids. Everything else
  stays as it is, however much is finalized on the way (`Touches`):
    - the other connections;
    - what the maps and queues hold for the other pids;
    - a process of another pid that runs, or whose exec child runs: its links, its fds and
      what it waits for.
  An entry of a queue is there already or belongs to a connection that is touched.

  Besides, no process refers to one that is not there (`Known`).
-/

import Firebuild.ProcessTree
import Firebuild.Settling

namespace Firebuild

/-- Without what others find out about a process. -/
def calm (l : Life) : Life := { l with beenWaitedFor := false, orphan := false, hasOrphanDescendant := false }

variable {l l' : Life}

theorem calm_eq (h : calm l' = calm l) : l'.execed = l.execed ∧ l'.parent = l.parent ∧
    l'.forkPoint = l.forkPoint ∧ l'.execPoint = l.execPoint ∧ l'.state = l.state ∧ l'.execChild = l.execChild ∧
    l'.forkChildren = l.forkChildren ∧ l'.execPending = l.execPending ∧ l'.hasPendingPopen = l.hasPendingPopen := by
  simpa [calm] using h

theorem calm_of_steady (h : steady l' = steady l) (hstate : l'.state = l.state) : calm l' = calm l := by
  obtain ⟨h1, h2, h3, h4, h5, h6, h7, h8, -⟩ := steady_eq h
  simp [calm, h1, h2, h3, h4, h5, h6, h7, h8, hstate]

namespace Population

/-- Without how the process ended. -/
def idle (x : Process) : Process := { x with exitStatus := -1, onFinalizedAck := none, deleted := false }

variable {x x' : Process}

theorem idle_eq (h : idle x' = idle x) : x'.pid = x.pid ∧ x'.fds = x.fds ∧
    x'.posixSpawnPending = x.posixSpawnPending ∧ x'.expectedChild = x.expectedChild ∧
    x'.systemChild = x.systemChild ∧ x'.fd2popenChild = x.fd2popenChild := by
  simpa [idle] using h

theorem idle_of_rest (h : rest x' = rest x) (hfds : x'.fds = x.fds) : idle x' = idle x := by
  obtain ⟨h1, h2, h3, h4, h5, -, -⟩ := rest_eq h
  simp [idle, h1, h2, h3, h4, h5, hfds]

variable {s s' s'' : Population} {o : Options} {cs js ks : List Nat} {p q c i k : Nat} {α : Type}

theorem entry_new {f : Nat → Option α} {x : α} {P : α → Prop}
    (ha : ∀ x, a = some x → P x) (hx : (if i = k then a else f i) = some x) : f i = some x ∨ P x := by
  split at hx
  · exact .inr (ha x hx)
  · exact .inl hx

theorem entry_kept {f : Nat → α} (hk : k ∈ ks) (hi : i ∉ ks) : (if i = k then a else f i) = f i :=
  if_neg fun he : i = k => hi (he ▸ hk)

theorem modifyProc_proc : (s.modifyProc p f).proc q = if q = p then f (s.proc p) else s.proc q := by
  by_cases hq : q = p <;> simp [modifyProc, hq]

/-- A process of another pid that runs, or whose exec child does. The root is not meant. -/
def Busy (ks : List Nat) (s : Population) (q : Nat) : Prop :=
  q ≠ 0 ∧ (s.proc q).pid ∉ ks ∧ ((s.life q).state = .running ∨
    ∃ c, (s.life q).execChild = some c ∧ c ≠ 0 ∧ c < s.size ∧ (s.life c).state = .running ∧ (s.proc c).pid ∉ ks)

/-- A process of a pid that is touched, the root, or one that was not there. -/
def Mine (ks : List Nat) (s : Population) (p : Nat) : Prop := (s.proc p).pid ∈ ks ∨ p = 0 ∨ s.size ≤ p

theorem Mine.not_busy (h : Mine ks s p) (hp : p < s.size) : ¬Busy ks s p := fun hb =>
  h.elim hb.2.1 fun h => h.elim hb.1 (not_le.mpr hp)

/-- The footprint of a change: the connections it closes, those it touches, and pids. -/
structure Spares (cs js ks : List Nat) (s s' : Population) : Prop where
  size : s.size ≤ s'.size
  pid : ∀ q, q < s.size → (s'.proc q).pid = (s.proc q).pid
  conns : ∀ j, j ∉ js → s'.conns j = s.conns j
  closed : ∀ j, s'.conns j = none → s.conns j = none ∨ j ∈ cs
  sock : ∀ k x, s'.posixSpawnChildSock k = some x → s.posixSpawnChildSock k = some x ∨ x.sock ∈ js
  busy : ∀ q, q < s.size → Busy ks s q → calm (s'.life q) = calm (s.life q) ∧ idle (s'.proc q) = idle (s.proc q)

namespace Spares

theorem keeps_busy (h : Spares cs js ks s s') (hq : q < s.size) (hb : Busy ks s q) : Busy ks s' q := by
  obtain ⟨hlife, -⟩ := h.busy q hq hb
  obtain ⟨-, -, -, -, hstate, hchild, -⟩ := calm_eq hlife
  obtain ⟨h0, hpid, hrun⟩ := hb
  refine ⟨h0, by rw [h.pid q hq]; exact hpid, ?_⟩
  rcases hrun with hrun | ⟨c, hc, hc0, hcs, hcrun, hcpid⟩
  · exact .inl (hstate.trans hrun)
  obtain ⟨hclife, -⟩ := h.busy c hcs ⟨hc0, hcpid, .inl hcrun⟩
  refine .inr ⟨c, hchild.trans hc, hc0, hcs.trans_le h.size, ?_, by rw [h.pid c hcs]; exact hcpid⟩
  exact (calm_eq hclife).2.2.2.2.1.trans hcrun

theorem refl (s : Population) : Spares cs js ks s s :=
  ⟨le_rfl, fun _ _ => rfl, fun _ _ => rfl, fun _ => .inl, fun _ _ => .inl, fun _ _ _ => ⟨rfl, rfl⟩⟩

theorem trans (h : Spares cs js ks s s') (h' : Spares cs js ks s' s'') : Spares cs js ks s s'' := by
  refine ⟨h.size.trans h'.size, fun q hq => ?_, fun j hj => (h'.conns j hj).trans (h.conns j hj),
    fun j hj => (h'.closed j hj).elim (h.closed j) .inr, fun k x hx => ?_,
    fun q hq hb => ?_⟩
  · exact (h'.pid q (hq.trans_le h.size)).trans (h.pid q hq)
  · exact (h'.sock k x hx).elim (h.sock k x) .inr
  obtain ⟨hlife, hproc⟩ := h.busy q hq hb
  obtain ⟨hlife', hproc'⟩ := h'.busy q (hq.trans_le h.size) (h.keeps_busy hq hb)
  exact ⟨hlife'.trans hlife, hproc'.trans hproc⟩

theorem of_conns (hconns : s'.conns = s.conns) (hsock : s'.posixSpawnChildSock = s.posixSpawnChildSock)
    (hsize : s.size ≤ s'.size) (hpid : ∀ q, q < s.size → (s'.proc q).pid = (s.proc q).pid)
    (hbusy : ∀ q, q < s.size → Busy ks s q → calm (s'.life q) = calm (s.life q) ∧ idle (s'.proc q) = idle (s.proc q)) :
    Spares cs js ks s s' :=
  ⟨hsize, hpid, fun j _ => by rw [hconns], fun j => by rw [hconns]; exact .inl, fun k x => by rw [hsock]; exact .inl, hbusy⟩

theorem of_settles (h : Settles s s') : Spares cs js ks s s' := by
  refine .of_conns h.conns h.sock (le_of_eq h.size.symm) (fun q _ => (rest_eq (h.proc q)).1) fun q _ hb => ?_
  have hstate : (s'.life q).state = (s.life q).state := by
    rcases hb.2.2 with hrun | ⟨c, hc, -, -, hcrun, -⟩
    · rw [(h.running_iff q).mpr hrun, hrun]
    · exact (h.state q).resolve_right fun hfin => hfin.2.2 c hc hcrun
  exact ⟨calm_of_steady (h.life q) hstate, idle_of_rest (h.proc q) (h.fds q hstate)⟩

section

variable (hsize : s'.size = s.size) (hconns : s'.conns = s.conns)
  (hsock : s'.posixSpawnChildSock = s.posixSpawnChildSock) (hproc : s'.proc = s.proc)
include hsize hconns hsock hproc

theorem of_life (hlife : ∀ q, ¬Mine ks s q → calm (s'.life q) = calm (s.life q)) : Spares cs js ks s s' :=
  .of_conns hconns hsock (le_of_eq hsize.symm) (fun q _ => by rw [hproc]) fun q hq hb =>
    ⟨hlife q fun hm => hm.not_busy hq hb, by rw [hproc]⟩

theorem of_eq (hlife : s'.life = s.life) : Spares cs js ks s s' :=
  .of_life hsize hconns hsock hproc fun q _ => by rw [hlife]

end

theorem modifyLife (hp : Mine ks s p ∨ calm (f (s.life p)) = calm (s.life p)) :
    Spares cs js ks s (s.modifyLife p f) := by
  refine .of_life rfl rfl rfl rfl fun q hq => ?_
  by_cases hqp : q = p
  · subst hqp
    exact modifyLife_proj calm (hp.resolve_left hq) q
  · simp [Population.modifyLife, Lives.modify, hqp]

theorem setTerminated (hp : Mine ks s p) : Spares cs js ks s (s.setTerminated p) := by
  refine .of_life rfl rfl rfl rfl fun q hq => ?_
  have hqp : q ≠ p := fun he => hq (he ▸ hp)
  simp [Population.setTerminated, Lives.setTerminated, Lives.modify, hqp]

theorem modifyProc (hpid : p < s.size → (f (s.proc p)).pid = (s.proc p).pid)
    (hp : Mine ks s p ∨ idle (f (s.proc p)) = idle (s.proc p)) : Spares cs js ks s (s.modifyProc p f) := by
  refine { @refl cs js ks s with pid := fun q hq => ?_, busy := fun q hq hb => ⟨rfl, ?_⟩ }
  · rw [modifyProc_proc]
    split
    · next hqp => rw [hqp]; exact hpid (hqp ▸ hq)
    · rfl
  · rw [modifyProc_proc]
    split
    · next hqp =>
      subst hqp
      exact hp.resolve_left fun hm => hm.not_busy hq hb
    · rfl

theorem setConn (c : Option Connection) (hj : j ∈ js) (hc : c = none → j ∈ cs) :
    Spares cs js ks s (s.setConn j c) := by
  refine { @refl cs js ks s with conns := fun i hi => entry_kept hj hi, closed := fun i hi => ?_ }
  have hi : (if i = j then c else s.conns i) = none := hi
  split at hi
  · next he => exact .inr (he ▸ hc hi)
  · exact .inl hi

theorem fresh (hsize : s'.size = s.size + 1) (hconns : s'.conns = s.conns)
    (hsock : s'.posixSpawnChildSock = s.posixSpawnChildSock) (hparent : Mine ks s parent)
    (hlife : ∀ q, q < s.size → q ≠ parent → s'.life q = s.life q)
    (hproc : ∀ q, s'.proc q = if q = s.size then x else s.proc q) : Spares cs js ks s s' := by
  have hold : ∀ q, q < s.size → s'.proc q = s.proc q := fun q hq => by rw [hproc, if_neg hq.ne]
  refine .of_conns hconns hsock (by omega) (fun q hq => by rw [hold q hq]) fun q hq hb => ?_
  have hqp : q ≠ parent := by
    rintro rfl
    exact hparent.not_busy hq hb
  rw [hlife q hq hqp, hold q hq]
  exact ⟨rfl, rfl⟩

theorem mine (h : Spares cs js ks s s') (hp : p < s.size) (hm : Mine ks s p) : Mine ks s' p := by
  rcases hm with hm | hm | hm
  · exact .inl (by rw [h.pid p hp]; exact hm)
  · exact .inr (.inl hm)
  · exact absurd hp (not_lt.mpr hm)

variable {pid : Nat}

theorem newForked (hp : Mine ks s p) : Spares cs js ks s (s.newForked p pid fds) := by
  refine .fresh rfl rfl rfl hp (fun q hq hqp => ?_) fun _ => rfl
  exact (Lives.addForked_life s.toLives p q hq).trans (if_neg hqp)

theorem newExeced {isQemu : Bool} (hps : p < s.size) (hp : Mine ks s p)
    (h : s.newExeced p pid isQemu = some s') : Spares cs js ks s s' := by
  obtain ⟨t, -, rfl⟩ := Option.map_eq_some_iff.mp h
  obtain ⟨s1, hs1⟩ : ∃ s1, s1 = ({ s with toLives := { s.toLives.addExeced p s.tree.size with tree := t } }.modifyProc
      s.size fun _ => { pid, fds := (s.proc p).fds.passOn true }).modifyExeced s.tree.size fun _ => { isQemu } := ⟨_, rfl⟩
  rw [← hs1]
  have hnew : Spares cs js ks s s1 := by
    rw [hs1]
    refine .fresh rfl rfl rfl hp (fun q hq hqp => ?_) fun _ => rfl
    exact (Lives.addExeced_life s.toLives p s.tree.size q hq).trans (if_neg hqp)
  exact hnew.trans (.modifyProc (fun _ => rfl) (.inl (hnew.mine hps hp)))

theorem adopt (hp : Mine ks s p) (h : s.adopt p pid node = some s') : Spares cs js ks s s' := by
  obtain ⟨n, -, h⟩ := Option.bind_eq_some_iff.mp h
  obtain ⟨t, -, rfl⟩ := Option.map_eq_some_iff.mp h
  refine .fresh rfl rfl rfl hp (fun q hq hqp => ?_) fun _ => rfl
  exact (Lives.addExeced_life s.toLives p node q hq).trans (if_neg hqp)

theorem deleteProcessSubtree (s : Population) (p : Nat) : Spares cs js ks s (ProcessTree.deleteProcessSubtree s p) := by
  have hproc : ∀ q, idle ((ProcessTree.deleteProcessSubtree s p).proc q) = idle (s.proc q) := by
    intro q
    simp only [ProcessTree.deleteProcessSubtree]
    split <;> rfl
  exact { @refl cs js ks s with
    pid := fun q _ => (idle_eq (hproc q)).1, busy := fun q _ _ => ⟨rfl, hproc q⟩ }

end Spares

/-! ## References -/

/-- No pid changes, and a process that another one refers to anew is there. -/
structure Tame (s s' : Population) : Prop where
  size : s.size ≤ s'.size
  pid : ∀ q, q < s.size → (s'.proc q).pid = (s.proc q).pid
  system : ∀ q c, (s'.proc q).systemChild = some c → (s.proc q).systemChild = some c ∨ c < s'.size
  popened : ∀ q x, x ∈ (s'.proc q).fd2popenChild → x ∈ (s.proc q).fd2popenChild ∨ x.2 < s'.size

namespace Tame

theorem of_refs (hsize : s.size ≤ s'.size) (hproc : ∀ q, (s'.proc q).pid = (s.proc q).pid ∧
      (s'.proc q).systemChild = (s.proc q).systemChild ∧ (s'.proc q).fd2popenChild = (s.proc q).fd2popenChild) :
    Tame s s' :=
  ⟨hsize, fun q _ => (hproc q).1, fun q _ hc => .inl ((hproc q).2.1 ▸ hc), fun q _ hx => .inl ((hproc q).2.2 ▸ hx)⟩

theorem of_proc (hsize : s.size ≤ s'.size) (hproc : s'.proc = s.proc) : Tame s s' :=
  of_refs hsize fun q => by rw [hproc]; exact ⟨rfl, rfl, rfl⟩

theorem of_settles (h : Settles s s') : Tame s s' :=
  of_refs (le_of_eq h.size.symm) fun q => by
    obtain ⟨hpid, -, -, hsystem, hpopened, -⟩ := rest_eq (h.proc q)
    exact ⟨hpid, hsystem, hpopened⟩

theorem modifyProc (hpid : (f (s.proc p)).pid = (s.proc p).pid)
    (hsystem : ∀ c, (f (s.proc p)).systemChild = some c → (s.proc p).systemChild = some c ∨ c < s.size)
    (hpopened : ∀ x, x ∈ (f (s.proc p)).fd2popenChild → x ∈ (s.proc p).fd2popenChild ∨ x.2 < s.size) :
    Tame s (s.modifyProc p f) := by
  refine ⟨le_rfl, fun q hq => ?_, fun q c hc => ?_, fun q x hx => ?_⟩
  · rw [modifyProc_proc]
    split
    · next hqp => rw [hqp]; exact hpid
    · rfl
  · rw [modifyProc_proc] at hc
    split at hc
    · next hqp => rw [hqp]; exact hsystem c hc
    · exact .inl hc
  · rw [modifyProc_proc] at hx
    split at hx
    · next hqp => rw [hqp]; exact hpopened x hx
    · exact .inl hx

theorem fresh {f : FdTable → FdTable} (hsize : s'.size = s.size + 1) (hsystem : x.systemChild = none)
    (hpopened : x.fd2popenChild = []) (hproc : ∀ q, s'.proc q = if q = p then { (if q = s.size then x else s.proc q) with
        fds := f (if q = s.size then x else s.proc q).fds } else if q = s.size then x else s.proc q) : Tame s s' := by
  have hold : ∀ q, q ≠ s.size → (s'.proc q).pid = (s.proc q).pid ∧ (s'.proc q).systemChild = (s.proc q).systemChild ∧
      (s'.proc q).fd2popenChild = (s.proc q).fd2popenChild := by
    intro q hq
    rw [hproc]
    split <;> exact ⟨rfl, rfl, rfl⟩
  have hnew : (s'.proc s.size).systemChild = none ∧ (s'.proc s.size).fd2popenChild = [] := by
    rw [hproc, if_pos rfl]
    split <;> exact ⟨hsystem, hpopened⟩
  refine ⟨by omega, fun q hq => (hold q hq.ne).1, fun q c hc => ?_, fun q y hy => ?_⟩
  · by_cases hq : q = s.size
    · rw [hq, hnew.1] at hc
      cases hc
    · exact .inl ((hold q hq).2.1 ▸ hc)
  · by_cases hq : q = s.size
    · rw [hq, hnew.2] at hy
      cases hy
    · exact .inl ((hold q hq).2.2 ▸ hy)

end Tame

end Population

namespace ProcessTree

open Population (Spares Mine Tame entry_new entry_kept)

variable {s s' s'' : ProcessTree} {cs is js ks : List Nat} {p : Nat}

/-! ## Footprints -/

structure Touches (cs is js ks : List Nat) (s s' : ProcessTree) : Prop where
  spares : Spares cs js ks s.toPopulation s'.toPopulation
  pid2proc : ∀ k, k ∉ ks → s'.pid2proc k = s.pid2proc k
  parentAck : ∀ k, k ∉ ks → s'.parentAck k = s.parentAck k
  forkChildSock : ∀ k, k ∉ ks → s'.forkChildSock k = s.forkChildSock k
  pendingPopen : ∀ q, q < s.size → (s.proc q).pid ∉ ks → s'.pendingPopen q = s.pendingPopen q
  newAck : ∀ k a, s'.parentAck k = some a → s.parentAck k = some a ∨ a.sock ∈ is
  newFork : ∀ k x, s'.forkChildSock k = some x → s.forkChildSock k = some x ∨ x.sock ∈ is
  newChild : ∀ q x c, s'.pendingPopen q = some x → x.child = some c →
    (∃ y, s.pendingPopen q = some y ∧ y.child = some c) ∨ c.2 ∈ is
  newParent : ∀ q x c, s'.pendingPopen q = some x → x.parent = some c →
    (∃ y, s.pendingPopen q = some y ∧ y.parent = some c) ∨ c.1 ∈ is

namespace Touches

variable {ps : Population}

theorem of_spares (h : Spares cs js ks s.toPopulation ps) : Touches cs is js ks s (s.withPopulation ps) :=
  ⟨h, fun _ _ => rfl, fun _ _ => rfl, fun _ _ => rfl, fun _ _ _ => rfl, fun _ _ => .inl, fun _ _ => .inl,
    fun _ x _ hx hc => .inl ⟨x, hx, hc⟩, fun _ x _ hx hc => .inl ⟨x, hx, hc⟩⟩

theorem refl (s : ProcessTree) : Touches cs is js ks s s := of_spares (.refl _)

theorem trans (h : Touches cs is js ks s s') (h' : Touches cs is js ks s' s'') : Touches cs is js ks s s'' := by
  refine ⟨h.spares.trans h'.spares, fun k hk => (h'.pid2proc k hk).trans (h.pid2proc k hk),
    fun k hk => (h'.parentAck k hk).trans (h.parentAck k hk), fun k hk => (h'.forkChildSock k hk).trans (h.forkChildSock k hk),
    fun q hq hk => ?_, fun k a ha => (h'.newAck k a ha).elim (h.newAck k a) .inr,
    fun k x hx => (h'.newFork k x hx).elim (h.newFork k x) .inr, fun q x c hx hc => ?_, fun q x c hx hc => ?_⟩
  · refine (h'.pendingPopen q (hq.trans_le h.spares.size) ?_).trans (h.pendingPopen q hq hk)
    rw [h.spares.pid q hq]
    exact hk
  · rcases h'.newChild q x c hx hc with ⟨y, hy, hyc⟩ | hj
    · exact h.newChild q y c hy hyc
    · exact .inr hj
  rcases h'.newParent q x c hx hc with ⟨y, hy, hyc⟩ | hj
  · exact h.newParent q y c hy hyc
  · exact .inr hj

theorem then_spares (h : Touches cs is js ks s s') (hs : Spares cs js ks s'.toPopulation ps) :
    Touches cs is js ks s (s'.withPopulation ps) :=
  h.trans (of_spares hs)

theorem insert (h : (s.proc p).pid ∈ ks) : Touches cs is js ks s (s.insert p) := by
  exact { refl s with pid2proc := fun k hk => entry_kept h hk }

variable {k : Nat}

theorem setParentAck (hk : k ∈ ks) (ha : ∀ x, a = some x → x.sock ∈ is) :
    Touches cs is js ks s (s.setParentAck k a) := by
  exact { refl s with parentAck := fun i hi => entry_kept hk hi, newAck := fun i x hx => entry_new ha hx }

theorem setForkChildSock (hk : k ∈ ks) (ha : ∀ x, a = some x → x.sock ∈ is) :
    Touches cs is js ks s (s.setForkChildSock k a) := by
  exact { refl s with forkChildSock := fun i hi => entry_kept hk hi, newFork := fun i x hx => entry_new ha hx }

theorem setPendingPopen (hp : (s.proc p).pid ∈ ks)
    (hchild : ∀ y c, x = some y → y.child = some c → (∃ z, s.pendingPopen p = some z ∧ z.child = some c) ∨ c.2 ∈ is)
    (hparent : ∀ y c, x = some y → y.parent = some c → (∃ z, s.pendingPopen p = some z ∧ z.parent = some c) ∨ c.1 ∈ is) :
    Touches cs is js ks s (s.setPendingPopen p x) := by
  refine { refl s with
    pendingPopen := fun q hq hk => ?_, newChild := fun q y c hy hc => ?_, newParent := fun q y c hy hc => ?_ }
  · have hne : q ≠ p := fun he => hk (he ▸ hp)
    exact if_neg hne
  · have hy' : (if q = p then x else s.pendingPopen q) = some y := hy
    split at hy'
    · next hqp =>
      subst hqp
      exact hchild y c hy' hc
    · exact .inl ⟨y, hy', hc⟩
  · have hy' : (if q = p then x else s.pendingPopen q) = some y := hy
    split at hy'
    · next hqp =>
      subst hqp
      exact hparent y c hy' hc
    · exact .inl ⟨y, hy', hc⟩

theorem setSock (hx : ∀ y, x = some y → y.sock ∈ js) :
    Touches cs is js ks s (s.setSock k x) := by
  exact { @refl cs is js ks s with spares := { Spares.refl _ with sock := fun i y hy => entry_new hx hy } }

end Touches

/-! ## Known processes -/

/-- The processes that the maps and the other processes refer to are there. -/
structure Known (s : ProcessTree) : Prop where
  pids : ∀ k p, s.pid2proc k = some p → p < s.size ∧ (s.proc p).pid = k
  system : ∀ p c, (s.proc p).systemChild = some c → c < s.size
  popened : ∀ p x, x ∈ (s.proc p).fd2popenChild → x.2 < s.size
  pendingPopen : ∀ p x c, s.pendingPopen p = some x → x.child = some c → c.1 < s.size

namespace Known

section

variable (h : Known s)
include h

theorem tame (ht : Tame s.toPopulation ps) : Known (s.withPopulation ps) := by
  refine ⟨fun k p hp => ?_, fun p c hc => ?_, fun p x hx => ?_, fun p x c hx hc => ?_⟩
  · obtain ⟨hlt, hpid⟩ := h.pids k p hp
    exact ⟨hlt.trans_le ht.size, (ht.pid p hlt).trans hpid⟩
  · exact (ht.system p c hc).elim (fun hc => lt_of_lt_of_le (h.system p c hc) ht.size) id
  · exact (ht.popened p x hx).elim (fun hx => lt_of_lt_of_le (h.popened p x hx) ht.size) id
  · exact lt_of_lt_of_le (h.pendingPopen p x c hx hc) ht.size

theorem insert (hp : p < s.size) : Known (s.insert p) := by
  refine { h with pids := fun k q hq => ?_ }
  have hq : (if k = (s.proc p).pid then some p else s.pid2proc k) = some q := hq
  split at hq
  · cases hq
    exact ⟨hp, Eq.symm ‹_›⟩
  · exact h.pids k q hq

theorem setParentAck (k : Nat) (a : Option PendingParentAck) : Known (s.setParentAck k a) :=
  { h with }

theorem setForkChildSock (k : Nat) (x : Option ForkChildSock) : Known (s.setForkChildSock k x) :=
  { h with }

theorem setSock (k : Nat) (x : Option ExecChildSock) : Known (s.setSock k x) :=
  { h with }

theorem setPendingPopen (p : Nat)
    (hx : ∀ y c, x = some y → y.child = some c → c.1 < s.size) : Known (s.setPendingPopen p x) := by
  refine ⟨h.pids, h.system, h.popened, fun q y c hy hc => ?_⟩
  have hy : (if q = p then x else s.pendingPopen q) = some y := hy
  split at hy
  · exact hx y c hy hc
  · exact h.pendingPopen q y c hy hc

end

end Known

/-! ## What an event is about -/

def Message.pids (s : ProcessTree) (p : Nat) : Message → List Nat
  | forkParent => ((s.forkChildSock (s.proc p).pid).map ForkChildSock.childPid).toList
  | systemRet _ => ((s.proc p).systemChild.map fun c => (s.proc c).pid).toList
  | popenParent _ _ => (((s.pendingPopen p).bind PendingPopen.child).map fun c => (s.proc c.1).pid).toList
  | pclose fd _ _ => (((s.proc p).fd2popenChild.lookup fd).map fun c => (s.proc c).pid).toList
  | posixSpawnParent pid _ _ _ _ => pid :: ((s.posixSpawnChildSock (s.proc p).pid).map ExecChildSock.pid).toList
  | wait pid _ => [pid]
  | _ => []

def Message.conns (s : ProcessTree) (p : Nat) : Message → List Nat
  | forkParent => ((s.forkChildSock (s.proc p).pid).map ForkChildSock.sock).toList
  | posixSpawnParent _ _ _ _ _ => ((s.posixSpawnChildSock (s.proc p).pid).map ExecChildSock.sock).toList
  | _ => []

def Event.pids (s : ProcessTree) : Event → List Nat
  | .scprocQuery _ pid ppid _ _ _ => [pid, ppid]
  | .forkChild _ pid ppid _ => [pid, ppid]
  | .message conn _ m =>
    match s.conns conn with
    | some (.proc p) => (s.proc p).pid :: m.pids s p
    | _ => []
  | .hangUp conn =>
    match s.conns conn with
    | some (.proc p) => [(s.proc p).pid]
    | _ => []
  | .gcProcesses => s.procGcQueue.filterMap fun p => (s.life p).parent.map fun q => (s.proc q).pid
  | _ => []

/-- The connections whose process is set. -/
def Event.conns (s : ProcessTree) : Event → List Nat
  | .connect conn => [conn]
  | .scprocQuery conn _ _ _ _ _ => [conn]
  | .forkChild conn _ _ _ => [conn]
  | .message conn _ m =>
    match s.conns conn with
    | some (.proc p) => m.conns s p
    | _ => []
  | .hangUp conn => [conn]
  | _ => []

/-- The connection an event comes on, and that of an entry it queues. -/
def Event.own : Event → List Nat
  | .scprocQuery conn _ _ _ _ _ => [conn]
  | .forkChild conn _ _ _ => [conn]
  | .message conn _ _ => [conn]
  | _ => []

def Event.closes : Event → List Nat
  | .hangUp conn => [conn]
  | _ => []

end ProcessTree
end Firebuild
