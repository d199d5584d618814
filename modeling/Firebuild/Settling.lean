/-
  Firebuild.Settling — what finalizing processes leaves alone.

  `maybe_finalize()` is called from many places and goes up the tree as far as it can; on its
  way it finds orphans and releases acks that were deferred. `Settles s s'` bounds all of it:
    - no process, link, pending work, connection or queue changes;
    - a state changes from terminated to finalized only, and not above an exec child that
      runs;
    - the fds of a process are closed only when it is finalized;
    - a deferred ack is dropped only by sending it, once, and it has been when its fork point
      is finalized.
-/

import Firebuild.Population
import Firebuild.LifeOrder

namespace Firebuild

open Option (bind_eq_some_iff map_eq_some_iff)

/-- What finalizing does not touch. -/
def steady (l : Life) : Life := { l with state := .running, orphan := false, hasOrphanDescendant := false }

theorem steady_eq (h : steady l' = steady l) : l'.execed = l.execed ∧ l'.parent = l.parent ∧
    l'.forkPoint = l.forkPoint ∧ l'.execPoint = l.execPoint ∧ l'.execChild = l.execChild ∧
    l'.forkChildren = l.forkChildren ∧ l'.execPending = l.execPending ∧
    l'.hasPendingPopen = l.hasPendingPopen ∧ l'.beenWaitedFor = l.beenWaitedFor := by
  simpa [steady] using h

namespace Lives

variable {s s' s'' : Lives} {p : Nat}

/-- More orphans may be known, nothing else about the processes is different. -/
structure Found (s s' : Lives) : Prop where
  size : s'.size = s.size
  life : ∀ q, steady (s'.life q) = steady (s.life q)
  state : ∀ q, (s'.life q).state = (s.life q).state
  orphan : ∀ q, (s.life q).orphan = true → (s'.life q).orphan = true
  hasOrphan : ∀ q, (s.life q).hasOrphanDescendant = true → (s'.life q).hasOrphanDescendant = true

theorem Found.trans (h : Found s s') (h' : Found s' s'') : Found s s'' :=
  ⟨h'.size.trans h.size, fun q => (h'.life q).trans (h.life q), fun q => (h'.state q).trans (h.state q),
    fun q hq => h'.orphan q (h.orphan q hq), fun q hq => h'.hasOrphan q (h.hasOrphan q hq)⟩

theorem Found.modify (hsteady : steady (f (s.life p)) = steady (s.life p))
    (hstate : (f (s.life p)).state = (s.life p).state)
    (horphan : (s.life p).orphan = true → (f (s.life p)).orphan = true)
    (hhas : (s.life p).hasOrphanDescendant = true → (f (s.life p)).hasOrphanDescendant = true) :
    Found s (s.modify p f) := by
  refine ⟨rfl, modify_proj steady hsteady, modify_proj Life.state hstate, fun q => ?_, fun q => ?_⟩
  · by_cases hq : q = p
    · rw [hq, modify_self]
      exact horphan
    · rw [modify_other hq]
      exact id
  · by_cases hq : q = p
    · rw [hq, modify_self]
      exact hhas
    · rw [modify_other hq]
      exact id

theorem Found.fine (h : Found s s') (n p : Nat) (hf : s.finalizedOrTerminatedAndHasOrphanAndFinalizedChildren n p = true) :
    s'.finalizedOrTerminatedAndHasOrphanAndFinalizedChildren n p = true := by
  induction n generalizing p with
  | zero => cases hf
  | succ n ih =>
    obtain ⟨-, -, hfp, -, hexec, hfork, -⟩ := steady_eq (h.life p)
    rw [finalizedOrTerminatedAndHasOrphanAndFinalizedChildren] at hf ⊢
    rw [h.state p]
    cases hstate : (s.life p).state with
    | finalized => rfl
    | running => simp [hstate] at hf
    | terminated =>
      simp only [hstate, Bool.and_eq_true, List.all_eq_true, Bool.or_eq_true] at hf ⊢
      obtain ⟨⟨hhas, hall⟩, hchild⟩ := hf
      rw [hfp, hfork, hexec]
      refine ⟨⟨h.hasOrphan _ hhas, fun c hc => (hall c hc).imp (h.orphan c) (ih c)⟩, ?_⟩
      cases hc : (s.life p).execChild with
      | none => rfl
      | some c =>
        rw [hc] at hchild
        exact ih c hchild

/-- A process that could be finalized still can. -/
theorem Found.ready (h : Found s s') (hr : s.Ready p) : s'.Ready p := by
  obtain ⟨-, -, hfp, -, hexec, hfork, hpend, hpopen, -⟩ := steady_eq (h.life p)
  rcases hr with hnone | honly
  · left
    have hnot : s'.notFinalized = s.notFinalized := by
      funext q
      simp [notFinalized, h.state q]
    rw [anyChildNotFinalized, pending, hexec, hfork, hpend, hpopen, hnot]
    exact hnone
  · right
    simp only [onlyOrphansLeft, Bool.and_eq_true] at honly ⊢
    rw [hfp, (steady_eq (h.life _)).2.1, h.size]
    exact ⟨⟨honly.1.1, h.hasOrphan _ honly.1.2⟩, h.fine _ _ honly.2⟩

end Lives

namespace Population

variable {s s' s'' : Population} {o : Options} {p q c n : Nat} {reason : String}

theorem modifyLife_proj (g : Life → β) (hf : g (f (s.life p)) = g (s.life p)) (q : Nat) :
    g ((s.modifyLife p f).life q) = g (s.life q) :=
  Lives.modify_proj g hf q

/-! ## Deferred acks -/

def reply (a : Nat × Nat) : Reply := { conn := a.2, answers := a.1 }

/-- The acks of some processes have been sent. -/
def Released (s s' : Population) : Prop :=
  ∃ fs : List Nat, fs.Nodup ∧ (∀ f ∈ fs, (s.proc f).onFinalizedAck.isSome) ∧
    (∀ q, (s'.proc q).onFinalizedAck = if q ∈ fs then none else (s.proc q).onFinalizedAck) ∧
    s'.sent = fs.filterMap (fun f => (s.proc f).onFinalizedAck.map reply) ++ s.sent

theorem Released.of_eq (hack : ∀ q, (s'.proc q).onFinalizedAck = (s.proc q).onFinalizedAck) (hsent : s'.sent = s.sent) :
    Released s s' :=
  ⟨[], List.nodup_nil, nofun, by simpa using hack, by simpa using hsent⟩

theorem Released.trans (h : Released s s') (h' : Released s' s'') : Released s s'' := by
  obtain ⟨fs, hnodup, hsome, hack, hsent⟩ := h
  obtain ⟨fs', hnodup', hsome', hack', hsent'⟩ := h'
  have hdisj : ∀ f ∈ fs', f ∉ fs := by
    intro f hf' hf
    have := hsome' f hf'
    rw [hack, if_pos hf] at this
    cases this
  have hsame : ∀ f ∈ fs', (s'.proc f).onFinalizedAck = (s.proc f).onFinalizedAck := fun f hf => by
    rw [hack, if_neg (hdisj f hf)]
  refine ⟨fs' ++ fs, hnodup'.append hnodup hdisj, fun f hf => ?_, fun q => ?_, ?_⟩
  · rcases List.mem_append.mp hf with hf | hf
    · rw [← hsame f hf]
      exact hsome' f hf
    · exact hsome f hf
  · rw [hack', hack]
    by_cases hq' : q ∈ fs' <;> by_cases hq : q ∈ fs <;> simp [hq]
  · rw [hsent', List.filterMap_append, List.append_assoc]
    congr 1
    exact List.filterMap_congr fun f hf => by rw [hsame f hf]

theorem Released.none (h : Released s s') (hq : (s.proc q).onFinalizedAck = none) :
    (s'.proc q).onFinalizedAck = none := by
  obtain ⟨fs, -, -, hack, -⟩ := h
  rw [hack, hq, ite_self]

/-! ## The bound -/

def rest (x : Process) : Process := { x with fds := [], onFinalizedAck := none }

structure Settles (s s' : Population) : Prop where
  size : s'.size = s.size
  conns : s'.conns = s.conns
  sock : s'.posixSpawnChildSock = s.posixSpawnChildSock
  life : ∀ q, steady (s'.life q) = steady (s.life q)
  state : ∀ q, (s'.life q).state = (s.life q).state ∨ ((s.life q).state = .terminated ∧
    (s'.life q).state = .finalized ∧ ∀ c, (s.life q).execChild = some c → (s.life c).state ≠ .running)
  proc : ∀ q, rest (s'.proc q) = rest (s.proc q)
  fds : ∀ q, (s'.life q).state = (s.life q).state → (s'.proc q).fds = (s.proc q).fds
  queue : ∃ l, s'.procGcQueue = s.procGcQueue ++ l ∧ ∀ q ∈ l, (s'.life q).state = .finalized
  released : Released s s'
  acked : ∀ q, (s.life q).execed = false → (s.life q).state ≠ .finalized → (s'.life q).state = .finalized →
    (s'.proc q).onFinalizedAck = none

theorem rest_eq (h : rest x' = rest x) : x'.pid = x.pid ∧
    x'.posixSpawnPending = x.posixSpawnPending ∧ x'.expectedChild = x.expectedChild ∧
    x'.systemChild = x.systemChild ∧ x'.fd2popenChild = x.fd2popenChild ∧ x'.exitStatus = x.exitStatus ∧
    x'.deleted = x.deleted := by
  simpa [rest] using h

namespace Settles

theorem execed (h : Settles s s') (q : Nat) : (s'.life q).execed = (s.life q).execed := (steady_eq (h.life q)).1

theorem execChild (h : Settles s s') (q : Nat) : (s'.life q).execChild = (s.life q).execChild :=
  (steady_eq (h.life q)).2.2.2.2.1

theorem running_iff (h : Settles s s') (q : Nat) : (s'.life q).state = .running ↔ (s.life q).state = .running := by
  rcases h.state q with he | ⟨hs, hs', -⟩
  · rw [he]
  · simp [hs, hs']

theorem finalized (h : Settles s s') (hq : (s.life q).state = .finalized) : (s'.life q).state = .finalized := by
  rcases h.state q with he | ⟨hs, -, -⟩
  · rw [he, hq]
  · rw [hq] at hs
    cases hs

theorem refl (s : Population) : Settles s s :=
  ⟨rfl, rfl, rfl, fun _ => rfl, fun _ => .inl rfl, fun _ => rfl, fun _ _ => rfl, ⟨[], by simp, nofun⟩,
    .of_eq (fun _ => rfl) rfl, fun _ _ hne hf => absurd hf hne⟩

theorem trans (h : Settles s s') (h' : Settles s' s'') : Settles s s'' := by
  refine ⟨h'.size.trans h.size, h'.conns.trans h.conns, h'.sock.trans h.sock,
    fun q => (h'.life q).trans (h.life q), fun q => ?_, fun q => (h'.proc q).trans (h.proc q), fun q hq => ?_, ?_,
    h.released.trans h'.released, fun q he hne hf => ?_⟩
  · rcases h.state q with hs | ⟨ht, hf, hc⟩
    · rcases h'.state q with hs' | ⟨ht', hf', hc'⟩
      · exact .inl (hs'.trans hs)
      · refine .inr ⟨hs ▸ ht', hf', fun c hqc hrun => hc' c ((h.execChild q).trans hqc) ?_⟩
        exact (h.running_iff c).mpr hrun
    · exact .inr ⟨ht, h'.finalized hf, hc⟩
  · rcases h.state q with hs | ⟨ht, hf, -⟩
    · rw [h'.fds q (hq.trans hs.symm), h.fds q hs]
    · rw [h'.finalized hf, ht] at hq
      cases hq
  · obtain ⟨l, hl, hfin⟩ := h.queue
    obtain ⟨l', hl', hfin'⟩ := h'.queue
    refine ⟨l ++ l', by rw [hl', hl, List.append_assoc], fun q hq => ?_⟩
    rcases List.mem_append.mp hq with hq | hq
    · exact h'.finalized (hfin q hq)
    · exact hfin' q hq
  · by_cases hmid : (s'.life q).state = .finalized
    · exact h'.released.none (h.acked q he hne hmid)
    · exact h'.acked q ((h.execed q).trans he) hmid hf

/-- Only lives change, and nothing but what is found out about orphans. -/
theorem modifyLife (hsteady : steady (f (s.life p)) = steady (s.life p))
    (hstate : (f (s.life p)).state = (s.life p).state) : Settles s (s.modifyLife p f) :=
  have hq : ∀ q, ((s.modifyLife p f).life q).state = (s.life q).state := Lives.modify_proj Life.state hstate
  { refl s with
    life := Lives.modify_proj steady hsteady, state := fun q => .inl (hq q), fds := fun _ _ => rfl
    queue := ⟨[], (List.append_nil _).symm, nofun⟩, acked := fun q _ hne hf => absurd ((hq q).symm.trans hf) hne }

theorem setTree (t : ExecTree) : Settles s (s.setTree t) := { refl s with }

theorem modifyExeced (node : Nat) (f : Execed → Execed) : Settles s (s.modifyExeced node f) := { refl s with }

end Settles

theorem maybeSendOnFinalizedAck_settles (s : Population) (p : Nat) :
    Settles s (s.maybeSendOnFinalizedAck p) ∧ ((s.maybeSendOnFinalizedAck p).proc p).onFinalizedAck = none := by
  unfold maybeSendOnFinalizedAck
  cases hack : (s.proc p).onFinalizedAck with
  | none => exact ⟨.refl s, hack⟩
  | some a =>
    refine ⟨{ Settles.refl s with
      proc := fun q => ?_, fds := fun q _ => ?_, released := ⟨[p], by simp, by simp [hack], fun q => ?_, ?_⟩
      acked := fun _ _ hne hf => absurd hf hne }, by simp [modifyProc]⟩
    · by_cases hq : q = p <;> simp [modifyProc, ackMsg, send, rest, hq]
    · by_cases hq : q = p <;> simp [modifyProc, ackMsg, send, hq]
    · by_cases hq : q = p <;> simp [modifyProc, ackMsg, send, hq]
    · simp [modifyProc, ackMsg, send, hack, reply]

/-! ## Finalizing -/

@[simp]
theorem maybeSendOnFinalizedAck_toLives (s : Population) (p : Nat) :
    (s.maybeSendOnFinalizedAck p).toLives = s.toLives := by
  unfold maybeSendOnFinalizedAck
  split <;> rfl

@[simp]
theorem setHasOrphanDescendant_toLives (s : Population) (p : Nat) :
    (s.setHasOrphanDescendant p).toLives = s.toLives.modify p ({ · with hasOrphanDescendant := true }) := by
  unfold setHasOrphanDescendant
  dsimp only
  split
  · exact maybeSendOnFinalizedAck_toLives _ p
  · rfl

theorem setHasOrphanDescendant_settles (s : Population) (p : Nat) : Settles s (s.setHasOrphanDescendant p) := by
  have hflag : Settles s (s.modifyLife p ({ · with hasOrphanDescendant := true })) := .modifyLife rfl rfl
  unfold setHasOrphanDescendant
  dsimp only
  split
  · exact hflag.trans (maybeSendOnFinalizedAck_settles _ p).1
  · exact hflag

theorem setHasOrphanDescendantBubbleUp_settles (n : Nat) (s : Population) (p : Nat) :
    Settles s (setHasOrphanDescendantBubbleUp n s p) := by
  induction n generalizing s p with
  | zero => exact .refl s
  | succ n ih =>
    rw [setHasOrphanDescendantBubbleUp]
    split
    · exact setHasOrphanDescendant_settles s p
    · exact (setHasOrphanDescendant_settles s p).trans (ih _ _)

/-- Whether there are orphans is found out before anything is finalized. -/
theorem setHasOrphanDescendantBubbleUp_found (n : Nat) (s : Population) (p : Nat) :
    s.toLives.Found (setHasOrphanDescendantBubbleUp n s p).toLives := by
  have hflag : ∀ s : Population, ∀ p, s.toLives.Found (s.setHasOrphanDescendant p).toLives := fun s p => by
    rw [setHasOrphanDescendant_toLives]
    exact .modify rfl rfl id fun _ => rfl
  induction n generalizing s p with
  | zero => exact ⟨rfl, fun _ => rfl, fun _ => rfl, fun _ => id, fun _ => id⟩
  | succ n ih =>
    rw [setHasOrphanDescendantBubbleUp]
    split
    · exact hflag s p
    · exact (hflag s p).trans (ih _ _)

theorem disableShortcuttingBubbleUp_settles (h : s.disableShortcuttingBubbleUp p reason = some s') : Settles s s' := by
  obtain ⟨node, -, h⟩ := bind_eq_some_iff.mp h
  obtain ⟨t, -, rfl⟩ := map_eq_some_iff.mp h
  exact .setTree t

theorem becomeOrphan_settles (h : s.becomeOrphan p q = some s') : Settles s s' := by
  obtain ⟨s1, h1, rfl⟩ := map_eq_some_iff.mp h
  have hflag : Settles s (s.modifyLife (s.life p).forkPoint ({ · with orphan := true })) := .modifyLife rfl rfl
  exact (hflag.trans (disableShortcuttingBubbleUp_settles h1)).trans (setHasOrphanDescendantBubbleUp_settles _ _ _)

theorem becomeOrphan_found (h : s.becomeOrphan p q = some s') : s.toLives.Found s'.toLives := by
  obtain ⟨s1, h1, rfl⟩ := map_eq_some_iff.mp h
  obtain ⟨node, -, h1⟩ := bind_eq_some_iff.mp h1
  obtain ⟨t, -, rfl⟩ := map_eq_some_iff.mp h1
  have hflag : s.toLives.Found (s.toLives.modify (s.life p).forkPoint ({ · with orphan := true })) :=
    .modify rfl rfl (fun _ => rfl) id
  have htree : s.toLives.Found ((s.modifyLife (s.life p).forkPoint ({ · with orphan := true })).setTree t).toLives :=
    { hflag with }
  exact htree.trans (setHasOrphanDescendantBubbleUp_found _ _ _)

/-- The state is set, and the fds are closed. -/
theorem setFinalized_settles (hterm : (s.life p).state = .terminated)
    (hexec : ∀ c, (s.life p).execChild = some c → (s.life c).state ≠ .running)
    (hack : (s.life p).execed = false → (s.proc p).onFinalizedAck = none) :
    Settles s ((s.closeFds p).setFinalized p stored) := by
  have hstate : ∀ q, (((s.closeFds p).setFinalized p stored).life q).state =
      if q = p then .finalized else (s.life q).state := fun q => Lives.setFinalized_state _ p q stored
  refine ⟨rfl, rfl, rfl, fun q => ?_, fun q => ?_, fun q => ?_, fun q hq => ?_, ⟨[], (List.append_nil _).symm, nofun⟩,
    .of_eq (fun q => ?_) rfl, fun q he hne hf => ?_⟩
  · exact Lives.modify_proj (f := ({ · with state := .finalized })) steady rfl q
  · rw [hstate]
    by_cases hqp : q = p
    · subst hqp
      exact .inr ⟨hterm, if_pos rfl, hexec⟩
    · exact .inl (if_neg hqp)
  · show rest ((s.closeFds p).proc q) = _
    by_cases hqp : q = p <;> simp [closeFds, modifyFds, modifyProc, rest, hqp]
  · rw [hstate] at hq
    have hqp : q ≠ p := by
      rintro rfl
      rw [if_pos rfl, hterm] at hq
      cases hq
    show ((s.closeFds p).proc q).fds = _
    simp [closeFds, modifyFds, modifyProc, hqp]
  · show ((s.closeFds p).proc q).onFinalizedAck = _
    by_cases hqp : q = p <;> simp [closeFds, modifyFds, modifyProc, hqp]
  · rw [hstate] at hf
    have hqp : q = p := by
      by_contra hqp
      rw [if_neg hqp] at hf
      exact hne hf
    subst hqp
    show ((s.closeFds q).proc q).onFinalizedAck = _
    simp [closeFds, modifyFds, modifyProc, hack he]

theorem doFinalize_settles (h : s.doFinalize o p = some s') (hterm : (s.life p).state = .terminated)
    (hexec : ∀ c, (s.life p).execChild = some c → (s.life c).state ≠ .running) :
    Settles s s' ∧ (s'.life p).state = .finalized := by
  rw [doFinalize] at h
  split at h
  · next hexeced =>
    obtain ⟨node, -, rfl⟩ := map_eq_some_iff.mp h
    have hset : Settles s ((s.closeFds p).setFinalized p (toStore o s p node)) :=
      setFinalized_settles hterm hexec fun he => nomatch hexeced.symm.trans he
    have hcpu : ∀ (x : Population) (n : Option Nat) (t : Nat), Settles x (x.addChildrenCpuTimeU n t) := fun x n t => by
      cases n with
      | none => exact .refl x
      | some n => exact .modifyExeced n fun x => { x with childrenCpuTimeU := x.childrenCpuTimeU + t }
    have hall := hset.trans (hcpu _ (s.tree.up node) ((s.execs node).cpuTimeU + (s.execs node).childrenCpuTimeU))
    have hfin : ∀ x : Population, (x.life p).state = .finalized → Settles x (x.queueExecProcForGC p) := fun x hx =>
      { Settles.refl x with queue := ⟨[p], rfl, fun q hq => List.mem_singleton.mp hq ▸ hx⟩ }
    have hp : (((s.closeFds p).setFinalized p (toStore o s p node)).life p).state = .finalized :=
      (Lives.setFinalized_state _ p p _).trans (if_pos rfl)
    have hp' := (hcpu _ (s.tree.up node) ((s.execs node).cpuTimeU + (s.execs node).childrenCpuTimeU)).finalized hp
    exact ⟨hall.trans (hfin _ hp'), hp'⟩
  · cases h
    obtain ⟨hsend, hnone⟩ := maybeSendOnFinalizedAck_settles s p
    have hlife : ∀ q, ((s.maybeSendOnFinalizedAck p).life q) = s.life q := fun q => by
      unfold maybeSendOnFinalizedAck
      split <;> rfl
    refine ⟨hsend.trans (setFinalized_settles (by rw [hlife]; exact hterm) (fun c hc => ?_) fun _ => hnone),
      (Lives.setFinalized_state _ p p _).trans (if_pos rfl)⟩
    rw [hlife] at hc ⊢
    exact hexec c hc

/-- What `maybe_finalize()` has checked when it goes on. -/
theorem ready_of_verdict (h : s.verdict p ≠ .stay) : (s.life p).state = .terminated ∧ s.Ready p := by
  rw [Lives.verdict] at h
  split at h
  · exact absurd rfl h
  next hterm =>
  split at h
  · exact absurd rfl h
  next hready =>
  refine ⟨not_not.mp hterm, ?_⟩
  rw [Lives.Ready]
  cases hany : s.anyChildNotFinalized p with
  | false => exact .inl rfl
  | true =>
    simpa [hany] using hready

theorem execChild_of_ready (hterm : (s.life p).state = .terminated) (h : s.Ready p)
    (hc : (s.life p).execChild = some c) : (s.life c).state ≠ .running := by
  have hnot : (s.life c).state = .finalized ∨ (s.life c).state = .terminated → (s.life c).state ≠ .running := by
    rintro (h | h) <;> rw [h] <;> nofun
  refine hnot ?_
  rcases h with hnone | honly
  · simp only [Lives.anyChildNotFinalized, Bool.or_eq_false_iff, hc] at hnone
    left
    simpa [Lives.notFinalized] using hnone.1.2
  simp only [Lives.onlyOrphansLeft, Bool.and_eq_true] at honly
  cases hn : s.size with
  | zero =>
    rw [hn] at honly
    exact absurd honly.2 Bool.false_ne_true
  | succ n =>
    rw [hn, Lives.finalizedOrTerminatedAndHasOrphanAndFinalizedChildren, hterm, hc] at honly
    simp only [Bool.and_eq_true] at honly
    exact (Lives.fine_state honly.2.2).imp_right And.left

/-- The process stays, or it is finalized, as an orphan or not, and then its parent may be. -/
theorem maybeFinalizeLoop_cases (h : maybeFinalizeLoop o (n + 1) s p = some s') : s.verdict p = .stay ∧ s' = s ∨
    ∃ s1 s2, (s.verdict p = .finalize ∧ s1 = s ∨ ∃ q, s.verdict p = .orphan q ∧ s.becomeOrphan p q = some s1) ∧
      s1.doFinalize o p = some s2 ∧ ((s2.life p).parent = none ∧ s' = s2 ∨
        ∃ q, (s2.life p).parent = some q ∧ maybeFinalizeLoop o n s2 q = some s') := by
  rw [maybeFinalizeLoop] at h
  cases hv : s.verdict p with
  | stay =>
    rw [hv] at h
    cases h
    exact .inl ⟨rfl, rfl⟩
  | finalize =>
    rw [hv] at h
    obtain ⟨s2, h2, h⟩ := bind_eq_some_iff.mp h
    refine .inr ⟨s, s2, .inl ⟨rfl, rfl⟩, h2, ?_⟩
    split at h
    · cases h
      exact .inl ⟨‹_›, rfl⟩
    · next q hq => exact .inr ⟨q, hq, h⟩
  | orphan q =>
    rw [hv] at h
    obtain ⟨s1, h1, h⟩ := bind_eq_some_iff.mp h
    obtain ⟨s2, h2, h⟩ := bind_eq_some_iff.mp h
    refine .inr ⟨s1, s2, .inr ⟨q, rfl, h1⟩, h2, ?_⟩
    split at h
    · cases h
      exact .inl ⟨‹_›, rfl⟩
    · next q hq => exact .inr ⟨q, hq, h⟩

theorem maybeFinalizeLoop_settles (h : maybeFinalizeLoop o n s p = some s') : Settles s s' := by
  induction n generalizing s p with
  | zero => cases h
  | succ n ih =>
    rcases maybeFinalizeLoop_cases h with ⟨-, rfl⟩ | ⟨s1, s2, hfrom, hs2, hnext⟩
    · exact .refl _
    have hv : s.verdict p ≠ .stay := by
      rcases hfrom with ⟨hv, -⟩ | ⟨q, hv, -⟩ <;> simp [hv]
    obtain ⟨hterm, hready⟩ := ready_of_verdict hv
    have h1 : Settles s s1 ∧ (s1.life p).state = (s.life p).state := by
      rcases hfrom with ⟨-, rfl⟩ | ⟨q, -, hq⟩
      · exact ⟨.refl _, rfl⟩
      · exact ⟨becomeOrphan_settles hq, (becomeOrphan_found hq).state p⟩
    have hexec : ∀ c, (s1.life p).execChild = some c → (s1.life c).state ≠ .running := by
      intro c hc hrun
      rw [h1.1.execChild] at hc
      exact execChild_of_ready hterm hready hc ((h1.1.running_iff c).mp hrun)
    have h2 := h1.1.trans (doFinalize_settles hs2 (h1.2.trans hterm) hexec).1
    rcases hnext with ⟨-, rfl⟩ | ⟨q, -, hs'⟩
    · exact h2
    · exact h2.trans (ih hs')

theorem maybeFinalize_settles (h : s.maybeFinalize o p = some s') : Settles s s' := maybeFinalizeLoop_settles h

theorem leaveChildren_settles (h : leaveChildren o cs s = some (found, s')) :
    Settles s s' := by
  induction cs generalizing s found with
  | nil =>
    cases h
    exact .refl _
  | cons c cs ih =>
    rw [leaveChildren] at h
    split at h
    · exact ih h
    obtain ⟨s1, h1, h⟩ := bind_eq_some_iff.mp h
    obtain ⟨⟨found', s2⟩, h2, ⟨⟩⟩ := map_eq_some_iff.mp h
    have hflag : Settles s (s.modifyLife c ({ · with orphan := true })) := .modifyLife rfl rfl
    exact (hflag.trans (maybeFinalize_settles h1)).trans (ih h2)

theorem leaveOrphans_settles (h : leaveOrphans o this n s curr = some s') :
    Settles s s' := by
  induction n generalizing s curr with
  | zero =>
    cases curr with
    | none =>
      cases h
      exact .refl _
    | some curr => cases h
  | succ n ih =>
    cases curr with
    | none =>
      cases h
      exact .refl _
    | some curr =>
      obtain ⟨⟨found, s1⟩, h1, h⟩ := bind_eq_some_iff.mp h
      obtain ⟨s2, h2, h⟩ := bind_eq_some_iff.mp h
      refine ((leaveChildren_settles h1).trans ?_).trans (ih h)
      split at h2
      · obtain ⟨s3, h3, rfl⟩ := map_eq_some_iff.mp h2
        obtain ⟨node, -, h3⟩ := bind_eq_some_iff.mp h3
        obtain ⟨t, -, rfl⟩ := map_eq_some_iff.mp h3
        exact (Settles.setTree t).trans (setHasOrphanDescendantBubbleUp_settles _ _ _)
      · cases h2
        exact .refl s1

/-- The process in which `finish()` looks for orphans. -/
def ended (s : Population) (p : Nat) : Population :=
  (if s.pending p then s else s.modifyFds p FdTable.resetPipeRefs).setTerminated p

theorem ended_toLives (s : Population) (p : Nat) : (s.ended p).toLives = s.toLives.setTerminated p := by
  rw [ended]
  split <;> rfl

theorem finish_eq (s : Population) (o : Options) (p : Nat) : s.finish o p =
    (if ((s.ended p).life p).execChild.isNone && !((s.ended p).life p).execPending then
        leaveOrphans o p (s.ended p).size (s.ended p) (some ((s.ended p).life p).forkPoint)
      else some (s.ended p)).bind fun s => s.maybeFinalize o p := rfl

theorem finish_settles (h : s.finish o p = some s') : Settles (s.ended p) s' := by
  rw [finish_eq] at h
  obtain ⟨s1, h1, h⟩ := bind_eq_some_iff.mp h
  refine Settles.trans ?_ (maybeFinalize_settles h)
  split at h1
  · exact leaveOrphans_settles h1
  · cases h1
    exact .refl _

/-- A wait in its steps: what the exit status comes to, the wait itself, and whether it ends now. -/
theorem waitedFor_cases {ack : Nat}
    (h : s.waitedFor o p conn ack status reason = some (now, s')) :
    ∃ s1 s2 : Population, ((∃ e, s1 = s.setExitStatus p e) ∨ ∃ node t, (s.life p).execPoint = some node ∧
        s.tree.disableShortcuttingBubbleUpToExcl node (s.life (s.life p).forkPoint).execPoint reason = some t ∧
        s1 = s.setTree t) ∧
      s1.setBeenWaitedFor o p = some s2 ∧
      ((now = true ∧ (s2.life p).execPending = true ∧ s2.maybeFinalizeWithMissedStaticExecChild o p = some s') ∨
        (now = false ∧ s2.canAckParentWait (s.life p).forkPoint = false ∧
          (s2.proc (s.life p).forkPoint).onFinalizedAck = none ∧
          s' = s2.modifyProc (s.life p).forkPoint ({ · with onFinalizedAck := some (ack, conn) })) ∨
        (now = true ∧ s2.canAckParentWait (s.life p).forkPoint = true ∧ s' = s2)) := by
  obtain ⟨s1, h1, h⟩ := bind_eq_some_iff.mp h
  obtain ⟨s2, h2, h⟩ := bind_eq_some_iff.mp h
  refine ⟨s1, s2, ?_, h2, ?_⟩
  · cases status with
    | some e =>
      cases h1
      exact .inl ⟨e, rfl⟩
    | none =>
      obtain ⟨node, hnode, h1⟩ := bind_eq_some_iff.mp h1
      obtain ⟨t, ht, rfl⟩ := map_eq_some_iff.mp h1
      exact .inr ⟨node, t, hnode, ht, rfl⟩
  · split at h
    · next hpending =>
      obtain ⟨s3, h3, ⟨⟩⟩ := map_eq_some_iff.mp h
      exact .inl ⟨rfl, hpending, h3⟩
    split at h
    · next hcan =>
      obtain ⟨s3, h3, ⟨⟩⟩ := map_eq_some_iff.mp h
      rw [setOnFinalizedAck] at h3
      split at h3
      · cases h3
      next hfree =>
      cases h3
      exact .inr (.inl ⟨rfl, by simpa using hcan, by simpa using hfree, rfl⟩)
    · next hcan =>
      cases h
      exact .inr (.inr ⟨rfl, by simpa using hcan, rfl⟩)

end Population
end Firebuild
