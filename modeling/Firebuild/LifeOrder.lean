/-
  Firebuild.LifeOrder — the order in which processes are terminated, finalized and stored.

  Proved, for every move and hence every sequence of them:
    - `Footing`: a connection belongs to a running process, and nothing above an orphan is
      shortcutable;
    - `Chronicled`: the states are what the log says, a process is finalized after it was
      terminated, and stored at most once, with an exit status;
    - `Timely`, unless a child comes below a process that is finalized: a finalized process
      has nothing pending and no child left behind, and it was finalized and stored after its
      children were finalized. Excepted is the exec chain of the root once an orphan is
      below it, which is never stored before its fork()ed children are finalized either.
-/

import Firebuild.LifeMoves

namespace Firebuild
namespace Lives

open Lib.Forest (AtOrAbove)
open Lib.Chronicle

variable {s s' : Lives} {p q c e parent n : Nat} {w w' : Option Nat} {t t' : ExecTree} {late : Prop}
  {stored : Option Int} {f : Life → Life}

/-! ## Connections and orphans -/

/-- `w` is the window. -/
structure Footing (w : Option Nat) (s : Lives) : Prop where
  shape : Shape s
  conns : ∀ k p, s.conns k = some (.proc p) → p < s.size ∧ (s.life p).state = .running
  connsInj : ∀ k k' p, s.conns k = some (.proc p) → s.conns k' = some (.proc p) → k = k'
  orphan : ∀ p e, p < s.size → (s.life p).orphan = true → (s.life p).execPoint = some e →
    Barren s.tree e ∨ w = some e
  hasOrphan : ∀ p e, p < s.size → (s.life p).hasOrphanDescendant = true → (s.life p).execPoint = some e →
    Barren s.tree e

/-- Nothing a footing is about has got worse. -/
theorem Footing.of (h : Footing w s) (hshape : Shape s') (hsize : s.size ≤ s'.size)
    (hconns : ∀ k p, s'.conns k = some (.proc p) → s.conns k = some (.proc p) ∧ (s'.life p).state = .running)
    (horphan : ∀ p e, p < s'.size → (s'.life p).orphan = true → (s'.life p).execPoint = some e →
      p < s.size ∧ (s.life p).orphan = true ∧ (s.life p).execPoint = some e)
    (hhas : ∀ p e, p < s'.size → (s'.life p).hasOrphanDescendant = true → (s'.life p).execPoint = some e →
      p < s.size ∧ (s.life p).hasOrphanDescendant = true ∧ (s.life p).execPoint = some e)
    (hbarren : ∀ p e, p < s.size → (s.life p).execPoint = some e → Barren s.tree e → Barren s'.tree e) :
    Footing w s' := by
  refine ⟨hshape, fun k p hk => ?_, fun k k' p hk hk' => ?_, fun p e hp ho he => ?_, fun p e hp ho he => ?_⟩
  · exact ⟨Nat.lt_of_lt_of_le (h.conns k p (hconns k p hk).1).1 hsize, (hconns k p hk).2⟩
  · exact h.connsInj k k' p (hconns k p hk).1 (hconns k' p hk').1
  · obtain ⟨hp, ho, he⟩ := horphan p e hp ho he
    exact (h.orphan p e hp ho he).imp_left (hbarren p e hp he)
  · obtain ⟨hp, ho, he⟩ := hhas p e hp ho he
    exact hbarren p e hp he (h.hasOrphan p e hp ho he)

/-- One process changes, but not its exec point, and it has an orphan only below what is barren. -/
theorem Footing.modify (h : Footing w s) (hshape : Shape (s.modify p f))
    (hstate : (∃ k, s.conns k = some (.proc p)) → (f (s.life p)).state = (s.life p).state)
    (hep : (f (s.life p)).execPoint = (s.life p).execPoint)
    (ho : (f (s.life p)).orphan = true → (s.life p).orphan = true ∨
      ∀ e, (s.life p).execPoint = some e → Barren s.tree e ∨ w = some e)
    (hh : (f (s.life p)).hasOrphanDescendant = true → (s.life p).hasOrphanDescendant = true ∨
      ∀ e, (s.life p).execPoint = some e → Barren s.tree e) : Footing w (s.modify p f) := by
  refine ⟨hshape, fun k q hk => ?_, h.connsInj, fun q e hq hqo hqe => ?_, fun q e hq hqh hqe => ?_⟩
  · obtain ⟨hq, hrun⟩ := h.conns k q hk
    refine ⟨hq, ?_⟩
    by_cases hqp : q = p
    · subst hqp
      rwa [modify_self, hstate ⟨k, hk⟩]
    · rwa [modify_other hqp]
  · rw [modify_proj Life.execPoint hep] at hqe
    by_cases hqp : q = p
    · subst hqp
      rw [modify_self] at hqo
      exact (ho hqo).elim (fun ho => h.orphan q e hq ho hqe) fun ho => ho e hqe
    · rw [modify_other hqp] at hqo
      exact h.orphan q e hq hqo hqe
  · rw [modify_proj Life.execPoint hep] at hqe
    by_cases hqp : q = p
    · subst hqp
      rw [modify_self] at hqh
      exact (hh hqh).elim (fun hh => h.hasOrphan q e hq hh hqe) fun hh => hh e hqe
    · rw [modify_other hqp] at hqh
      exact h.hasOrphan q e hq hqh hqe

theorem Footing.log (h : Footing w s) (hshape : Shape { s with log := l }) :
    Footing w { s with log := l } :=
  { h with shape := hshape }

/-- Nothing but its children has changed for a process. -/
structure Kept (l l' : Life) : Prop where
  state : l'.state = l.state
  orphan : l'.orphan = l.orphan
  hasOrphan : l'.hasOrphanDescendant = l.hasOrphanDescendant
  execPoint : l'.execPoint = l.execPoint
  forkPoint : l'.forkPoint = l.forkPoint
  pending : (l'.execPending || l'.hasPendingPopen) = (l.execPending || l.hasPendingPopen)

/-- A new process, below one that was there. -/
theorem Footing.grow (h : Footing w s) (hshape : Shape s') (hsize : s'.size = s.size + 1)
    (hconns : s'.conns = s.conns) (hold : ∀ q, q < s.size → Kept (s.life q) (s'.life q))
    (hnew : (s'.life s.size).orphan = false ∧ (s'.life s.size).hasOrphanDescendant = false)
    (hbarren : ∀ p e, p < s.size → (s.life p).execPoint = some e → Barren s.tree e → Barren s'.tree e) :
    Footing w s' := by
  have hcases : ∀ q, q < s'.size → q < s.size ∨ q = s.size := by omega
  refine h.of hshape (by omega) (fun k q hk => ?_) (fun q e hq ho he => ?_) (fun q e hq ho he => ?_) hbarren
  · rw [hconns] at hk
    obtain ⟨hq, hrun⟩ := h.conns k q hk
    exact ⟨hk, (hold q hq).state.trans hrun⟩
  · rcases hcases q hq with hlt | rfl
    · exact ⟨hlt, (hold q hlt).orphan ▸ ho, (hold q hlt).execPoint ▸ he⟩
    · rw [hnew.1] at ho
      cases ho
  · rcases hcases q hq with hlt | rfl
    · exact ⟨hlt, (hold q hlt).hasOrphan ▸ ho, (hold q hlt).execPoint ▸ he⟩
    · rw [hnew.2] at ho
      cases ho

theorem addForked_keeps (parent : Nat) (hq : q < s.size) : Kept (s.life q) ((s.addForked parent).life q) := by
  rw [addForked_life s parent q hq]
  split <;> exact ⟨rfl, rfl, rfl, rfl, rfl, rfl⟩

theorem addExeced_keeps (parent node : Nat) (hq : q < s.size) : Kept (s.life q) ((s.addExeced parent node).life q) := by
  rw [addExeced_life s parent node q hq]
  split <;> exact ⟨rfl, rfl, rfl, rfl, rfl, rfl⟩

theorem Shape.barren_exec (h : Shape s) (ht : s.tree.exec par = some t')
    (hpar : ∀ q ∈ par, q < s.tree.size) (hp : p < s.size) (he : (s.life p).execPoint = some e) (hb : Barren s.tree e) :
    Barren t' e := by
  obtain ⟨-, -, hup, hcan⟩ := exec_grows h.tree hpar ht
  exact hb.link h.tree (Nat.ne_of_lt (h.execPoint_lt p e hp he)) (fun x hx => Nat.lt_irrefl _ (h.tree.lt hx))
    (fun x hx => by rw [hup, if_neg hx]) (fun x hx => by rw [hcan, if_neg hx])

theorem Move.footing (hm : Move late w s w' s') (h : Footing w s) : Footing w' s' := by
  have hshape := hm.shape h.shape
  cases hm with
  | tree hw =>
    exact h.of hshape (Nat.le_refl _) (fun k p hk => ⟨hk, (h.conns k p hk).2⟩) (fun p e hp ho he => ⟨hp, ho, he⟩)
      (fun p e hp ho he => ⟨hp, ho, he⟩) (fun _ _ _ _ hb => hb.weaken hw)
  | flags p x y z _ | dropExecChild p => exact h.modify hshape (fun _ => rfl) rfl .inl .inl
  | orphan p ho => exact h.modify hshape (fun _ => rfl) rfl (fun _ => .inr ho) .inl
  | hasOrphan p ho => exact h.modify hshape (fun _ => rfl) rfl .inl fun _ => .inr ho
  | openWindow e hw =>
    subst hw
    exact { h with orphan := fun p e hp ho he => .inl ((h.orphan p e hp ho he).resolve_right nofun) }
  | closeWindow e hw hb =>
    refine { h with orphan := fun p e' hp ho he => .inl ?_ }
    rcases h.orphan p e' hp ho he with hbar | hw'
    · exact hbar
    rw [hw] at hw'
    cases hw'
    exact hb
  | terminate p _ hrun hc =>
    have h' : Footing w (s.modify p ({ · with state := .terminated })) :=
      h.modify (h.shape.modify rfl) (fun ⟨k, hk⟩ => absurd hk (hc k)) rfl .inl .inl
    exact h'.log hshape
  | finalize p stored hw _ hterm _ _ =>
    have h' : Footing w (s.modify p ({ · with state := .finalized })) :=
      h.modify (h.shape.modify rfl) (fun ⟨k, hk⟩ => nomatch (h.conns k p hk).2.symm.trans hterm) rfl .inl .inl
    exact hw ▸ h'.log hshape
  | forked parent hp _ =>
    exact h.grow hshape rfl rfl (fun q hq => addForked_keeps parent hq)
      (by rw [addForked_new]; exact ⟨rfl, rfl⟩) (fun _ _ _ _ hb => hb)
  | execed parent hp _ ht =>
    exact h.grow hshape rfl rfl (fun q hq => addExeced_keeps parent _ hq) (by rw [addExeced_new]; exact ⟨rfl, rfl⟩)
      (fun _ _ => h.shape.barren_exec ht fun q hq => h.shape.execPoint_lt parent q hp hq)
  | queue conn pid ppid ht =>
    refine h.of hshape (Nat.le_refl _) (fun k p hk => ?_) (fun p e hp ho he => ⟨hp, ho, he⟩)
      (fun p e hp ho he => ⟨hp, ho, he⟩) (fun _ _ => h.shape.barren_exec ht nofun)
    have hk : (if k = conn then some .incomplete else s.conns k) = some (.proc p) := hk
    split at hk
    · cases hk
    · exact ⟨hk, (h.conns k p hk).2⟩
  | adopt parent k n x hp _ hx hn ht =>
    obtain ⟨-, hleaf, hnone, -⟩ := h.shape.queued k x hx
    have hne : n ≠ x.node := fun he => hnone parent hp (he ▸ hn)
    obtain ⟨-, -, hup, hcan⟩ := setParent_links h.shape.tree hleaf (h.shape.execPoint_lt parent n hp hn) hne ht
    refine h.grow hshape rfl rfl (fun q hq => addExeced_keeps parent _ hq)
      (by show _ ∧ _; exact ⟨congrArg Life.orphan (addExeced_new s parent x.node),
            congrArg Life.hasOrphanDescendant (addExeced_new s parent x.node)⟩) (fun q e hq he hb => ?_)
    exact hb.link h.shape.tree (fun hxe : e = x.node => hnone q hq (hxe ▸ he)) hleaf (fun y hy => by rw [hup, if_neg hy])
      (fun y _ => by rw [hcan])
  | conn k c hc =>
    refine ⟨hshape, fun k' p hk => ?_, fun k1 k2 p h1 h2 => ?_, h.orphan, h.hasOrphan⟩
    · have hk : (if k' = k then c else s.conns k') = some (.proc p) := hk
      split at hk
      · exact ⟨(hc p hk).1, (hc p hk).2.1⟩
      · exact h.conns k' p hk
    · have h1 : (if k1 = k then c else s.conns k1) = some (.proc p) := h1
      have h2 : (if k2 = k then c else s.conns k2) = some (.proc p) := h2
      split at h1 <;> split at h2
      · simp_all
      · exact absurd h2 ((hc p h1).2.2 k2)
      · exact absurd h1 ((hc p h2).2.2 k1)
      · exact h.connsInj k1 k2 p h1 h2

theorem Moves.footing (h : Moves late w s w' s') (hs : Footing w s) : Footing w' s' :=
  h.keep (fun _ _ _ _ hm hs => hm.footing hs) hs

/-! ## What the log says -/

structure Chronicled (s : Lives) : Prop where
  terminated_iff : ∀ p, p < s.size → (.terminated p ∈ s.log ↔ (s.life p).state ≠ .running)
  finalized_iff : ∀ p, p < s.size → (.finalized p ∈ s.log ↔ (s.life p).state = .finalized)
  known : ∀ p, s.size ≤ p → .terminated p ∉ s.log ∧ .finalized p ∉ s.log
  stored : ∀ p e, .stored p e ∈ s.log → .finalized p ∈ s.log ∧ e ≠ -1
  once : ∀ p, s.log.countP (·.isStoreOf p) ≤ 1
  terminatedFirst : ∀ p, Before s.log (.terminated p) (.finalized p)

/-- The log and the states are the same; there may be a new process, which is running. -/
theorem Chronicled.of (h : Chronicled s) (hlog : s'.log = s.log) (hsize : s.size ≤ s'.size)
    (hold : ∀ p, p < s.size → (s'.life p).state = (s.life p).state)
    (hnew : ∀ p, p < s'.size → s.size ≤ p → (s'.life p).state = .running) : Chronicled s' := by
  refine ⟨fun p hp => ?_, fun p hp => ?_, fun p hp => ?_, hlog ▸ h.stored, hlog ▸ h.once, hlog ▸ h.terminatedFirst⟩
  · rw [hlog]
    by_cases hlt : p < s.size
    · rw [hold p hlt]
      exact h.terminated_iff p hlt
    · rw [hnew p hp (by omega)]
      exact ⟨fun hmem => absurd hmem (h.known p (by omega)).1, fun hne => absurd rfl hne⟩
  · rw [hlog]
    by_cases hlt : p < s.size
    · rw [hold p hlt]
      exact h.finalized_iff p hlt
    · rw [hnew p hp (by omega)]
      exact ⟨fun hmem => absurd hmem (h.known p (by omega)).2, nofun⟩
  · rw [hlog]
    exact h.known p (Nat.le_trans hsize hp)

theorem Chronicled.modify (h : Chronicled s) (hf : (f (s.life p)).state = (s.life p).state) :
    Chronicled (s.modify p f) :=
  h.of rfl (Nat.le_refl _) (fun q _ => modify_proj Life.state hf q) fun _ hq hle => absurd hq (Nat.not_lt.mpr hle)

theorem setTerminated_proj {β : Type} (g : Life → β) (hg : ∀ l : Life, g { l with state := .terminated } = g l)
    (s : Lives) (p q : Nat) : g ((s.setTerminated p).life q) = g (s.life q) :=
  modify_proj (f := ({ · with state := .terminated })) g (hg _) q

theorem setTerminated_state (s : Lives) (p q : Nat) :
    ((s.setTerminated p).life q).state = if q = p then .terminated else (s.life q).state := by
  by_cases hq : q = p <;> simp [setTerminated, modify, hq]

theorem setFinalized_state (s : Lives) (p q : Nat) (stored : Option Int) :
    ((s.setFinalized p stored).life q).state = if q = p then .finalized else (s.life q).state := by
  by_cases hq : q = p <;> simp [setFinalized, modify, hq]

theorem mem_setFinalized_log :
    m ∈ (s.setFinalized p stored).log ↔ m = .finalized p ∨ (∃ e, stored = some e ∧ m = .stored p e) ∨ m ∈ s.log := by
  cases stored <;> simp [setFinalized]

theorem Chronicled.terminate (h : Chronicled s) (hp : p < s.size) (hrun : (s.life p).state = .running) :
    Chronicled (s.setTerminated p) := by
  have hlog : (s.setTerminated p).log = .terminated p :: s.log := rfl
  refine ⟨fun q hq => ?_, fun q hq => ?_, fun q hq => ?_, fun q e hmem => ?_, fun q => ?_, fun q => ?_⟩
  · rw [setTerminated_state, hlog]
    by_cases hqp : q = p
    · simp [hqp]
    · simp [hqp, h.terminated_iff q hq]
  · rw [setTerminated_state, hlog]
    by_cases hqp : q = p
    · subst hqp
      simp [h.finalized_iff q hp, hrun]
    · simp [hqp, h.finalized_iff q hq]
  · have hqp : q ≠ p := fun he => absurd hp (Nat.not_lt.mpr (he ▸ hq))
    simpa [hlog, hqp] using h.known q hq
  · rw [hlog] at hmem ⊢
    have hmem : .stored q e ∈ s.log := by simpa using hmem
    exact ⟨List.mem_cons_of_mem _ (h.stored q e hmem).1, (h.stored q e hmem).2⟩
  · exact h.once q
  · exact (h.terminatedFirst q).cons nofun

theorem Chronicled.finalize (h : Chronicled s) (hp : p < s.size)
    (hterm : (s.life p).state = .terminated) (hstored : ∀ e, stored = some e → e ≠ -1) :
    Chronicled (s.setFinalized p stored) := by
  have hnot : .finalized p ∉ s.log := fun hmem => by
    rw [h.finalized_iff p hp, hterm] at hmem
    cases hmem
  have hbefore : .terminated p ∈ s.log := (h.terminated_iff p hp).mpr (by rw [hterm]; nofun)
  have hcount : s.log.countP (·.isStoreOf p) = 0 := by
    rw [List.countP_eq_zero]
    intro m hm hstore
    cases m with
    | terminated q | finalized q => cases hstore
    | stored q e =>
      obtain rfl : q = p := of_decide_eq_true hstore
      exact hnot (h.stored q e hm).1
  refine ⟨fun q hq => ?_, fun q hq => ?_, fun q hq => ?_, fun q e hmem => ?_, fun q => ?_, fun q => ?_⟩
  · rw [setFinalized_state, mem_setFinalized_log]
    by_cases hqp : q = p
    · simp [hqp, hbefore]
    · simp [hqp, h.terminated_iff q hq]
  · rw [setFinalized_state, mem_setFinalized_log]
    by_cases hqp : q = p
    · simp [hqp]
    · simp [hqp, h.finalized_iff q hq]
  · have hqp : q ≠ p := fun he => absurd hp (Nat.not_lt.mpr (he ▸ hq))
    rw [mem_setFinalized_log, mem_setFinalized_log]
    simpa [hqp] using h.known q hq
  · rw [mem_setFinalized_log] at hmem ⊢
    rcases hmem with hmem | ⟨e', he', hmem⟩ | hmem
    · cases hmem
    · cases hmem
      exact ⟨.inl rfl, hstored e he'⟩
    · exact ⟨.inr (.inr (h.stored q e hmem).1), (h.stored q e hmem).2⟩
  · show (Milestone.finalized p :: ((stored.map (Milestone.stored p)).toList ++ s.log)).countP _ ≤ 1
    by_cases hqp : q = p
    · subst hqp
      cases stored <;> simp [hcount]
    · have hpq : ¬p = q := fun he => hqp he.symm
      cases stored <;> simp [hpq, h.once q]
  · by_cases hqp : q = p
    · subst hqp
      refine before_cons.mpr ⟨fun _ => List.mem_append_right _ hbefore, before_of_not_mem fun hmem => ?_⟩
      rcases List.mem_append.mp hmem with hmem | hmem
      · cases stored <;> simp at hmem
      · exact hnot hmem
    · have hne : Milestone.finalized p ≠ .finalized q := fun he => hqp (Milestone.finalized.inj he).symm
      refine Before.cons ?_ hne
      cases stored with
      | none => exact h.terminatedFirst q
      | some e => exact (h.terminatedFirst q).cons nofun

theorem Move.chronicled (hm : Move late w s w' s') (h : Chronicled s) : Chronicled s' := by
  have hgrow : ∀ {s' : Lives}, s'.log = s.log → s'.size = s.size + 1 →
      (∀ p, p < s.size → (s'.life p).state = (s.life p).state) → (s'.life s.size).state = .running →
      Chronicled s' := fun hlog hsize hold hnew =>
    h.of hlog (by omega) hold fun p hp hle => (show p = s.size by omega) ▸ hnew
  cases hm with
  | tree _ | queue conn pid ppid ht | conn k c _ =>
    exact h.of rfl (Nat.le_refl _) (fun _ _ => rfl) fun p hp hle => absurd hp (Nat.not_lt.mpr hle)
  | flags p x y z _ | orphan p _ | hasOrphan p _ | dropExecChild p => exact h.modify rfl
  | openWindow e _ | closeWindow e _ _ => exact h
  | terminate p hp hrun _ => exact h.terminate hp hrun
  | finalize p stored _ hp hterm _ hstored => exact h.finalize hp hterm fun e he => (hstored e he).1
  | forked parent hp _ =>
    exact hgrow rfl rfl (fun q hq => (addForked_keeps parent hq).state) (by rw [addForked_new])
  | execed parent hp _ ht | adopt parent k n x hp _ hx hn ht =>
    exact hgrow rfl rfl (fun q hq => (addExeced_keeps parent _ hq).state)
      (congrArg Life.state (addExeced_new s parent _))

theorem Moves.chronicled (h : Moves late w s w' s') (hs : Chronicled s) : Chronicled s' :=
  h.keep (fun _ _ _ _ hm hs => hm.chronicled hs) hs

/-! ## Finalizing in time -/

/-- On the exec chain of the root, once an orphan is below it. -/
def Exempt (s : Lives) (p : Nat) : Prop := (s.life p).forkPoint = 0 ∧ (s.life 0).hasOrphanDescendant = true

def Child (s : Lives) (p c : Nat) : Prop := c ∈ (s.life p).forkChildren ∨ (s.life p).execChild = some c

/-- The children that are finalized before the process is stored. -/
def Awaits (s : Lives) (p c : Nat) : Prop :=
  c ∈ (s.life p).forkChildren ∨ ((s.life p).execChild = some c ∧ ¬Exempt s p)

structure Timely (s : Lives) : Prop where
  pending : ∀ p, p < s.size → (s.life p).state = .finalized → Exempt s p ∨ s.pending p = false
  forkChildren : ∀ p c, p < s.size → (s.life p).state = .finalized → c ∈ (s.life p).forkChildren →
    (s.life c).state = .finalized ∨ (Exempt s p ∧ ((s.life c).orphan = true ∨
      ((s.life c).state ≠ .running ∧ (s.life c).hasOrphanDescendant = true)))
  execChild : ∀ p c, p < s.size → (s.life p).state = .finalized → (s.life p).execChild = some c →
    (s.life c).state = .finalized ∨ (Exempt s p ∧ (s.life c).state ≠ .running)
  childrenFirst : ∀ p c, p < s.size → Child s p c → Exempt s p ∨ Before s.log (.finalized c) (.finalized p)
  storedAfter : ∀ p c e, p < s.size → Awaits s p c → Before s.log (.finalized c) (.stored p e)

/-- No process is new and none newly finalized; links may be dropped and orphans found. -/
theorem Timely.of (h : Timely s) (hsize : s'.size = s.size)
    (hfin : ∀ q, (s'.life q).state = .finalized ↔ (s.life q).state = .finalized)
    (hrun : ∀ q, (s.life q).state ≠ .running → (s'.life q).state ≠ .running)
    (hfp : ∀ q, (s'.life q).forkPoint = (s.life q).forkPoint)
    (hpend : ∀ q, (s.life q).state = .finalized → s'.pending q = true → s.pending q = true)
    (hfork : ∀ q, (s'.life q).forkChildren = (s.life q).forkChildren)
    (hexec : ∀ q c, (s'.life q).execChild = some c → (s.life q).execChild = some c)
    (ho : ∀ q, (s.life q).orphan = true → (s'.life q).orphan = true)
    (hh : ∀ q, (s.life q).hasOrphanDescendant = true → (s'.life q).hasOrphanDescendant = true)
    (hlog : ∀ a b, (∀ p, b ≠ .terminated p) → Before s.log a b → Before s'.log a b) : Timely s' := by
  have hexempt : ∀ q, Exempt s q → Exempt s' q := fun q hx => ⟨(hfp q).trans hx.1, hh 0 hx.2⟩
  refine ⟨fun q hq hf => ?_, fun q c hq hf hc => ?_, fun q c hq hf hc => ?_, fun q c hq hc => ?_, fun q c e hq hc => ?_⟩
  · rw [hsize] at hq
    rw [hfin] at hf
    refine (h.pending q hq hf).imp (hexempt q) fun hp => ?_
    cases hp' : s'.pending q with
    | false => rfl
    | true => exact nomatch hp.symm.trans (hpend q hf hp')
  · rw [hsize] at hq
    rw [hfin] at hf
    rw [hfork] at hc
    rw [hfin]
    refine (h.forkChildren q c hq hf hc).imp_right fun ⟨hx, hc⟩ => ⟨hexempt q hx, ?_⟩
    exact hc.imp (ho c) fun ⟨hr, hhas⟩ => ⟨hrun c hr, hh c hhas⟩
  · rw [hsize] at hq
    rw [hfin] at hf
    rw [hfin]
    exact (h.execChild q c hq hf (hexec q c hc)).imp_right fun ⟨hx, hr⟩ => ⟨hexempt q hx, hrun c hr⟩
  · rw [hsize] at hq
    have hc : Child s q c := hc.imp (fun hc => hfork q ▸ hc) (hexec q c)
    exact (h.childrenFirst q c hq hc).imp (hexempt q) (hlog _ _ nofun)
  · rw [hsize] at hq
    have hc : Awaits s q c :=
      hc.imp (fun hc => hfork q ▸ hc) fun ⟨hc, hx⟩ => ⟨hexec q c hc, fun hx' => hx (hexempt q hx')⟩
    exact hlog _ _ nofun (h.storedAfter q c e hq hc)

/-- A process changes in what only its own pending work, links and orphans are about. -/
theorem Timely.modify (h : Timely s) (hstate : (f (s.life p)).state = (s.life p).state)
    (hfp : (f (s.life p)).forkPoint = (s.life p).forkPoint)
    (hpend : (s.life p).state = .finalized → (s.modify p f).pending p = true → s.pending p = true)
    (hfork : (f (s.life p)).forkChildren = (s.life p).forkChildren)
    (hexec : ∀ c, (f (s.life p)).execChild = some c → (s.life p).execChild = some c)
    (ho : (s.life p).orphan = true → (f (s.life p)).orphan = true)
    (hh : (s.life p).hasOrphanDescendant = true → (f (s.life p)).hasOrphanDescendant = true) :
    Timely (s.modify p f) := by
  have hsplit : ∀ {P : Nat → Prop}, P p → (∀ q, q ≠ p → P q) → ∀ q, P q := fun {P} hp hne q => by
    by_cases hq : q = p
    · exact hq ▸ hp
    · exact hne q hq
  refine h.of rfl (fun q => by rw [modify_proj Life.state hstate]) (fun q => by rw [modify_proj Life.state hstate]; exact id)
    (modify_proj Life.forkPoint hfp) (hsplit hpend fun q hq => ?_) (modify_proj Life.forkChildren hfork)
    (hsplit (by rwa [modify_self]) fun q hq => by rw [modify_other hq]; exact fun _ => id)
    (hsplit (by rwa [modify_self]) fun q hq => by rw [modify_other hq]; exact id)
    (hsplit (by rwa [modify_self]) fun q hq => by rw [modify_other hq]; exact id) (fun _ _ _ => id)
  intro _ hpq
  rw [Lives.pending, modify_other hq] at hpq
  exact hpq

theorem Timely.terminate (h : Timely s) (hrun : (s.life p).state = .running) : Timely (s.setTerminated p) := by
  have hlife {β : Type} (g : Life → β) hg := setTerminated_proj g hg s p
  refine h.of rfl (fun q => ?_) (fun q hq => ?_) (hlife Life.forkPoint fun _ => rfl)
    (fun q _ hpend => (congrArg₂ or (hlife Life.execPending (fun _ => rfl) q).symm
      (hlife Life.hasPendingPopen (fun _ => rfl) q).symm).trans hpend)
    (hlife Life.forkChildren fun _ => rfl) (fun q c hc => (hlife Life.execChild (fun _ => rfl) q).symm.trans hc)
    (fun q ho => (hlife Life.orphan (fun _ => rfl) q).trans ho)
    (fun q hh => (hlife Life.hasOrphanDescendant (fun _ => rfl) q).trans hh) (fun a b hb hab => ?_)
  · rw [setTerminated_state]
    by_cases hq : q = p
    · subst hq
      simp [hrun]
    · simp [hq]
  · rw [setTerminated_state]
    split
    · nofun
    · exact hq
  · exact hab.cons (hb p).symm

/-- A new process below one that is not finalized. -/
theorem Timely.grow (h : Timely s) (hc : Chronicled s) (hp : parent < s.size)
    (hparent : (s.life parent).state ≠ .finalized) (hlog : s'.log = s.log) (hsize : s'.size = s.size + 1)
    (hold : ∀ q, q < s.size → Kept (s.life q) (s'.life q)) (hshape : Shape s)
    (hnew : (s'.life s.size).state = .running ∧ (s'.life s.size).forkChildren = [] ∧
      (s'.life s.size).execChild = none)
    (hfork : ∀ q c, q < s.size → c ∈ (s'.life q).forkChildren → c ∈ (s.life q).forkChildren ∨ q = parent)
    (hexec : ∀ q c, q < s.size → (s'.life q).execChild = some c → (s.life q).execChild = some c ∨ q = parent) :
    Timely s' := by
  have hexempt : ∀ q, q < s.size → (Exempt s' q ↔ Exempt s q) := fun q hq => by
    rw [Exempt, Exempt, (hold q hq).forkPoint, (hold 0 hshape.pos).hasOrphan]
  have hfinal : .finalized parent ∉ s.log := fun hmem => hparent ((hc.finalized_iff parent hp).mp hmem)
  -- the new process is running and has no child
  have hfin : ∀ q, q < s'.size → (s'.life q).state = .finalized → q < s.size ∧ (s.life q).state = .finalized := by
    intro q hq hf
    have hlt : q < s.size := by
      by_contra hge
      rw [show q = s.size by omega, hnew.1] at hf
      cases hf
    exact ⟨hlt, (hold q hlt).state ▸ hf⟩
  have hchild : ∀ q c, q < s'.size → Child s' q c → q < s.size := by
    intro q c hq hmem
    by_contra hge
    rw [show q = s.size by omega, Child, hnew.2.1, hnew.2.2] at hmem
    simp at hmem
  refine ⟨fun q hq hf => ?_, fun q c hq hf hmem => ?_, fun q c hq hf hmem => ?_, fun q c hq hmem => ?_,
    fun q c e hq hmem => ?_⟩
  · obtain ⟨hlt, hf⟩ := hfin q hq hf
    rw [Lives.pending, (hold q hlt).pending, hexempt q hlt]
    exact h.pending q hlt hf
  · obtain ⟨hlt, hf⟩ := hfin q hq hf
    rcases hfork q c hlt hmem with hmem | rfl
    · have hcl := hold c (hshape.forkChild q c hlt hmem).1
      rw [hcl.state, hcl.orphan, hcl.hasOrphan, hexempt q hlt]
      exact h.forkChildren q c hlt hf hmem
    · exact absurd hf hparent
  · obtain ⟨hlt, hf⟩ := hfin q hq hf
    rcases hexec q c hlt hmem with hmem | rfl
    · rw [(hold c (hshape.execChild q c hlt hmem).1).state, hexempt q hlt]
      exact h.execChild q c hlt hf hmem
    · exact absurd hf hparent
  · have hlt := hchild q c hq hmem
    rw [hlog, hexempt q hlt]
    by_cases hqp : q = parent
    · exact .inr (before_of_not_mem (hqp ▸ hfinal))
    · exact h.childrenFirst q c hlt (hmem.imp (fun hm => (hfork q c hlt hm).resolve_right hqp)
        fun hm => (hexec q c hlt hm).resolve_right hqp)
  · have hlt := hchild q c hq (hmem.imp_right And.left)
    rw [hlog]
    by_cases hqp : q = parent
    · exact before_of_not_mem fun hs => hfinal (hqp ▸ (hc.stored q e hs).1)
    · exact h.storedAfter q c e hlt (hmem.imp (fun hm => (hfork q c hlt hm).resolve_right hqp)
        fun ⟨hm, hx⟩ => ⟨(hexec q c hlt hm).resolve_right hqp, fun hx' => hx ((hexempt q hlt).mpr hx')⟩)

theorem fine_state (h : s.finalizedOrTerminatedAndHasOrphanAndFinalizedChildren n c = true) :
    (s.life c).state = .finalized ∨
      ((s.life c).state = .terminated ∧ (s.life (s.life c).forkPoint).hasOrphanDescendant = true) := by
  cases n with
  | zero => cases h
  | succ n =>
    rw [finalizedOrTerminatedAndHasOrphanAndFinalizedChildren] at h
    cases hstate : (s.life c).state with
    | finalized => exact .inl rfl
    | running => simp [hstate] at h
    | terminated =>
      simp only [hstate, Bool.and_eq_true] at h
      exact .inr ⟨rfl, h.1.1⟩

/-- A fork()ed child that its parent does not wait for. -/
def Left (s : Lives) (c : Nat) : Prop :=
  (s.life c).state = .finalized ∨ (s.life c).orphan = true ∨
    ((s.life c).state ≠ .running ∧ (s.life c).hasOrphanDescendant = true)

/-- A process that may be finalized has no work left below it, or only orphans are. -/
theorem Shape.ready (h : Shape s) (hp : p < s.size) (hterm : (s.life p).state = .terminated) (hready : Ready s p) :
    (s.pending p = false ∧ (∀ c ∈ (s.life p).forkChildren, (s.life c).state = .finalized) ∧
      ∀ c, (s.life p).execChild = some c → (s.life c).state = .finalized) ∨
    (Exempt s p ∧ (∀ c ∈ (s.life p).forkChildren, Left s c) ∧
      ∀ c, (s.life p).execChild = some c → (s.life c).state ≠ .running) := by
  rcases hready with hnone | honly
  · left
    simp only [anyChildNotFinalized, Bool.or_eq_false_iff, List.any_eq_false] at hnone
    obtain ⟨⟨hpending, hexec⟩, hfork⟩ := hnone
    refine ⟨hpending, fun c hc => by simpa [notFinalized] using hfork c hc, fun c hc => ?_⟩
    rw [hc] at hexec
    simpa [notFinalized] using hexec
  · right
    simp only [onlyOrphansLeft, Bool.and_eq_true, Option.isNone_iff_eq_none] at honly
    obtain ⟨⟨hparent, hhas⟩, hfine⟩ := honly
    have hfp : (s.life p).forkPoint = 0 := by
      by_contra hne
      obtain ⟨q, hd⟩ := h.lineage _ hne (Nat.lt_of_le_of_lt (h.forkPoint_spec p hp).1 hp)
      exact nomatch hparent.symm.trans hd.parent
    obtain ⟨n, hn⟩ : ∃ n, s.size = n + 1 := ⟨s.size - 1, by omega⟩
    rw [hn, finalizedOrTerminatedAndHasOrphanAndFinalizedChildren, hterm] at hfine
    simp only [Bool.and_eq_true, List.all_eq_true, Bool.or_eq_true] at hfine
    refine ⟨⟨hfp, hfp ▸ hhas⟩, fun c hc => ?_, fun c hc => ?_⟩
    · obtain ⟨hcs, hcp, hce⟩ := h.forkChild p c hp hc
      rcases hfine.1.2 c hc with ho | hf
      · exact .inr (.inl ho)
      rcases fine_state hf with hfin | ⟨hct, hch⟩
      · exact .inl hfin
      · rw [((h.parent_lt hcs hcp).2.2.forked hce).1] at hch
        exact .inr (.inr ⟨by rw [hct]; nofun, hch⟩)
    · rw [hc] at hfine
      rcases fine_state hfine.2 with hfin | ⟨hct, -⟩
      · rw [hfin]
        nofun
      · rw [hct]
        nofun

/-- A process that is stored has only fork()ed children that are finalized. -/
theorem Footing.forkChild_finalized (h : Footing none s) (hp : p < s.size)
    (hn : (s.life p).execPoint = some n) (hcan : s.tree.can n = true) (hc : c ∈ (s.life p).forkChildren)
    (hleft : Left s c) : (s.life c).state = .finalized := by
  obtain ⟨hcs, hcp, hce⟩ := h.shape.forkChild p c hp hc
  have hcn : (s.life c).execPoint = some n := (((h.shape.parent_lt hcs hcp).2.2.forked hce).2).trans hn
  have hnot : ¬Barren s.tree n := fun hb => by
    obtain ⟨l, hl⟩ := h.shape.tree.chain n
    rw [hb n ⟨l, hl, List.mem_cons_self⟩] at hcan
    cases hcan
  rcases hleft with hfin | ho | ⟨-, hh⟩
  · exact hfin
  · exact absurd ((h.orphan c n hcs ho hcn).resolve_right nofun) hnot
  · exact absurd (h.hasOrphan c n hcs hh hcn) hnot

theorem before_setFinalized (h : Before s.log a b)
    (hfin : b = .finalized p → a ∈ s.log ∧ b ∉ s.log) (hst : ∀ e, stored = some e → b = .stored p e → a ∈ s.log) :
    Before (s.setFinalized p stored).log a b := by
  have htail : Before ((stored.map (Milestone.stored p)).toList ++ s.log) a b := by
    cases stored with
    | none => exact h
    | some e => exact before_cons.mpr ⟨fun he => hst e rfl he.symm, h⟩
  exact before_cons.mpr ⟨fun he => List.mem_append_right _ (hfin he.symm).1, htail⟩

theorem Timely.finalize (h : Timely s) (hf : Footing none s) (hc : Chronicled s) (hp : p < s.size)
    (hterm : (s.life p).state = .terminated) (hready : Ready s p)
    (hstored : ∀ e, stored = some e → e ≠ -1 ∧ ∃ n, (s.life p).execPoint = some n ∧ s.tree.can n = true) :
    Timely (s.setFinalized p stored) := by
  have hlife : ∀ {β : Type} (g : Life → β), (∀ l : Life, g { l with state := .finalized } = g l) →
      ∀ q, g ((s.setFinalized p stored).life q) = g (s.life q) := fun g hg q =>
    modify_proj (f := ({ · with state := .finalized })) g (hg _) q
  have hfork := hlife Life.forkChildren fun _ => rfl
  have hexec := hlife Life.execChild fun _ => rfl
  have horphan := hlife Life.orphan fun _ => rfl
  have hhas := hlife Life.hasOrphanDescendant fun _ => rfl
  have hpend : ∀ q, (s.setFinalized p stored).pending q = s.pending q := fun q =>
    congrArg₂ or (hlife Life.execPending (fun _ => rfl) q) (hlife Life.hasPendingPopen (fun _ => rfl) q)
  have hexempt : ∀ q, Exempt (s.setFinalized p stored) q ↔ Exempt s q := fun q => by
    rw [Exempt, Exempt, hlife Life.forkPoint (fun _ => rfl), hhas]
  have hkeep : ∀ q, (s.life q).state = .finalized → ((s.setFinalized p stored).life q).state = .finalized := fun q hq => by
    rw [setFinalized_state]
    split
    · rfl
    · exact hq
  have hkeepRun : ∀ q, (s.life q).state ≠ .running → ((s.setFinalized p stored).life q).state ≠ .running := fun q hq => by
    rw [setFinalized_state]
    split
    · nofun
    · exact hq
  have hmem : ∀ c, c < s.size → (s.life c).state = .finalized → .finalized c ∈ s.log := fun c hcs =>
    (hc.finalized_iff c hcs).mpr
  have hnot : .finalized p ∉ s.log := fun hm => by
    rw [hc.finalized_iff p hp, hterm] at hm
    cases hm
  have hall := hf.shape.ready hp hterm hready
  refine ⟨fun q hq hqf => ?_, fun q c hq hqf hqc => ?_, fun q c hq hqf hqc => ?_, fun q c hq hqc => ?_,
    fun q c e hq hqc => ?_⟩
  · rw [hexempt, hpend]
    by_cases hqp : q = p
    · subst hqp
      exact hall.symm.imp And.left And.left
    · rw [setFinalized_state, if_neg hqp] at hqf
      exact h.pending q hq hqf
  · rw [hfork] at hqc
    rw [hexempt, horphan, hhas]
    by_cases hqp : q = p
    · subst hqp
      rcases hall with ⟨-, hall, -⟩ | ⟨hx, hall, -⟩
      · exact .inl (hkeep c (hall c hqc))
      rcases hall c hqc with hfin | ho | ⟨hr, hh⟩
      · exact .inl (hkeep c hfin)
      · exact .inr ⟨hx, .inl ho⟩
      · exact .inr ⟨hx, .inr ⟨hkeepRun c hr, hh⟩⟩
    · rw [setFinalized_state, if_neg hqp] at hqf
      exact (h.forkChildren q c hq hqf hqc).imp (hkeep c) fun ⟨hx, hl⟩ =>
        ⟨hx, hl.imp_right fun ⟨hr, hh⟩ => ⟨hkeepRun c hr, hh⟩⟩
  · rw [hexec] at hqc
    rw [hexempt]
    by_cases hqp : q = p
    · subst hqp
      rcases hall with ⟨-, -, hall⟩ | ⟨hx, -, hall⟩
      · exact .inl (hkeep c (hall c hqc))
      · exact .inr ⟨hx, hkeepRun c (hall c hqc)⟩
    · rw [setFinalized_state, if_neg hqp] at hqf
      exact (h.execChild q c hq hqf hqc).imp (hkeep c) fun ⟨hx, hr⟩ => ⟨hx, hkeepRun c hr⟩
  · rw [Child, hfork, hexec] at hqc
    rw [hexempt]
    by_cases hqp : q = p
    · subst hqp
      rcases hall with ⟨-, hforked, hexeced⟩ | ⟨hx, -, -⟩
      · have hcfin : (s.life c).state = .finalized := hqc.elim (hforked c) (hexeced c)
        have hcs : c < s.size := (hf.shape.child_lt hp hqc).1
        exact .inr (before_setFinalized (before_of_not_mem hnot) (fun _ => ⟨hmem c hcs hcfin, hnot⟩) nofun)
      · exact .inl hx
    · refine (h.childrenFirst q c hq hqc).imp_right fun hb => before_setFinalized hb (fun he => ?_) nofun
      exact absurd (Milestone.finalized.inj he) hqp
  · rw [Awaits, hfork, hexec, hexempt] at hqc
    refine before_setFinalized (h.storedAfter q c e hq hqc) nofun fun e' he' he => ?_
    obtain ⟨rfl, -⟩ := Milestone.stored.inj he
    obtain ⟨-, n, hn, hcan⟩ := hstored e' he'
    rcases hqc with hqc | ⟨hqc, hx⟩
    · have hleft : Left s c := by
        rcases hall with ⟨-, hall, -⟩ | ⟨-, hall, -⟩
        · exact .inl (hall c hqc)
        · exact hall c hqc
      exact hmem c (hf.shape.forkChild q c hp hqc).1 (hf.forkChild_finalized hp hn hcan hqc hleft)
    · rcases hall with ⟨-, -, hall⟩ | ⟨hx', -, -⟩
      · exact hmem c (hf.shape.execChild q c hp hqc).1 (hall c hqc)
      · exact absurd hx' hx

theorem Timely.addForked (h : Timely s) (hf : Footing w s) (hc : Chronicled s) (hp : parent < s.size)
    (hparent : (s.life parent).state ≠ .finalized) : Timely (s.addForked parent) := by
  refine h.grow hc hp hparent rfl rfl (fun q hq => addForked_keeps parent hq) hf.shape
    (by rw [addForked_new]; exact ⟨rfl, rfl, rfl⟩) (fun q c hq hmem => ?_)
    (fun q c hq hmem => .inl (addForked_execChild hmem (Nat.lt_succ_of_lt hq)).2)
  exact (addForked_forkChildren hmem (Nat.lt_succ_of_lt hq)).imp And.right And.left

theorem Timely.addExeced (h : Timely s) (hf : Footing w s)
    (hc : Chronicled s) (hp : parent < s.size) (hparent : (s.life parent).state ≠ .finalized) :
    Timely { s.addExeced parent node with tree := t', posixSpawnChildSock := sock } := by
  have hnew := addExeced_new s parent node
  refine h.grow hc hp hparent rfl rfl (fun q hq => addExeced_keeps parent node hq) hf.shape
    ⟨congrArg Life.state hnew, congrArg Life.forkChildren hnew, congrArg Life.execChild hnew⟩
    (fun q c hq hmem => .inl (addExeced_forkChildren hmem (Nat.lt_succ_of_lt hq)).2) (fun q c hq hmem => ?_)
  exact (addExeced_execChild hmem (Nat.lt_succ_of_lt hq)).imp And.right And.left

theorem Move.timely (hm : Move False w s w' s') (h : Timely s) (hf : Footing w s) (hc : Chronicled s) : Timely s' := by
  have hsame : ∀ {s' : Lives}, s'.life = s.life → s'.size = s.size → s'.log = s.log → Timely s' :=
    fun hlife hsize hlog => h.of hsize (by simp [hlife]) (by simp [hlife]) (by simp [hlife])
      (by simp [Lives.pending, hlife]) (by simp [hlife]) (by simp [hlife]) (by simp [hlife]) (by simp [hlife])
      (by rw [hlog]; exact fun _ _ _ => id)
  cases hm with
  | tree _ | queue conn pid ppid ht | conn k c _ => exact hsame rfl rfl rfl
  | flags p x y z hflags =>
    refine h.modify rfl rfl (fun hfin hpend => ?_) rfl (fun _ => id) id id
    obtain ⟨hx, hy⟩ := hflags hfin
    rw [Lives.pending, show (s.modify p _).life p = _ from if_pos rfl] at hpend
    rw [Lives.pending, Bool.or_eq_true]
    exact (Bool.or_eq_true_iff.mp hpend).imp hx hy
  | orphan p _ | hasOrphan p _ | dropExecChild p =>
    exact h.modify rfl rfl (fun _ hp => by simpa [Lives.pending, Lives.modify] using hp) rfl (by simp) (by simp)
      (by simp)
  | openWindow e _ | closeWindow e _ _ => exact h
  | terminate p _ hrun _ => exact h.terminate hrun
  | finalize p stored hw hp hterm hready hstored => exact h.finalize (hw ▸ hf) hc hp hterm hready hstored
  | forked parent hp hl => exact h.addForked hf hc hp (hl.resolve_left id)
  | execed parent hp hl ht | adopt parent k n x hp hl hx hn ht => exact h.addExeced hf hc hp (hl.resolve_left id)

theorem Moves.timely (h : Moves False w s w' s') (ht : Timely s) (hf : Footing w s) (hc : Chronicled s) : Timely s' := by
  suffices Timely s' ∧ Footing w' s' ∧ Chronicled s' from this.1
  exact h.keep (P := fun w s => Timely s ∧ Footing w s ∧ Chronicled s)
    (fun _ _ _ _ hm ⟨ht, hf, hc⟩ => ⟨hm.timely ht hf hc, hm.footing hf, hm.chronicled hc⟩) ⟨ht, hf, hc⟩

end Lives
end Firebuild
