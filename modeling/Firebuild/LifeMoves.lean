/-
  Firebuild.LifeMoves — the moves a tree of processes is made of, and what they keep.

  Everything the supervisor does to the lives of processes is a sequence of `Move`s: a new
  process, a state set, a flag, a link dropped by the garbage collector. Between marking the
  children a process leaves behind as orphans and disabling shortcutting above them there is a
  window; it is part of a configuration, as the node it stands open for. Whether a child may
  come late, below a process that is finalized, is a parameter.

  Proved, for every move (`Move.shape`) and hence every sequence of them (`Moves.shape`):
  parents are older than their children, and the fork points, the exec points and the tree of
  exec()ed processes agree with the parents (`Shape`).
-/

import Firebuild.Lifecycle

namespace Firebuild
namespace Lives

open Lib.Forest (AtOrAbove Chain)
open Lib.Chronicle

variable {s s' : Lives} {p q c node n m : Nat} {w : Option Nat} {t t' : ExecTree} {f : Life → Life} {l l' : Life}

theorem modify_proj (g : Life → β) (hf : g (f (s.life p)) = g (s.life p)) (q : Nat) :
    g ((s.modify p f).life q) = g (s.life q) := by
  by_cases hq : q = p
  · subst hq
    simpa [modify] using hf
  · simp [modify, hq]

theorem modify_congr (h : f (s.life p) = g (s.life p)) : s.modify p f = s.modify p g := by
  unfold modify
  congr 1
  funext q
  by_cases hq : q = p
  · subst hq
    simpa using h
  · simp [hq]

theorem modify_self : (s.modify p f).life p = f (s.life p) := if_pos rfl

theorem modify_other (hq : q ≠ p) : (s.modify p f).life q = s.life q := if_neg hq

/-! ## Kinship -/

/-- What a process is born with. -/
def line (l : Life) : Life :=
  { execed := l.execed, parent := l.parent, forkPoint := l.forkPoint, execPoint := l.execPoint }

/-- With its children. -/
def kin (l : Life) : Life := { line l with forkChildren := l.forkChildren, execChild := l.execChild }

theorem line_eq : line l' = line l ↔ l'.execed = l.execed ∧ l'.parent = l.parent ∧
    l'.forkPoint = l.forkPoint ∧ l'.execPoint = l.execPoint := by
  simp [line]

theorem kin_eq : kin l' = kin l ↔ line l' = line l ∧ l'.forkChildren = l.forkChildren ∧
    l'.execChild = l.execChild := by
  simp only [kin, line]
  grind

/-- `p` is a child of `q`. -/
structure Descends (s : Lives) (p q : Nat) : Prop where
  parent : (s.life p).parent = some q
  lt : q < p
  execed : (s.life p).execed = true → (s.life p).forkPoint = (s.life q).forkPoint ∧
    ∃ n, (s.life p).execPoint = some n ∧ n < s.tree.size ∧ s.tree.up n = (s.life q).execPoint
  forked : (s.life p).execed = false → (s.life p).forkPoint = p ∧ (s.life p).execPoint = (s.life q).execPoint

structure Shape (s : Lives) : Prop where
  tree : s.tree.Inv
  pos : 0 < s.size
  root : line (s.life 0) = line {}
  lineage : ∀ p, p ≠ 0 → p < s.size → ∃ q, Descends s p q
  forkChild : ∀ p c, p < s.size → c ∈ (s.life p).forkChildren →
    c < s.size ∧ (s.life c).parent = some p ∧ (s.life c).execed = false
  execChild : ∀ p c, p < s.size → (s.life p).execChild = some c →
    c < s.size ∧ (s.life c).parent = some p ∧ (s.life c).execed = true
  /-- The node of a queued process is nobody's yet. -/
  queued : ∀ k x, s.posixSpawnChildSock k = some x → x.node < s.tree.size ∧ (∀ m, s.tree.up m ≠ some x.node) ∧
    (∀ p, p < s.size → (s.life p).execPoint ≠ some x.node) ∧
    ∀ k' x', s.posixSpawnChildSock k' = some x' → x'.node = x.node → k' = k

theorem Descends.congr (h : Descends s p q) (hp : line (s'.life p) = line (s.life p))
    (hq : line (s'.life q) = line (s.life q)) (hsize : s.tree.size ≤ s'.tree.size)
    (hup : ∀ n, (s.life p).execPoint = some n → s'.tree.up n = s.tree.up n) : Descends s' p q := by
  obtain ⟨hexe, hpar, hfp, hep⟩ := line_eq.mp hp
  obtain ⟨-, -, hfq, heq⟩ := line_eq.mp hq
  refine ⟨hpar.trans h.parent, h.lt, fun he => ?_, fun he => ?_⟩
  · obtain ⟨hf, n, hn, hlt, hu⟩ := h.execed (hexe ▸ he)
    exact ⟨by rw [hfp, hfq, hf], n, hep.trans hn, Nat.lt_of_lt_of_le hlt hsize, by rw [hup n hn, hu, heq]⟩
  · obtain ⟨hf, hx⟩ := h.forked (hexe ▸ he)
    exact ⟨hfp.trans hf, by rw [hep, heq, hx]⟩

section Shaped

variable (h : Shape s)
include h

/-- Nothing a shape is about has changed. -/
theorem Shape.congr (htree : s'.tree.Inv) (htsize : s'.tree.size = s.tree.size)
    (htup : s'.tree.up = s.tree.up) (hsize : s'.size = s.size) (hkin : ∀ p, kin (s'.life p) = kin (s.life p))
    (hsock : s'.posixSpawnChildSock = s.posixSpawnChildSock) : Shape s' := by
  have hline : ∀ p, line (s'.life p) = line (s.life p) := fun p => (kin_eq.mp (hkin p)).1
  have hfork : ∀ p, (s'.life p).forkChildren = (s.life p).forkChildren := fun p => (kin_eq.mp (hkin p)).2.1
  have hexec : ∀ p, (s'.life p).execChild = (s.life p).execChild := fun p => (kin_eq.mp (hkin p)).2.2
  have hexe : ∀ p, (s'.life p).execed = (s.life p).execed := fun p => (line_eq.mp (hline p)).1
  have hpar : ∀ p, (s'.life p).parent = (s.life p).parent := fun p => (line_eq.mp (hline p)).2.1
  have hep : ∀ p, (s'.life p).execPoint = (s.life p).execPoint := fun p => (line_eq.mp (hline p)).2.2.2
  refine ⟨htree, hsize ▸ h.pos, (hline 0).trans h.root, fun p h0 hp => ?_, fun p c hp hc => ?_, fun p c hp hc => ?_,
    fun k x hx => ?_⟩
  · obtain ⟨q, hq⟩ := h.lineage p h0 (hsize ▸ hp)
    exact ⟨q, hq.congr (hline p) (hline q) (Nat.le_of_eq htsize.symm) fun n _ => by rw [htup]⟩
  · rw [hsize, hpar, hexe]
    exact h.forkChild p c (hsize ▸ hp) (hfork p ▸ hc)
  · rw [hsize, hpar, hexe]
    exact h.execChild p c (hsize ▸ hp) (hexec p ▸ hc)
  rw [hsock] at hx
  obtain ⟨hlt, hleaf, hnone, huniq⟩ := h.queued k x hx
  refine ⟨by rw [htsize]; exact hlt, by rw [htup]; exact hleaf, fun p hp => ?_, by rw [hsock]; exact huniq⟩
  rw [hep]
  exact hnone p (hsize ▸ hp)

theorem Shape.modify (hf : kin (f (s.life p)) = kin (s.life p)) : Shape (s.modify p f) :=
  h.congr h.tree rfl rfl rfl (modify_proj kin hf) rfl

theorem Shape.forkPoint_root : (s.life 0).forkPoint = 0 := (line_eq.mp h.root).2.2.1

theorem Shape.parent_root : (s.life 0).parent = none := (line_eq.mp h.root).2.1

theorem Shape.parent_lt (hp : p < s.size) (hq : (s.life p).parent = some q) : p ≠ 0 ∧ q < p ∧ Descends s p q := by
  by_cases h0 : p = 0
  · subst h0
    rw [h.parent_root] at hq
    cases hq
  obtain ⟨q', hd⟩ := h.lineage p h0 hp
  obtain rfl : q' = q := Option.some.inj (hd.parent.symm.trans hq)
  exact ⟨h0, hd.lt, hd⟩

theorem Shape.child_lt (hp : p < s.size)
    (hc : c ∈ (s.life p).forkChildren ∨ (s.life p).execChild = some c) : c < s.size ∧ p < c := by
  have hpar : c < s.size ∧ (s.life c).parent = some p := by
    rcases hc with hc | hc
    · exact ⟨(h.forkChild p c hp hc).1, (h.forkChild p c hp hc).2.1⟩
    · exact ⟨(h.execChild p c hp hc).1, (h.execChild p c hp hc).2.1⟩
  exact ⟨hpar.1, (h.parent_lt hpar.1 hpar.2).2.1⟩

/-- The exec chain of a process keeps its fork point. -/
theorem Shape.lastExecDescendant : ∀ n p, p < s.size →
    s.lastExecDescendant n p < s.size ∧ (s.life (s.lastExecDescendant n p)).forkPoint = (s.life p).forkPoint := by
  intro n
  induction n with
  | zero => exact fun p hp => ⟨hp, rfl⟩
  | succ n ih =>
    intro p hp
    rw [Lives.lastExecDescendant]
    cases hc : (s.life p).execChild with
    | none => exact ⟨hp, rfl⟩
    | some c =>
      obtain ⟨hcs, hcp, hce⟩ := h.execChild p c hp hc
      obtain ⟨hlt, hfp⟩ := ih c hcs
      exact ⟨hlt, hfp.trans ((h.parent_lt hcs hcp).2.2.execed hce).1⟩

/-- A fork point is a fork point of its own, not younger, and at or above in the exec tree. -/
theorem Shape.forkPoint_spec : ∀ p, p < s.size →
    (s.life p).forkPoint ≤ p ∧ (s.life (s.life p).forkPoint).forkPoint = (s.life p).forkPoint ∧
      ∀ e, (s.life (s.life p).forkPoint).execPoint = some e →
        ∃ n, (s.life p).execPoint = some n ∧ AtOrAbove s.tree.up n e := by
  intro p
  induction p using Nat.strongRecOn with
  | ind p ih =>
    intro hp
    have hself : ∀ n, AtOrAbove s.tree.up n n := fun n => by
      obtain ⟨l, hl⟩ := h.tree.chain n
      exact ⟨l, hl, List.mem_cons_self⟩
    by_cases h0 : p = 0
    · subst h0
      rw [h.forkPoint_root, h.forkPoint_root]
      exact ⟨Nat.le_refl 0, rfl, fun e he => ⟨e, he, hself e⟩⟩
    obtain ⟨q, hd⟩ := h.lineage p h0 hp
    cases hx : (s.life p).execed with
    | false =>
      rw [(hd.forked hx).1, (hd.forked hx).1]
      exact ⟨Nat.le_refl p, rfl, fun e he => ⟨e, he, hself e⟩⟩
    | true =>
      obtain ⟨hf, n, hn, -, hup⟩ := hd.execed hx
      obtain ⟨hle, hff, habove⟩ := ih q hd.lt (Nat.lt_trans hd.lt hp)
      rw [hf]
      refine ⟨Nat.le_trans hle (Nat.le_of_lt hd.lt), hff, fun e he => ⟨n, hn, ?_⟩⟩
      obtain ⟨m, hm, hme⟩ := habove e he
      exact ((hself n).parent (hup.trans hm)).trans hme

theorem Shape.forked_of_self (hp : p < s.size) (hself : (s.life p).forkPoint = p) : (s.life p).execed = false := by
  cases he : (s.life p).execed with
  | false => rfl
  | true =>
    by_cases h0 : p = 0
    · subst h0
      rw [(line_eq.mp h.root).1] at he
      cases he
    obtain ⟨q, hd⟩ := h.lineage p h0 hp
    have hle := (h.forkPoint_spec q (Nat.lt_trans hd.lt hp)).1
    have heq := (hd.execed he).1
    have hlt := hd.lt
    omega

theorem Shape.execPoint_lt : ∀ p n, p < s.size → (s.life p).execPoint = some n → n < s.tree.size := by
  intro p
  induction p using Nat.strongRecOn with
  | ind p ih =>
    intro n hp hn
    by_cases h0 : p = 0
    · subst h0
      rw [(line_eq.mp h.root).2.2.2] at hn
      cases hn
    obtain ⟨q, hd⟩ := h.lineage p h0 hp
    cases hx : (s.life p).execed with
    | false => exact ih q hd.lt n (Nat.lt_trans hd.lt hp) ((hd.forked hx).2 ▸ hn)
    | true =>
      obtain ⟨-, m, hm, hlt, -⟩ := hd.execed hx
      rw [hm] at hn
      cases hn
      exact hlt

variable {parent : Nat}

/-- A new process, below one that was there. -/
theorem Shape.grow (htree : s'.tree.Inv) (htsize : s.tree.size ≤ s'.tree.size)
    (hsize : s'.size = s.size + 1) (hline : ∀ q, q < s.size → line (s'.life q) = line (s.life q))
    (hup : ∀ q n, q < s.size → (s.life q).execPoint = some n → s'.tree.up n = s.tree.up n)
    (hpar : parent < s.size) (hnew : Descends s' s.size parent)
    (hfork : ∀ q c, c ∈ (s'.life q).forkChildren → q < s'.size →
      (q < s.size ∧ c ∈ (s.life q).forkChildren) ∨ (q = parent ∧ c = s.size ∧ (s'.life c).execed = false))
    (hexec : ∀ q c, (s'.life q).execChild = some c → q < s'.size →
      (q < s.size ∧ (s.life q).execChild = some c) ∨ (q = parent ∧ c = s.size ∧ (s'.life c).execed = true))
    (hqueued : ∀ k x, s'.posixSpawnChildSock k = some x → x.node < s'.tree.size ∧
      (∀ m, s'.tree.up m ≠ some x.node) ∧ (∀ p, p < s'.size → (s'.life p).execPoint ≠ some x.node) ∧
      ∀ k' x', s'.posixSpawnChildSock k' = some x' → x'.node = x.node → k' = k) : Shape s' := by
  refine ⟨htree, by omega, (hline 0 h.pos).trans h.root, fun p h0 hp => ?_, fun p c hp hc => ?_, fun p c hp hc => ?_,
    hqueued⟩
  · by_cases hlt : p < s.size
    · obtain ⟨q, hd⟩ := h.lineage p h0 hlt
      exact ⟨q, hd.congr (hline p hlt) (hline q (Nat.lt_trans hd.lt hlt)) htsize fun n hn => hup p n hlt hn⟩
    · obtain rfl : p = s.size := by omega
      exact ⟨parent, hnew⟩
  · rcases hfork p c hc hp with ⟨hlt, hc⟩ | ⟨rfl, rfl, he⟩
    · obtain ⟨hcs, hcp, hce⟩ := h.forkChild p c hlt hc
      obtain ⟨hexe, hparent, -, -⟩ := line_eq.mp (hline c hcs)
      exact ⟨by omega, hparent.trans hcp, hexe.trans hce⟩
    · exact ⟨by omega, hnew.parent, he⟩
  · rcases hexec p c hc hp with ⟨hlt, hc⟩ | ⟨rfl, rfl, he⟩
    · obtain ⟨hcs, hcp, hce⟩ := h.execChild p c hlt hc
      obtain ⟨hexe, hparent, -, -⟩ := line_eq.mp (hline c hcs)
      exact ⟨by omega, hparent.trans hcp, hexe.trans hce⟩
    · exact ⟨by omega, hnew.parent, he⟩

end Shaped

theorem addForked_life (s : Lives) (parent q : Nat) (hq : q < s.size) : (s.addForked parent).life q =
      if q = parent then { s.life q with forkChildren := (s.life q).forkChildren ++ [s.size] } else s.life q := by
  simp [addForked, Nat.ne_of_lt hq]

theorem addForked_new (s : Lives) (parent : Nat) : (s.addForked parent).life s.size =
      { parent := some parent, forkPoint := s.size, execPoint := (s.life parent).execPoint } := by
  simp [addForked]

theorem addExeced_life (s : Lives) (parent node q : Nat) (hq : q < s.size) : (s.addExeced parent node).life q =
      if q = parent then { s.life q with execChild := some s.size } else s.life q := by
  simp [addExeced, Nat.ne_of_lt hq]

theorem addExeced_new (s : Lives) (parent node : Nat) : (s.addExeced parent node).life s.size =
      { execed := true, parent := some parent, forkPoint := (s.life parent).forkPoint, execPoint := some node } := by
  simp [addExeced]

theorem addForked_line (parent : Nat) (hq : q < s.size) : line ((s.addForked parent).life q) = line (s.life q) := by
  rw [addForked_life s parent q hq]
  split <;> rfl

theorem addExeced_line (parent node : Nat) (hq : q < s.size) :
    line ((s.addExeced parent node).life q) = line (s.life q) := by
  rw [addExeced_life s parent node q hq]
  split <;> rfl

theorem addForked_forkChildren (hc : c ∈ ((s.addForked parent).life q).forkChildren)
    (hq : q < (s.addForked parent).size) :
    (q < s.size ∧ c ∈ (s.life q).forkChildren) ∨ (q = parent ∧ c = s.size ∧ q < s.size) := by
  by_cases hlt : q < s.size
  · rw [addForked_life s parent q hlt] at hc
    split at hc
    · rcases List.mem_append.mp hc with hc | hc
      · exact .inl ⟨hlt, hc⟩
      · exact .inr ⟨‹_›, List.mem_singleton.mp hc, hlt⟩
    · exact .inl ⟨hlt, hc⟩
  · obtain rfl := Nat.eq_of_lt_succ_of_not_lt hq hlt
    rw [addForked_new] at hc
    cases hc

theorem addForked_execChild (hc : ((s.addForked parent).life q).execChild = some c)
    (hq : q < (s.addForked parent).size) : q < s.size ∧ (s.life q).execChild = some c := by
  by_cases hlt : q < s.size
  · rw [addForked_life s parent q hlt] at hc
    split at hc <;> exact ⟨hlt, hc⟩
  obtain rfl := Nat.eq_of_lt_succ_of_not_lt hq hlt
  rw [addForked_new] at hc
  cases hc

theorem addExeced_execChild (hc : ((s.addExeced parent node).life q).execChild = some c)
    (hq : q < (s.addExeced parent node).size) :
    (q < s.size ∧ (s.life q).execChild = some c) ∨ (q = parent ∧ c = s.size ∧ q < s.size) := by
  by_cases hlt : q < s.size
  · rw [addExeced_life s parent node q hlt] at hc
    split at hc
    · exact .inr ⟨‹_›, (Option.some.inj hc).symm, hlt⟩
    · exact .inl ⟨hlt, hc⟩
  · obtain rfl := Nat.eq_of_lt_succ_of_not_lt hq hlt
    rw [addExeced_new] at hc
    cases hc

theorem addExeced_forkChildren (hc : c ∈ ((s.addExeced parent node).life q).forkChildren)
    (hq : q < (s.addExeced parent node).size) : q < s.size ∧ c ∈ (s.life q).forkChildren := by
  by_cases hlt : q < s.size
  · rw [addExeced_life s parent node q hlt] at hc
    split at hc <;> exact ⟨hlt, hc⟩
  obtain rfl := Nat.eq_of_lt_succ_of_not_lt hq hlt
  rw [addExeced_new] at hc
  cases hc

theorem Shape.addForked (h : Shape s) (hp : parent < s.size) : Shape (s.addForked parent) := by
  have hep := (line_eq.mp (addForked_line parent hp)).2.2.2
  refine h.grow h.tree (Nat.le_refl _) rfl (fun q hq => addForked_line parent hq) (fun _ _ _ _ => rfl) hp ?_ (fun q c hc hq => ?_)
    (fun q c hc hq => .inl (addForked_execChild hc hq)) (fun k x hx => ?_)
  · refine ⟨by rw [addForked_new], hp, fun he => ?_, fun _ => ⟨by rw [addForked_new], ?_⟩⟩
    · rw [addForked_new] at he
      cases he
    · rw [addForked_new, hep]
  · rcases addForked_forkChildren hc hq with h | ⟨rfl, rfl, -⟩
    · exact .inl h
    · exact .inr ⟨rfl, rfl, by rw [addForked_new]⟩
  · obtain ⟨hlt, hleaf, hnone, huniq⟩ := h.queued k x hx
    refine ⟨hlt, hleaf, fun q hq => ?_, huniq⟩
    by_cases hqs : q < s.size
    · rw [(line_eq.mp (addForked_line parent hqs)).2.2.2]
      exact hnone q hqs
    obtain rfl := Nat.eq_of_lt_succ_of_not_lt hq hqs
    rw [addForked_new]
    exact hnone parent hp

/-- A new process with a node that is nobody's: a new one, or one that was queued. -/
theorem Shape.addExeced (h : Shape s) (hp : parent < s.size)
    (htree : t'.Inv) (htsize : s.tree.size ≤ t'.size) (hnode : node < t'.size)
    (hup : ∀ m, t'.up m = if m = node then (s.life parent).execPoint else s.tree.up m)
    (hfree : ∀ q, q < s.size → (s.life q).execPoint ≠ some node)
    (hsock : ∀ k x, sock k = some x → s.posixSpawnChildSock k = some x ∧ x.node ≠ node) :
    Shape { s.addExeced parent node with tree := t', posixSpawnChildSock := sock } := by
  have hold : ∀ q n, q < s.size → (s.life q).execPoint = some n → n ≠ node := by
    intro q n hq hn hne
    exact hfree q hq (hne ▸ hn)
  refine h.grow htree htsize rfl (fun q hq => addExeced_line parent node hq) (fun q n hq hn => ?_) hp ?_
    (fun q c hc hq => .inl (addExeced_forkChildren hc hq)) (fun q c hc hq => ?_) (fun k x hx => ?_)
  · rw [hup, if_neg (hold q n hq hn)]
  · have hline := line_eq.mp (addExeced_line parent node hp)
    refine ⟨by rw [addExeced_new], hp, fun _ => ⟨?_, node, by rw [addExeced_new], hnode, ?_⟩, fun he => ?_⟩
    · rw [addExeced_new, hline.2.2.1]
    · rw [hup, if_pos rfl, hline.2.2.2]
    · rw [addExeced_new] at he
      cases he
  · rcases addExeced_execChild hc hq with h | ⟨rfl, rfl, -⟩
    · exact .inl h
    · exact .inr ⟨rfl, rfl, by rw [addExeced_new]⟩
  · obtain ⟨hx, hne⟩ := hsock k x hx
    obtain ⟨hlt, hleaf, hnone, huniq⟩ := h.queued k x hx
    refine ⟨Nat.lt_of_lt_of_le hlt htsize, fun m => ?_, fun q hq => ?_, fun k' x' hx' hn => huniq k' x' (hsock k' x' hx').1 hn⟩
    · rw [hup]
      split
      · exact hnone parent hp
      · exact hleaf m
    · by_cases hqs : q < s.size
      · rw [(line_eq.mp (addExeced_line parent node hqs)).2.2.2]
        exact hnone q hqs
      obtain rfl := Nat.eq_of_lt_succ_of_not_lt hq hqs
      rw [addExeced_new]
      exact fun he => hne (Option.some.inj he).symm

/-- A node for a process that is queued. -/
theorem Shape.queue (h : Shape s) (htree : t'.Inv)
    (htsize : t'.size = s.tree.size + 1) (hup : ∀ m, t'.up m = if m = s.tree.size then none else s.tree.up m)
    (hx : x.node = s.tree.size) : Shape { s.setSock k (some x) with conns := cs, tree := t' } := by
  have hfree : ∀ m, s.tree.up m ≠ some s.tree.size := fun m hm => Nat.lt_irrefl _ (h.tree.lt hm)
  have hold : ∀ p n, p < s.size → (s.life p).execPoint = some n → n ≠ s.tree.size := fun p n hp hn =>
    Nat.ne_of_lt (h.execPoint_lt p n hp hn)
  refine ⟨htree, h.pos, h.root, fun p h0 hp => ?_, h.forkChild, h.execChild, fun k' x' hx' => ?_⟩
  · obtain ⟨q, hd⟩ := h.lineage p h0 hp
    refine ⟨q, hd.congr rfl rfl ?_ fun n hn => ?_⟩
    · show s.tree.size ≤ t'.size
      omega
    · rw [hup, if_neg (hold p n hp hn)]
  · show x'.node < t'.size ∧ (∀ m, t'.up m ≠ some x'.node) ∧ _
    have hx' : (if k' = k then some x else s.posixSpawnChildSock k') = some x' := hx'
    have hkeep : ∀ n, (∀ m, s.tree.up m ≠ some n) → ∀ m, t'.up m ≠ some n := by
      intro n hn m
      rw [hup]
      split
      · exact nofun
      · exact hn m
    split at hx'
    · cases hx'
      rw [hx]
      refine ⟨by omega, hkeep _ hfree, fun p hp he => hold p _ hp he rfl, fun k2 x2 hx2 hn => ?_⟩
      have hx2 : (if k2 = k then some x else s.posixSpawnChildSock k2) = some x2 := hx2
      split at hx2
      · simp_all
      · exact absurd hn (Nat.ne_of_lt (h.queued k2 x2 hx2).1)
    · obtain ⟨hlt, hleaf, hnone, huniq⟩ := h.queued k' x' hx'
      refine ⟨by omega, hkeep _ hleaf, hnone, fun k2 x2 hx2 hn => ?_⟩
      have hx2 : (if k2 = k then some x else s.posixSpawnChildSock k2) = some x2 := hx2
      split at hx2
      · cases hx2
        exact absurd (hn.symm.trans hx) (Nat.ne_of_lt hlt)
      · exact huniq k2 x2 hx2 hn

/-! ## Shortcutability above a node -/

/-- Nothing from this node up is shortcutable. -/
def Barren (t : ExecTree) (n : Nat) : Prop := ∀ a, AtOrAbove t.up n a → t.can a = false

/-- Shortcutting is disabled here and there; nothing else changes that matters. -/
structure Weakens (t t' : ExecTree) : Prop where
  inv : t'.Inv
  size : t'.size = t.size
  up : t'.up = t.up
  can : ∀ n, t.can n = false → t'.can n = false

theorem Weakens.trans (h : Weakens t t') (h' : Weakens t' t'') : Weakens t t'' :=
  ⟨h'.inv, h'.size.trans h.size, h'.up.trans h.up, fun n hn => h'.can n (h.can n hn)⟩

theorem Barren.weaken (h : Barren t n) (hw : Weakens t t') : Barren t' n := by
  intro a ha
  rw [hw.up] at ha
  exact hw.can a (h a ha)

theorem Barren.above (h : Barren t n) (hm : AtOrAbove t.up n m) : Barren t m :=
  fun a ha => h a (hm.trans ha)

/-- A node that was nobody's parent gets a parent or is new. -/
theorem Barren.link (h : Barren t n) (ht : t.Inv) (hn : n ≠ m) (hm : ∀ x, t.up x ≠ some m)
    (hup : ∀ x, x ≠ m → t'.up x = t.up x) (hcan : ∀ x, x ≠ m → t'.can x = t.can x) : Barren t' n := by
  intro a ⟨l', hl', ha⟩
  obtain ⟨l, hl⟩ := ht.chain n
  have hne : ∀ x ∈ n :: l, x ≠ m := by
    intro x hx hxm
    rcases List.mem_cons.mp hx with rfl | hx
    · exact hn hxm
    · obtain ⟨y, hy⟩ := hl.mem_parent hx
      exact hm y (hxm ▸ hy)
  have hsame : l' = l := hl'.unique (hl.congr fun x hx => hup x (hne x hx))
  subst hsame
  rw [hcan a (hne a ha)]
  exact h a ⟨l', hl, ha⟩

theorem Shape.barren_forkPoint (h : Shape s) (hp : p < s.size) (hn : (s.life p).execPoint = some n)
    (hb : Barren s.tree n) (he : (s.life (s.life p).forkPoint).execPoint = some e) : Barren s.tree e := by
  obtain ⟨-, -, habove⟩ := h.forkPoint_spec p hp
  obtain ⟨n', hn', hne⟩ := habove e he
  rw [hn] at hn'
  cases hn'
  exact hb.above hne

/-! ## Moves -/

/-- A process can be finalized now, as `maybe_finalize()` sees it. -/
def Ready (s : Lives) (p : Nat) : Prop := s.anyChildNotFinalized p = false ∨ s.onlyOrphansLeft p = true

/-- The moves; `late` says whether a child may come below a process that is finalized. -/
inductive Move (late : Prop) (w : Option Nat) (s : Lives) : Option Nat → Lives → Prop
  | tree {t' : ExecTree} (h : Weakens s.tree t') : Move late w s w { s with tree := t' }
  | flags (p : Nat) (x y z : Bool)
      (h : (s.life p).state = .finalized → (x = true → (s.life p).execPending = true) ∧
        (y = true → (s.life p).hasPendingPopen = true)) :
      Move late w s w (s.modify p ({ · with execPending := x, hasPendingPopen := y, beenWaitedFor := z }))
  | orphan (p : Nat) (h : ∀ e, (s.life p).execPoint = some e → Barren s.tree e ∨ w = some e) :
      Move late w s w (s.modify p ({ · with orphan := true }))
  | hasOrphan (p : Nat) (h : ∀ e, (s.life p).execPoint = some e → Barren s.tree e) :
      Move late w s w (s.modify p ({ · with hasOrphanDescendant := true }))
  | openWindow (e : Nat) (hw : w = none) : Move late w s (some e) s
  | closeWindow (e : Nat) (hw : w = some e) (h : Barren s.tree e) : Move late w s none s
  | terminate (p : Nat) (hp : p < s.size) (h : (s.life p).state = .running) (hc : ∀ k, s.conns k ≠ some (.proc p)) :
      Move late w s w (s.setTerminated p)
  | finalize (p : Nat) (stored : Option Int) (hw : w = none) (hp : p < s.size) (h : (s.life p).state = .terminated)
      (hready : Ready s p)
      (hstored : ∀ e, stored = some e → e ≠ -1 ∧ ∃ n, (s.life p).execPoint = some n ∧ s.tree.can n = true) :
      Move late w s none (s.setFinalized p stored)
  | forked (parent : Nat) (hp : parent < s.size) (h : late ∨ (s.life parent).state ≠ .finalized) :
      Move late w s w (s.addForked parent)
  | execed {t' : ExecTree} (parent : Nat) (hp : parent < s.size) (h : late ∨ (s.life parent).state ≠ .finalized)
      (ht : s.tree.exec (s.life parent).execPoint = some t') :
      Move late w s w { s.addExeced parent s.tree.size with tree := t' }
  | queue {t' : ExecTree} (conn pid ppid : Nat) (ht : s.tree.exec none = some t') :
      Move late w s w
        { (s.setSock ppid (some ⟨conn, s.tree.size, pid⟩)).setConn conn (some .incomplete) with tree := t' }
  | adopt {t' : ExecTree} (parent k n : Nat) (x : ExecChildSock) (hp : parent < s.size)
      (h : late ∨ (s.life parent).state ≠ .finalized) (hx : s.posixSpawnChildSock k = some x)
      (hn : (s.life parent).execPoint = some n) (ht : s.tree.setParent x.node n = some t') :
      Move late w s w { (s.addExeced parent x.node).setSock k none with tree := t' }
  | conn (k : Nat) (c : Option Connection)
      (h : ∀ p, c = some (.proc p) → p < s.size ∧ (s.life p).state = .running ∧ ∀ k, s.conns k ≠ some (.proc p)) :
      Move late w s w (s.setConn k c)
  | dropExecChild (p : Nat) : Move late w s w (s.modify p ({ · with execChild := none }))

/-! ## Shape -/

theorem exec_grows (h : t.Inv) (hp : ∀ q ∈ parent, q < t.size) (he : t.exec parent = some t') :
    t'.Inv ∧ t'.size = t.size + 1 ∧ (∀ x, t'.up x = if x = t.size then parent else t.up x) ∧
      ∀ x, t'.can x = if x = t.size then true else t.can x := by
  obtain ⟨t1, he1, h1⟩ := h.exec hp
  rw [he] at he1
  cases he1
  exact h1

theorem setParent_links (h : t.Inv) (hleaf : ∀ x, t.up x ≠ some p) (hq : q < t.size) (hne : q ≠ p)
    (he : t.setParent p q = some t') :
    t'.Inv ∧ t'.size = t.size ∧ (∀ x, t'.up x = if x = p then some q else t.up x) ∧ t'.can = t.can := by
  obtain ⟨t1, he1, h1⟩ := h.setParent hleaf hq hne
  rw [he] at he1
  cases he1
  exact h1

theorem Move.shape (hm : Move late w s w' s') (h : Shape s) : Shape s' := by
  cases hm with
  | tree hw => exact h.congr hw.inv hw.size hw.up rfl (fun _ => rfl) rfl
  | flags p x y z _ | orphan p _ | hasOrphan p _ => exact h.modify rfl
  | openWindow e _ | closeWindow e _ _ => exact h
  | terminate p _ _ _ =>
    exact h.congr h.tree rfl rfl rfl (modify_proj (f := ({ · with state := .terminated })) kin rfl) rfl
  | finalize p stored _ _ _ _ _ =>
    exact h.congr h.tree rfl rfl rfl (modify_proj (f := ({ · with state := .finalized })) kin rfl) rfl
  | forked parent hp _ => exact h.addForked hp
  | execed parent hp _ ht =>
    obtain ⟨htree, hsize, hup, -⟩ := exec_grows h.tree (fun q hq => h.execPoint_lt parent q hp hq) ht
    exact h.addExeced hp htree (by omega) (by omega) hup (fun q hq he => Nat.lt_irrefl _ (h.execPoint_lt q _ hq he))
      (fun k x hx => ⟨hx, Nat.ne_of_lt (h.queued k x hx).1⟩)
  | queue conn pid ppid ht =>
    obtain ⟨htree, hsize, hup, -⟩ := exec_grows h.tree (fun q hq => absurd hq (Option.not_mem_none q)) ht
    exact h.queue htree hsize hup rfl
  | adopt parent k n x hp _ hx hn ht =>
    obtain ⟨hlt, hleaf, hnone, huniq⟩ := h.queued k x hx
    have hne : n ≠ x.node := fun he => hnone parent hp (he ▸ hn)
    obtain ⟨htree, hsize, hup, -⟩ := setParent_links h.tree hleaf (h.execPoint_lt parent n hp hn) hne ht
    refine h.addExeced hp htree (Nat.le_of_eq hsize.symm) (by omega) (by rw [hn]; exact hup) hnone fun k' x' hx' => ?_
    have hx' : (if k' = k then none else _) = some x' := hx'
    split at hx'
    · cases hx'
    · exact ⟨hx', fun he => ‹¬k' = k› (huniq k' x' hx' he)⟩
  | conn k c _ => exact h.congr h.tree rfl rfl rfl (fun _ => rfl) rfl
  | dropExecChild p =>
    refine ⟨h.tree, h.pos, (modify_proj line rfl 0).trans h.root, fun q h0 hq => ?_, fun q c hq hc => ?_,
      fun q c hq hc => ?_, fun k x hx => ?_⟩
    · obtain ⟨r, hd⟩ := h.lineage q h0 hq
      exact ⟨r, hd.congr (modify_proj line rfl q) (modify_proj line rfl r) (Nat.le_refl _) fun _ _ => rfl⟩
    · rw [modify_proj Life.forkChildren rfl] at hc
      rw [modify_proj Life.parent rfl, modify_proj Life.execed rfl]
      exact h.forkChild q c hq hc
    · rw [modify_proj Life.parent rfl, modify_proj Life.execed rfl]
      refine h.execChild q c hq ?_
      by_cases hqp : q = p
      · subst hqp
        simp [modify] at hc
      · simpa [modify, hqp] using hc
    · obtain ⟨hlt, hleaf, hnone, huniq⟩ := h.queued k x hx
      refine ⟨hlt, hleaf, fun q hq => ?_, huniq⟩
      rw [modify_proj Life.execPoint rfl]
      exact hnone q hq

inductive Moves (late : Prop) (w : Option Nat) (s : Lives) : Option Nat → Lives → Prop
  | refl : Moves late w s w s
  | tail {w1 w2 : Option Nat} {s1 s2 : Lives} : Moves late w s w1 s1 → Move late w1 s1 w2 s2 → Moves late w s w2 s2

section

variable {late : Prop} {w' w'' : Option Nat} {s'' : Lives}

theorem Move.single (h : Move late w s w' s') : Moves late w s w' s' := .tail .refl h

theorem Moves.trans (h : Moves late w s w' s') (h' : Moves late w' s' w'' s'') : Moves late w s w'' s'' := by
  induction h' with
  | refl => exact h
  | tail _ hm ih => exact .tail ih hm

/-- What every move keeps, every sequence of moves keeps. -/
theorem Moves.keep {P : Option Nat → Lives → Prop} (hP : ∀ w s w' s', Move late w s w' s' → P w s → P w' s')
    (h : Moves late w s w' s') (hs : P w s) : P w' s' := by
  induction h with
  | refl => exact hs
  | tail _ hm ih => exact hP _ _ _ _ hm ih

end

end Lives
end Firebuild
