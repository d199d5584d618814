/-
  Firebuild.Finalizing — finalizing processes is a sequence of moves.

  `maybe_finalize()` and `finish()` are followed move by move.
  The node of a process is disabled right after the process is marked as an orphan, and before
  anything is finalized; in `finish()` several children are marked first, and the window stays
  open until shortcutting is disabled above all of them.
-/

import Firebuild.Settling

namespace Firebuild

open Option (bind_eq_some_iff map_eq_some_iff)
namespace Population

open Lib.Forest (AtOrAbove Chain cleared cleared_of_mem cleared_of_false)
open Lives (Barren Weakens Moves Move Footing Shape)

variable {s s' : Population} {o : Options} {p q c e node n : Nat} {t t' : ExecTree} {w w' : Option Nat} {late : Prop}
  {reason : String}

/-! ## Disabling -/

theorem bubbleUpLoop_barren (h : t.Inv) (node : Nat) (src : Option Nat) (reason : String) :
    ∃ t', ExecTree.bubbleUpLoop none reason (t.size + 2) t node src none = some t' ∧ Weakens t t' ∧ Barren t' node := by
  obtain ⟨l, hc⟩ := h.chain node
  have hlen := h.length_le hc
  obtain ⟨t', he, hb⟩ : ∃ t', ExecTree.bubbleUpLoop none reason (t.size + 2) t node src none = some t' ∧
      ExecTree.Bubbled t t' (node :: l) :=
    ExecTree.bubbleUpLoop_spec rfl _ t node l src none (List.append_nil _).symm hc hlen
      (by rw [List.length_cons]; omega) (h.skipsOn _)
      (fun x lx hcx => (h.skip hcx).mono fun _ _ => cleared_of_false) h.reason nofun
  refine ⟨t', he, ⟨hb.inv h, hb.size, hb.up, fun n hn => ?_⟩, fun a ⟨l', hl', ha⟩ => ?_⟩
  · rw [hb.can]
    exact cleared_of_false hn
  rw [hb.up] at hl'
  rw [hb.can]
  exact cleared_of_mem (hc.unique hl' ▸ ha)

/-- The nodes that are disabled, where `up` gives the parents. -/
def TreeOp.Disables (up : Nat → Option Nat) : TreeOp → Nat → Prop
  | disableShortcuttingOnlyThis node _, q => q = node
  | disableShortcuttingBubbleUp node _, q => AtOrAbove up node q
  | disableShortcuttingBelowCommon node other _, q => AtOrAbove up node q ∧ ¬AtOrAbove up other q
  | nextShortcutableAncestor _, _ => False

/-- There is the common ancestor that is asked for. -/
def TreeOp.Runs (up : Nat → Option Nat) : TreeOp → Prop
  | disableShortcuttingBelowCommon node other _ => ∃ q, AtOrAbove up node q ∧ AtOrAbove up other q
  | _ => True

/-- The nodes of `d` are disabled, and nothing else changes that matters. -/
structure Disabled (t : ExecTree) (d : Nat → Prop) (t' : ExecTree) : Prop where
  inv : t'.Inv
  size : t'.size = t.size
  up : t'.up = t.up
  can : ∀ q, t'.can q = true ↔ t.can q = true ∧ ¬d q

theorem Disabled.weakens (hd : Disabled t d t') : Weakens t t' :=
  ⟨hd.inv, hd.size, hd.up, fun n hn => by
    by_contra hon
    rw [((hd.can n).mp (by simpa using hon)).1] at hn
    cases hn⟩

theorem disabled_of_disabledTo (hd : ExecTree.DisabledTo t t' node stop) :
    Disabled t (fun q => AtOrAbove t.up node q ∧ ∀ x ∈ stop, ¬AtOrAbove t.up x q) t' :=
  ⟨hd.inv, hd.size, hd.up, fun q => by simp [hd.can, imp_iff_not_or]⟩

theorem TreeOp.run_spec (h : t.Inv) (op : TreeOp) (hr : op.Runs t.up) :
    ∃ t', op.run t = some t' ∧ Disabled t (op.Disables t.up) t' := by
  cases op with
  | disableShortcuttingOnlyThis node reason =>
    exact ⟨_, rfl, h.disable none, by simp, by simp, fun q => by simp [cleared, Disables]⟩
  | disableShortcuttingBubbleUp node reason =>
    obtain ⟨t', he, hd⟩ := h.disabledTo (by simp : ∀ x ∈ (none : Option Nat), AtOrAbove t.up node x) reason
    refine ⟨t', he, ?_⟩
    convert disabled_of_disabledTo hd using 1
    funext q
    simp [Disables]
  | disableShortcuttingBelowCommon node other reason =>
    obtain ⟨q, hq, hq'⟩ := hr
    have hmeet := h.commonExecAncestor_meet node other
    cases ha : t.commonExecAncestor node other with
    | none =>
      rw [ha] at hmeet
      exact absurd hq' (hmeet q hq)
    | some a =>
      rw [ha] at hmeet
      obtain ⟨t', he, hd⟩ := h.disabledTo (by simpa using hmeet.left : ∀ x ∈ some a, AtOrAbove t.up node x) reason
      refine ⟨t', by rw [run, ha]; exact he, ?_⟩
      -- whoever is at or above both is at or above the common ancestor
      convert disabled_of_disabledTo hd using 1
      funext q
      simp only [Disables, Option.mem_some_iff, forall_eq']
      exact propext (and_congr_right fun hnode => not_congr ⟨hmeet.below q hnode, hmeet.right.trans⟩)
  | nextShortcutableAncestor node =>
    obtain ⟨l, hc⟩ := h.chain node
    obtain ⟨m, he, hinv⟩ := h.next hc
    exact ⟨_, by rw [run, he]; rfl, hinv, rfl, by simp, fun q => by simp [Disables]⟩

theorem TreeOp.weakens (h : t.Inv) (op : TreeOp) (he : op.run t = some t') : Weakens t t' := by
  have hr : op.Runs t.up := by
    cases op with
    | disableShortcuttingBelowCommon node other reason =>
      obtain ⟨a, ha, -⟩ := bind_eq_some_iff.mp he
      exact ⟨a, h.commonExecAncestor_sound ha⟩
    | _ => trivial
  obtain ⟨t1, he1, hd⟩ := op.run_spec h hr
  obtain rfl := Option.some.inj (he1.symm.trans he)
  exact hd.weakens

/-- What a list of operations disables. -/
def Clears (ops : List TreeOp) (up : Nat → Option Nat) (q : Nat) : Prop := ∃ op ∈ ops, op.Disables up q

theorem runOps_spec (h : t.Inv) (hr : ∀ op ∈ ops, op.Runs t.up) :
    ∃ t', runOps ops t = some t' ∧ Disabled t (Clears ops t.up) t' := by
  induction ops generalizing t with
  | nil => exact ⟨t, rfl, h, rfl, rfl, fun q => by simp [Clears]⟩
  | cons op ops ih =>
    rw [List.forall_mem_cons] at hr
    obtain ⟨t1, he1, hd⟩ := op.run_spec h hr.1
    obtain ⟨t', he, hd'⟩ := ih hd.inv (hd.up ▸ hr.2)
    refine ⟨t', by rw [runOps, he1]; exact he, hd'.inv, hd'.size.trans hd.size, hd'.up.trans hd.up, fun q => ?_⟩
    rw [hd'.can, hd.can, hd.up]
    simp [Clears, and_assoc]

theorem Weakens.refl (h : t.Inv) : Weakens t t := ⟨h, rfl, rfl, fun _ => id⟩

theorem runOps_weakens (h : t.Inv) (he : runOps ops t = some t') : Weakens t t' := by
  induction ops generalizing t with
  | nil =>
    cases he
    exact Weakens.refl h
  | cons op ops ih =>
    obtain ⟨t1, h1, he⟩ := bind_eq_some_iff.mp he
    have hw := op.weakens h h1
    exact hw.trans (ih hw.inv he)

/-! ## Orphans -/

/-- The flag goes up from fork point to fork point, and shortcutting is disabled at each. -/
theorem setHasOrphanDescendantBubbleUp_moves (n : Nat) (h : Footing w s.toLives) (hp : p < s.size)
    (hself : (s.life p).forkPoint = p) (hb : ∀ e, (s.life p).execPoint = some e → Barren s.tree e) :
    Moves late w s.toLives w (setHasOrphanDescendantBubbleUp n s p).toLives := by
  induction n generalizing s p with
  | zero => exact .refl
  | succ n ih =>
    have hflag : Move late w s.toLives w (s.setHasOrphanDescendant p).toLives := by
      rw [setHasOrphanDescendant_toLives]
      exact .hasOrphan p hb
    have h1 := hflag.footing h
    have hsettle := setHasOrphanDescendant_settles s p
    obtain ⟨-, hparent, -, hep, -⟩ := steady_eq (hsettle.life p)
    rw [setHasOrphanDescendantBubbleUp]
    split
    · exact hflag.single
    next q hq =>
    rw [hparent] at hq
    obtain ⟨-, hlt, hd⟩ := h.shape.parent_lt hp hq
    have hqs : q < s.size := hlt.trans hp
    have hqs1 : q < (s.setHasOrphanDescendant p).size := hsettle.size ▸ hqs
    obtain ⟨hfle, hff, habove⟩ := h1.shape.forkPoint_spec q hqs1
    refine hflag.single.trans (ih h1 (hfle.trans_lt hqs1) hff fun e he => ?_)
    obtain ⟨n, hn, hne⟩ := habove e he
    rw [(steady_eq (hsettle.life q)).2.2.2.1] at hn
    have hpn : (s.life p).execPoint = some n := ((hd.forked (h.shape.forked_of_self hp hself)).2).trans hn
    have htree : (s.setHasOrphanDescendant p).tree = s.tree := by rw [setHasOrphanDescendant_toLives]; rfl
    rw [htree] at hne ⊢
    exact (hb n hpn).above hne

variable (late) in
theorem disableShortcuttingBubbleUp_moves (h : Footing w s.toLives) (he : s.disableShortcuttingBubbleUp p reason = some s') :
    Moves late w s.toLives w s'.toLives ∧ s'.life = s.life ∧ s'.size = s.size ∧
      ∃ node, (s.life p).execPoint = some node ∧ Barren s'.tree node := by
  obtain ⟨node, hnode, he⟩ := bind_eq_some_iff.mp he
  obtain ⟨t, ht, rfl⟩ := map_eq_some_iff.mp he
  obtain ⟨t1, ht1, hw, hb⟩ := bubbleUpLoop_barren h.shape.tree node none reason
  obtain rfl := Option.some.inj (ht1.symm.trans ht)
  exact ⟨(Move.tree hw).single, rfl, rfl, node, hnode, hb⟩

variable (late) in
/-- The window is opened for the mark, if it was not open, and closed when shortcutting is
    disabled. -/
theorem becomeOrphan_moves (h : Footing w s.toLives) (hp : p < s.size) (hq : s.forkParent p = some q)
    (hw : w = none ∨ ∃ e, w = some e ∧ (s.life (s.life p).forkPoint).execPoint = some e)
    (he : s.becomeOrphan p q = some s') : Moves late w s.toLives none s'.toLives := by
  obtain ⟨s1, h1, rfl⟩ := map_eq_some_iff.mp he
  have hfs : (s.life p).forkPoint < s.size := lt_of_le_of_lt (h.shape.forkPoint_spec p hp).1 hp
  -- the node of the fork point, if it has one, is the window
  obtain ⟨w1, hopen, hw1⟩ : ∃ w1, Moves late w s.toLives w1 s.toLives ∧
      w1 = (s.life (s.life p).forkPoint).execPoint := by
    rcases hw with rfl | ⟨e, rfl, he⟩
    · cases he : (s.life (s.life p).forkPoint).execPoint with
      | none => exact ⟨none, .refl, rfl⟩
      | some e => exact ⟨some e, (Move.openWindow e rfl).single, rfl⟩
    · exact ⟨some e, .refl, he.symm⟩
  have hmark : Moves late w s.toLives w1 (s.modifyLife (s.life p).forkPoint ({ · with orphan := true })).toLives :=
    hopen.tail (.orphan _ fun e he => .inr (hw1.trans he))
  obtain ⟨hdisable, hlife, hsize, node, hnode, hbarren⟩ :=
    disableShortcuttingBubbleUp_moves late (hmark.footing h) h1
  have hset : Settles s s1 := (Settles.modifyLife rfl rfl).trans (disableShortcuttingBubbleUp_settles h1)
  have hfoot := hdisable.footing (hmark.footing h)
  obtain ⟨-, -, hfp, hep, -⟩ := steady_eq (hset.life p)
  obtain ⟨-, hfparent, -, hfep, -⟩ := steady_eq (hset.life (s.life p).forkPoint)
  have hp1 : p < s1.size := hset.size ▸ hp
  have hnode1 : (s1.life p).execPoint = some node := by rw [hlife]; exact hnode
  have hfbarren : ∀ e, (s1.life (s.life p).forkPoint).execPoint = some e → Barren s1.tree e := fun e he =>
    hfoot.shape.barren_forkPoint hp1 hnode1 hbarren (by rw [hfp]; exact he)
  have hclose : Moves late w s.toLives none s1.toLives := by
    refine (hmark.trans hdisable).trans ?_
    cases he : (s.life (s.life p).forkPoint).execPoint with
    | none =>
      rw [hw1, he]
      exact .refl
    | some e =>
      rw [hw1, he]
      exact (Move.closeWindow e rfl (hfbarren e (hfep.trans he))).single
  -- the fork parent has the node of the fork point
  have hfq : (s1.life (s.life p).forkPoint).parent = some q := hfparent.trans hq
  have hfs1 : (s.life p).forkPoint < s1.size := hset.size ▸ hfs
  obtain ⟨-, hlt, hd⟩ := hfoot.shape.parent_lt hfs1 hfq
  have hself : (s1.life (s.life p).forkPoint).forkPoint = (s.life p).forkPoint :=
    (steady_eq (hset.life _)).2.2.1.trans (h.shape.forkPoint_spec p hp).2.1
  have hqs : q < s1.size := hlt.trans hfs1
  obtain ⟨hqle, hqq, habove⟩ := hfoot.shape.forkPoint_spec q hqs
  refine hclose.trans (setHasOrphanDescendantBubbleUp_moves _ (hclose.footing h) (hqle.trans_lt hqs) hqq fun e he => ?_)
  obtain ⟨n, hn, hne⟩ := habove e he
  exact (hfbarren n (((hd.forked (hfoot.shape.forked_of_self hfs1 hself)).2).trans hn)).above hne

/-! ## Finalizing -/

theorem doFinalize_moves (hp : p < s.size) (hterm : (s.life p).state = .terminated) (hready : s.Ready p)
    (he : s.doFinalize o p = some s') : Moves late none s.toLives none s'.toLives := by
  rw [doFinalize] at he
  split at he
  · obtain ⟨node, hnode, rfl⟩ := map_eq_some_iff.mp he
    have hlives : ∀ (x : Population) (n : Option Nat) (t : Nat), ((x.addChildrenCpuTimeU n t).queueExecProcForGC p).toLives =
        x.toLives := fun x n t => by cases n <;> rfl
    rw [hlives]
    refine (Move.finalize p _ rfl hp hterm hready fun e hstore => ?_).single
    rw [toStore] at hstore
    split at hstore
    · next hcond =>
      simp only [Bool.and_eq_true, decide_eq_true_eq] at hcond
      cases hstore
      exact ⟨hcond.1.2, node, hnode, hcond.1.1.2⟩
    · cases hstore
  · cases he
    show Moves late none s.toLives none ((s.maybeSendOnFinalizedAck p).toLives.setFinalized p none)
    rw [maybeSendOnFinalizedAck_toLives]
    exact (Move.finalize p none rfl hp hterm hready fun _ he => (by cases he)).single

theorem waited_of_verdict (h : s.verdict p = .finalize) : s.beenWaitedFor p = true := by
  unfold Lives.verdict at h
  split at h
  · cases h
  split at h
  · cases h
  split at h
  · assumption
  split at h
  · cases h
  · dsimp only at h
    split at h <;> cases h

theorem forkParent_of_verdict (h : s.verdict p = .orphan q) : s.forkParent p = some q := by
  unfold Lives.verdict at h
  split at h
  · cases h
  split at h
  · cases h
  split at h
  · cases h
  split at h
  · cases h
  next hq =>
  dsimp only at h
  split at h
  · cases h
    exact hq
  · cases h

variable (late) in
/-- A window may be open for a process that was not waited for; nothing is finalized before it
    is closed. -/
theorem maybeFinalizeLoop_moves (h : Footing w s.toLives) (hp : p < s.size)
    (hw : w = none ∨ ∃ e, w = some e ∧ (s.life (s.life p).forkPoint).execPoint = some e ∧ s.beenWaitedFor p = false)
    (he : maybeFinalizeLoop o n s p = some s') : ∃ w', (w' = none ∨ w' = w) ∧ Moves late w s.toLives w' s'.toLives := by
  induction n generalizing s p w with
  | zero => cases he
  | succ n ih =>
    rcases maybeFinalizeLoop_cases he with ⟨-, rfl⟩ | ⟨s1, s2, hfrom, hs2, hnext⟩
    · exact ⟨w, .inr rfl, .refl⟩
    have hv : s.verdict p ≠ .stay := by
      rcases hfrom with ⟨hv, -⟩ | ⟨q, hv, -⟩ <;> simp [hv]
    obtain ⟨hterm, hready⟩ := ready_of_verdict hv
    obtain ⟨h1, hfound⟩ : Moves late w s.toLives none s1.toLives ∧ s.toLives.Found s1.toLives := by
      rcases hfrom with ⟨hv, rfl⟩ | ⟨q, hv, hq⟩
      · obtain rfl : w = none := hw.resolve_right fun ⟨e, _, _, hnot⟩ =>
          nomatch hnot.symm.trans (waited_of_verdict hv)
        exact ⟨.refl, rfl, fun _ => rfl, fun _ => rfl, fun _ => id, fun _ => id⟩
      · exact ⟨becomeOrphan_moves late h hp (forkParent_of_verdict hv)
          (hw.imp_right fun ⟨e, hwe, hee, _⟩ => ⟨e, hwe, hee⟩) hq, becomeOrphan_found hq⟩
    have hp1 : p < s1.size := hfound.size ▸ hp
    have hterm1 := (hfound.state p).trans hterm
    have h2 := h1.trans (doFinalize_moves hp1 hterm1 (hfound.ready hready) hs2)
    have hsize := (doFinalize_settles hs2 hterm1 fun c hc =>
      execChild_of_ready hterm1 (hfound.ready hready) hc).1.size
    have hfoot := h2.footing h
    rcases hnext with ⟨-, rfl⟩ | ⟨q, hq, he⟩
    · exact ⟨none, .inl rfl, h2⟩
    have hlt := (hfoot.shape.parent_lt (hsize ▸ hp1) hq).2.1
    obtain ⟨w', hw', h3⟩ := ih hfoot (hlt.trans (hsize ▸ hp1)) (.inl rfl) he
    exact ⟨none, .inl rfl, h2.trans ((or_self_iff.mp hw') ▸ h3)⟩

theorem maybeFinalize_moves (h : Footing none s.toLives) (hp : p < s.size) (he : s.maybeFinalize o p = some s') :
    Moves late none s.toLives none s'.toLives := by
  obtain ⟨w', hw', hmoves⟩ := maybeFinalizeLoop_moves late h hp (.inl rfl) he
  exact or_self_iff.mp hw' ▸ hmoves

/-! ## Finishing -/

variable (late) in
/-- The children of one process of the chain. All of them have its node. -/
theorem leaveChildren_moves {n : Option Nat} (h : Footing w s.toLives)
    (hcs : ∀ c ∈ cs, c < s.size ∧ (s.life c).forkPoint = c ∧ (s.life c).execPoint = n) (hw : w = none ∨ w = n)
    (he : leaveChildren o cs s = some (found, s')) :
    ∃ w', (w' = none ∨ w' = n) ∧ (found = false → w' = w) ∧ Moves late w s.toLives w' s'.toLives := by
  induction cs generalizing s w found with
  | nil =>
    cases he
    exact ⟨w, hw, fun _ => rfl, .refl⟩
  | cons c cs ih =>
    have hrest : ∀ x ∈ cs, x < s.size ∧ (s.life x).forkPoint = x ∧ (s.life x).execPoint = n := fun x hx =>
      hcs x (List.mem_cons_of_mem c hx)
    obtain ⟨hc, hself, hn⟩ := hcs c List.mem_cons_self
    rw [leaveChildren] at he
    split at he
    · exact ih h hrest hw he
    next hwaited =>
    obtain ⟨s1, h1, he⟩ := bind_eq_some_iff.mp he
    obtain ⟨⟨found', s2⟩, h2, ⟨⟩⟩ := map_eq_some_iff.mp he
    have hopen : Moves late w s.toLives n s.toLives := by
      rcases hw with rfl | rfl
      · cases n with
        | none => exact .refl
        | some e => exact (Move.openWindow e rfl).single
      · exact .refl
    have hmark : Moves late w s.toLives n (s.modifyLife c ({ · with orphan := true })).toLives :=
      hopen.tail (.orphan c fun e he => .inr (hn.symm.trans he))
    have hfoot := hmark.footing h
    have hset : Settles s (s.modifyLife c ({ · with orphan := true })) := .modifyLife rfl rfl
    obtain ⟨hlast, hlastfp⟩ := h.shape.lastExecDescendant s.size c hc
    have hfp : ∀ x, ((s.modifyLife c ({ · with orphan := true })).life x).forkPoint = (s.life x).forkPoint := fun x =>
      (steady_eq (hset.life x)).2.2.1
    have hwin : n = none ∨ ∃ e, n = some e ∧
        ((s.modifyLife c ({ · with orphan := true })).life
          ((s.modifyLife c ({ · with orphan := true })).life (s.lastExecDescendant s.size c)).forkPoint).execPoint = some e ∧
        (s.modifyLife c ({ · with orphan := true })).beenWaitedFor (s.lastExecDescendant s.size c) = false := by
      cases n with
      | none => exact .inl rfl
      | some e =>
        refine .inr ⟨e, rfl, ?_, ?_⟩
        · rw [hfp, hlastfp, hself, (steady_eq (hset.life c)).2.2.2.1]
          exact hn
        · rw [Lives.beenWaitedFor, hfp, hlastfp, hself, (steady_eq (hset.life c)).2.2.2.2.2.2.2.2]
          exact Bool.not_eq_true _ ▸ hwaited
    obtain ⟨w1, hw1, hmoves1⟩ := maybeFinalizeLoop_moves late hfoot (hset.size ▸ hlast) hwin h1
    have hset1 := hset.trans (maybeFinalize_settles h1)
    have hrest1 : ∀ x ∈ cs, x < s1.size ∧ (s1.life x).forkPoint = x ∧ (s1.life x).execPoint = n := fun x hx => by
      obtain ⟨-, -, hxfp, hxep, -⟩ := steady_eq (hset1.life x)
      rw [hset1.size, hxfp, hxep]
      exact hrest x hx
    obtain ⟨w2, hw2, -, hmoves2⟩ := ih (hmoves1.footing hfoot) hrest1 hw1 h2
    exact ⟨w2, hw2, fun hno => (by cases hno), (hmark.trans hmoves1).trans hmoves2⟩

theorem leaveOrphans_moves (h : Footing none s.toLives) (hcurr : ∀ x ∈ curr, x < s.size)
    (he : leaveOrphans o this n s curr = some s') : Moves late none s.toLives none s'.toLives := by
  induction n generalizing s curr with
  | zero =>
    cases curr with
    | none =>
      cases he
      exact .refl
    | some curr => cases he
  | succ n ih =>
    cases curr with
    | none =>
      cases he
      exact .refl
    | some curr =>
      have hc : curr < s.size := hcurr curr rfl
      obtain ⟨⟨found, s1⟩, h1, he⟩ := bind_eq_some_iff.mp he
      obtain ⟨s2, h2, he⟩ := bind_eq_some_iff.mp he
      have hset1 := leaveChildren_settles h1
      have hchildren : ∀ c ∈ (s.life curr).forkChildren, c < s.size ∧ (s.life c).forkPoint = c ∧
          (s.life c).execPoint = (s.life curr).execPoint := fun c hmem => by
        obtain ⟨hcs, hcp, hce⟩ := h.shape.forkChild curr c hc hmem
        exact ⟨hcs, (h.shape.parent_lt hcs hcp).2.2.forked hce⟩
      obtain ⟨w', hw', hnot, hmoves1⟩ := leaveChildren_moves late h hchildren (.inl rfl) h1
      have hfoot1 := hmoves1.footing h
      obtain ⟨hmoves2, hset2⟩ : Moves late none s.toLives none s2.toLives ∧ Settles s s2 := by
        cases found with
        | false =>
          cases h2
          exact ⟨hnot rfl ▸ hmoves1, hset1⟩
        | true =>
          obtain ⟨s3, h3, rfl⟩ := map_eq_some_iff.mp h2
          obtain ⟨node, hnode, h3⟩ := bind_eq_some_iff.mp h3
          obtain ⟨t, ht, rfl⟩ := map_eq_some_iff.mp h3
          obtain ⟨t1, ht1, hweak, hbarren⟩ := bubbleUpLoop_barren hfoot1.shape.tree node (s1.life this).execPoint
            "Orphan processes can't be shortcut"
          obtain rfl := Option.some.inj (ht1.symm.trans ht)
          have htree : Moves late none s.toLives none (s1.setTree t1).toLives := by
            refine (hmoves1.tail (Move.tree hweak)).trans ?_
            rcases hw' with rfl | rfl
            · exact .refl
            · rw [← (steady_eq (hset1.life curr)).2.2.2.1, hnode]
              exact (Move.closeWindow node rfl hbarren).single
          have hfoot3 := htree.footing h
          have hcs : curr < (s1.setTree t1).size := hset1.size ▸ hc
          obtain ⟨hle, hff, -⟩ := hfoot3.shape.forkPoint_spec curr hcs
          refine ⟨htree.trans (setHasOrphanDescendantBubbleUp_moves _ hfoot3 (hle.trans_lt hcs) hff fun e he => ?_),
            (hset1.trans (.setTree t1)).trans (setHasOrphanDescendantBubbleUp_settles _ _ _)⟩
          exact hfoot3.shape.barren_forkPoint hcs hnode hbarren he
      have hfoot2 := hmoves2.footing h
      refine hmoves2.trans (ih hfoot2 (fun x hx => ?_) he)
      exact (hfoot2.shape.execChild curr x (hset2.size ▸ hc) hx).1

theorem finish_moves (h : Footing none (s.ended p).toLives) (hp : p < s.size) (he : s.finish o p = some s') :
    Moves late none (s.ended p).toLives none s'.toLives := by
  have hp0 : p < (s.ended p).size := by
    rw [ended_toLives]
    exact hp
  rw [finish_eq] at he
  generalize s.ended p = s0 at *
  obtain ⟨s1, h1, he⟩ := bind_eq_some_iff.mp he
  obtain ⟨hmoves, hsize⟩ : Moves late none s0.toLives none s1.toLives ∧ s1.size = s0.size := by
    split at h1
    · refine ⟨leaveOrphans_moves h ?_ h1, (leaveOrphans_settles h1).size⟩
      rintro x ⟨⟩
      exact lt_of_le_of_lt (h.shape.forkPoint_spec p hp0).1 hp0
    · cases h1
      exact ⟨.refl, rfl⟩
  exact hmoves.trans (maybeFinalize_moves (hmoves.footing h) (hsize ▸ hp0) he)

/-! ## Waiting -/

/-- One flag is set or cleared; `execPending` and `hasPendingPopen` only in a process that is not
    finalized, or cleared. -/
theorem flags_move (hf : ∀ l : Life, f l = { l with
      execPending := (f l).execPending, hasPendingPopen := (f l).hasPendingPopen, beenWaitedFor := (f l).beenWaitedFor })
    (h : (s.life p).state = .finalized → ((f (s.life p)).execPending = true → (s.life p).execPending = true) ∧
      ((f (s.life p)).hasPendingPopen = true → (s.life p).hasPendingPopen = true)) :
    Move late w s.toLives w (s.modifyLife p f).toLives := by
  have hflags : s.toLives.modify p f = s.toLives.modify p fun l => { l with
      execPending := (f (s.life p)).execPending, hasPendingPopen := (f (s.life p)).hasPendingPopen,
      beenWaitedFor := (f (s.life p)).beenWaitedFor } := Lives.modify_congr (hf (s.life p))
  show Move late w s.toLives w (s.toLives.modify p f)
  rw [hflags]
  exact .flags p _ _ _ h

end Population
end Firebuild
