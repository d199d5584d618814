/-
  Firebuild.Learning — what a registration adds to what the processes know
  (`execed_process.cc`: `register_file_usage_update`, `register_parent_directory`).

  Who is visited is not followed here. Every usage after a registration is the one before
  it, or comes from it by merges of the registered update, or of what the update implies
  about the parent directory (`Learned`). A process that registers an update itself and is
  shortcutable afterwards has taken it in (`registerFileUsageUpdate_here`).

  `Retains` is the condition under which a merge forgets nothing: `Keeps` before the first
  write, and after it only the known mode bits count, since only those are still merged. It
  holds again for the merged usage, so it carries over any number of merges of one update
  (`Learns.entails`).
-/

import Firebuild.Bubbling

namespace Firebuild

open Lib.Forest

/-! ## Flags are only lowered -/

namespace ExecTree

variable {t t' : ExecTree} {p q this : Nat} {reason : String} {stop src : Option Nat}

theorem next_can (h : t.nextShortcutableAncestor p = some (r, t')) : t'.can = t.can := by
  unfold nextShortcutableAncestor at h
  split at h
  · cases h
    rfl
  split at h
  · cases h
    rfl
  obtain ⟨next, _, h⟩ := Option.bind_eq_some_iff.mp h
  cases h
  exact setMaybe_can

theorem disable_can_le (hq : t.can q = false) : (t.disableShortcuttingOnlyThis this reason src).can q = false := by
  rw [disable_can]
  exact cleared_of_false hq

theorem bubbleUpLoop_can_le
    (h : bubbleUpLoop stop reason n t this src sa = some t') (hq : t.can q = false) : t'.can q = false := by
  induction n generalizing t this src sa with
  | zero => cases h
  | succ n ih =>
    rw [bubbleUpLoop] at h
    split at h
    · cases h
      exact hq
    obtain ⟨⟨next, t1⟩, hnext, h⟩ := Option.bind_eq_some_iff.mp h
    have hq1 : t1.can q = false := by
      rw [next_can hnext]
      exact disable_can_le hq
    dsimp only at h
    split at h
    · cases h
      exact hq1
    obtain ⟨sa', _, h⟩ := Option.bind_eq_some_iff.mp h
    split at h
    · cases h
      rwa [setMaybe_can]
    · exact ih h (by rwa [setMaybe_can])

theorem bubbleUp_can_le (h : t.disableShortcuttingBubbleUpToExcl this stop reason = some t')
    (hq : t.can q = false) : t'.can q = false := bubbleUpLoop_can_le h hq

/-- Bubbling up without a stop disables the process it starts at. -/
theorem bubbleUp_this (h : t.disableShortcuttingBubbleUp this reason = some t') : t'.can this = false := by
  obtain ⟨⟨next, t1⟩, hnext, h⟩ := Option.bind_eq_some_iff.mp h
  have hq1 : t1.can this = false := by
    rw [next_can hnext, disable_can]
    exact cleared_of_mem List.mem_cons_self
  dsimp only at h
  split at h
  · cases h
    exact hq1
  obtain ⟨sa', _, h⟩ := Option.bind_eq_some_iff.mp h
  split at h
  · cases h
    rwa [setMaybe_can]
  · exact bubbleUpLoop_can_le h (by rwa [setMaybe_can])

end ExecTree

/-! ## Usages only grow by merges -/

/-- One merge of the update, at whatever level of the loop. -/
def TakesIn (w : World) (d : FileUsageUpdate) (fu fu' : Option FileUsage) : Prop :=
  ∃ propagated u, mergeAt w d propagated fu = .ok u ∧ fu' = some u

abbrev Learns (w : World) (updates : FileUsageUpdate → Prop) : Option FileUsage → Option FileUsage → Prop :=
  Relation.ReflTransGen fun fu fu' => ∃ d, updates d ∧ TakesIn w d fu fu'

theorem Learns.mono
    (hu : ∀ d, updates d → updates' d) (h : Learns w updates fu fu') : Learns w updates' fu fu' :=
  Relation.ReflTransGen.mono (fun _ _ ⟨d, hd, ht⟩ => ⟨d, hu d hd, ht⟩) _ _ h

/-- What a registration of `d` for `name` merges at the parent directory `f`. -/
def ParentUpdate (generation : FileName → Nat) (w : World) (name : FileName) (d : FileUsageUpdate) (f : FileName)
    (d' : FileUsageUpdate) : Prop :=
  Implied name d f ∧ d' = .new { w with generation } f d.parentType false false

/-- What it merges at any path: the update itself, or what it implies about the parent
    directory. -/
def UpdateFor (generation : FileName → Nat) (w : World) (name : FileName) (d : FileUsageUpdate) (f : FileName)
    (d' : FileUsageUpdate) : Prop :=
  f = name ∧ d' = d ∨ ParentUpdate generation w name d f d'

structure Learned (w : World) (updates : FileName → FileUsageUpdate → Prop) (s s' : Supervisor) : Prop where
  can : ∀ q, s.tree.can q = false → s'.tree.can q = false
  generation : s'.generation = s.generation
  jobserverFifo : s'.jobserverFifo = s.jobserverFifo
  usage : ∀ q f, Learns w (updates f) (s.fileUsages q f) (s'.fileUsages q f)

variable {quick b c : Bool} {cfg : Config} {w : World} {name : FileName} {d d' : FileUsageUpdate}
  {s s1 s' : Supervisor} {updates : FileName → FileUsageUpdate → Prop} {g : FileName → Nat} {this : Nat}

namespace Learned

theorem refl (s : Supervisor) : Learned w updates s s := ⟨fun _ => id, rfl, rfl, fun _ _ => .refl⟩

theorem trans (h1 : Learned w updates s s1) (h2 : Learned w updates s1 s') : Learned w updates s s' :=
  ⟨fun q hq => h2.can q (h1.can q hq), h2.generation.trans h1.generation, h2.jobserverFifo.trans h1.jobserverFifo,
    fun q f => (h1.usage q f).trans (h2.usage q f)⟩

theorem mono (h : Learned w updates s s')
    (hu : ∀ f d, updates f d → updates' f d) : Learned w updates' s s' :=
  { h with usage := fun q f => Learns.mono (hu f) (h.usage q f) }

theorem usage_eq (h : Learned w updates s s') (hf : ∀ d, ¬updates f d) (q : Nat) :
    s'.fileUsages q f = s.fileUsages q f := by
  rcases Relation.ReflTransGen.cases_head (h.usage q f) with he | ⟨_, ⟨d, hd, _⟩, _⟩
  · exact he.symm
  · exact absurd hd (hf d)

/-- A step that lowers flags and moves pointers. -/
theorem ofTree (h : ∀ q, s.tree.can q = false → t.can q = false) :
    Learned w updates s { s with tree := t } := ⟨h, rfl, rfl, fun _ _ => .refl⟩

theorem ofUsage (hu : updates name d) (h : TakesIn w d (s.fileUsages p name) (some u)) :
    Learned w updates s (s.setUsage p name u) := by
  refine ⟨fun _ => id, rfl, rfl, fun q f => ?_⟩
  by_cases hqf : q = p ∧ f = name
  · obtain ⟨rfl, rfl⟩ := hqf
    rw [show (s.setUsage q f u).fileUsages q f = some u from if_pos ⟨rfl, rfl⟩]
    exact .single ⟨d, hu, h⟩
  · rw [show (s.setUsage p name u).fileUsages q f = s.fileUsages q f from if_neg hqf]

end Learned

/-- The loop, level by level; the usage reused from the level below came from a merge. -/
theorem registerLoop_learned
    (hu : updates name d)
    (hprev : ∀ fuOld fuNew, prev = some (fuOld, fuNew) → TakesIn w d fuOld (some fuNew))
    (h : registerLoop quick w name d n s proc propagated prev = some (e, s')) : Learned w updates s s' := by
  induction n generalizing s proc propagated prev with
  | zero => cases h
  | succ n ih =>
    obtain ⟨-, -, rfl⟩ | ⟨next, t, hn, rfl⟩ | ⟨fuNew, next, t, hm, hn, hrest⟩ := registerLoop_cases h
    · exact .refl _
    · refine .ofTree fun q hq => ?_
      rw [ExecTree.next_can hn]
      exact ExecTree.disable_can_le hq
    have htake : TakesIn w d (s.fileUsages proc name) (some fuNew) := by
      rcases mergeLevel_cases quick w d propagated prev (s.fileUsages proc name) with hl | ⟨fuNew', hp, hl⟩
      · exact ⟨propagated, fuNew, hl ▸ hm, rfl⟩
      rw [hm] at hl
      cases hl
      exact hprev _ _ hp
    have htree : Learned w updates s { s.setUsage proc name fuNew with tree := t } :=
      (Learned.ofUsage hu htake).trans (.ofTree fun q hq => by rwa [ExecTree.next_can hn])
    obtain rfl | ⟨q, h⟩ := hrest
    · exact htree
    refine htree.trans (ih (fun fuOld fuNew' hp => ?_) h)
    cases hp
    exact htake

/-- The one update a registration merges at a path. -/
theorem updateFor_name (h : UpdateFor g w name d name d') : d' = d := by
  rcases h with ⟨_, h⟩ | ⟨hi, _⟩
  · exact h
  · exact absurd rfl (parentDir_ne hi.2.1)

theorem updateFor_dir (hd : dir ≠ name) (h : UpdateFor g w name d dir d') :
    Implied name d dir ∧ d' = .new { w with generation := g } dir d.parentType false false := by
  rcases h with ⟨h, _⟩ | h
  · exact absurd h hd
  · exact h

section Register

variable {parents : Supervisor → Nat → Option Supervisor} {b : Bool} {n this : Nat}

theorem registerFrom_can
    (h : registerFrom cfg s this = some (proc, propagated, t)) : t.can = s.tree.can := by
  unfold registerFrom at h
  split at h
  · cases hn : s.tree.nextShortcutableAncestor this with
    | none => rw [hn] at h; cases h
    | some r =>
      rw [hn] at h
      cases h
      exact ExecTree.next_can hn
  · cases h
    rfl

theorem registerFrom_here (hcan : s.tree.can this = true) :
    registerFrom cfg s this = some (some this, false, s.tree) := by
  unfold registerFrom
  rw [if_neg (by simp [hcan])]

variable (hu : updates name d)
  (hp : ∀ s1 proc s2, s1.generation = s.generation → parents s1 proc = some s2 → Learned w updates s1 s2)
include hu hp

theorem register_learned
    (h : register quick cfg w name d parents n s this = some (b, s')) : Learned w updates s s' := by
  induction n generalizing s this with
  | zero => cases h
  | succ n ih =>
    obtain ⟨-, rfl⟩ | ⟨start, propagated, t, hf, hrest⟩ := register_cases h
    · exact .refl _
    have henter : Learned w updates s { s with uses := (this, name) :: s.uses, tree := t } :=
      ⟨fun q hq => (by rw [registerFrom_can hf]; exact hq), rfl, rfl, fun _ _ => .refl⟩
    obtain ⟨rfl, -⟩ | ⟨proc, s2, e, s3, -, hpar, hl, hend⟩ := hrest
    · exact henter
    have hs3 : Learned w updates s s3 :=
      (henter.trans (hp _ _ _ rfl hpar)).trans (registerLoop_learned hu (fun _ _ h => by cases h) hl)
    obtain ⟨-, rfl | ⟨next, h⟩⟩ | ⟨t, hb, rfl⟩ := hend
    · exact hs3
    · exact hs3.trans (ih (fun s1 proc s2 hg => hp s1 proc s2 (hg.trans hs3.generation)) h)
    · exact hs3.trans (.ofTree fun q hq => ExecTree.bubbleUp_can_le hb hq)

/-- After registering at itself a process is disabled, or has taken the update in, and
    whatever came after that was learnt on top of it. -/
theorem register_here (hi : s.ignores cfg this name = false) (hcan : s.tree.can this = true)
    (h : register quick cfg w name d parents n s this = some (b, s')) :
    ∃ s1, parents { s with uses := (this, name) :: s.uses } this = some s1 ∧ Learned w updates s1 s' ∧
      (s'.tree.can this = false ∨ ∃ u, mergeAt w d false (s1.fileUsages this name) = .ok u ∧
        Learns w (updates name) (some u) (s'.fileUsages this name)) := by
  cases n with
  | zero => cases h
  | succ n =>
    obtain ⟨hig, -⟩ | ⟨start, propagated, t, hf, hrest⟩ := register_cases h
    · rw [hi] at hig
      cases hig
    obtain ⟨⟩ : some (some this, false, s.tree) = some (start, propagated, t) := (registerFrom_here hcan).symm.trans hf
    obtain ⟨-, ⟨⟩⟩ | ⟨_, s1, e, s2, ⟨⟩, hpar, hl, hend⟩ := hrest
    have hg1 : s1.generation = s.generation := (hp { s with uses := (this, name) :: s.uses } _ _ rfl hpar).generation
    have hs2 : Learned w updates s1 s2 := registerLoop_learned hu (fun _ _ h => by cases h) hl
    -- what follows the loop
    have hrest : Learned w updates s2 s' ∧ (e = .failed → s'.tree.can this = false) := by
      obtain ⟨he, rfl | ⟨next, h⟩⟩ | ⟨t, hb, rfl⟩ := hend
      · exact ⟨.refl _, fun h => absurd h he⟩
      · exact ⟨register_learned hu (fun s3 proc s4 hg => hp s3 proc s4 (hg.trans (hs2.generation.trans hg1))) h,
          fun h => absurd h he⟩
      · exact ⟨.ofTree fun q hq => ExecTree.bubbleUp_can_le hb hq, fun _ => ExecTree.bubbleUp_this hb⟩
    refine ⟨s1, hpar, hs2.trans hrest.1, ?_⟩
    -- the first level of the loop is the process itself
    obtain ⟨-, he, -⟩ | ⟨next, t, hn, rfl⟩ | ⟨u, next, t, hm, hn, hloop⟩ := registerLoop_cases hl
    · exact .inl (hrest.2 he)
    · refine .inl (hrest.1.can _ ?_)
      rw [ExecTree.next_can hn, ExecTree.disable_can]
      exact cleared_of_mem List.mem_cons_self
    refine .inr ⟨u, hm, .trans ?_ (hrest.1.usage this name)⟩
    have hself : (s1.setUsage this name u).fileUsages this name = some u := if_pos ⟨rfl, rfl⟩
    obtain rfl | ⟨q, hl⟩ := hloop
    · exact hself ▸ .refl
    have htail : Learned w updates { s1.setUsage this name u with tree := t } s2 :=
      registerLoop_learned hu (fun fuOld fuNew hp => (by cases hp; exact ⟨false, u, hm, rfl⟩)) hl
    exact hself ▸ htail.usage this name

end Register

section Parents

variable {proc : Nat}

/-- The parent directory is registered like any path, without parents of its own. -/
theorem registerParents_cases (h : registerParents quick cfg w name d s proc = some s') :
    s' = s ∧ (∀ dir, ¬Implied name d dir) ∨
    ∃ dir b, Implied name d dir ∧ registerPlain quick cfg w s proc dir (.new (s.world w) dir d.parentType false false) =
      some (b, s') := by
  unfold registerParents at h
  split at h
  · rename_i ht
    unfold registerParentDirectory at h
    cases hd : name.parentDir with
    | none =>
      simp only [hd] at h
      cases h
      refine .inl ⟨rfl, fun dir hi => ?_⟩
      cases hd.symm.trans hi.2.1
    | some dir =>
      cases dir with
      | nil =>
        simp only [hd] at h
        cases h
        refine .inl ⟨rfl, fun dir hi => ?_⟩
        exact hi.2.2 (Option.some.inj (hi.2.1.symm.trans hd))
      | cons a as =>
        simp only [hd] at h
        obtain ⟨⟨b, s2⟩, hr, h⟩ := Option.map_eq_some_iff.mp h
        cases h
        exact .inr ⟨a :: as, b, ⟨ht, hd, List.cons_ne_nil _ _⟩, hr⟩
  · rename_i ht
    cases h
    exact .inl ⟨rfl, fun dir hi => ht hi.1⟩

theorem registerParents_learned (hg : s1.generation = s.generation)
    (h : registerParents quick cfg w name d s1 proc = some s') :
    Learned w (ParentUpdate s.generation w name d) s1 s' := by
  rcases registerParents_cases h with ⟨rfl, _⟩ | ⟨dir, b, hi, hr⟩
  · exact .refl _
  refine register_learned ⟨hi, ?_⟩ (fun s1 _ s2 _ hs => ?_) hr
  · simp only [Supervisor.world, hg]
  · cases hs
    exact .refl _

theorem registerParents_here (hd : Implied name d dir) (hi : s.ignores cfg proc dir = false)
    (hcan : s.tree.can proc = true) (h : registerParents quick cfg w name d s proc = some s')
    (hcan' : s'.tree.can proc = true) :
    ∃ u, mergeAt w (.new (s.world w) dir d.parentType false false) false (s.fileUsages proc dir) = .ok u ∧
      Learns w (ParentUpdate s.generation w name d dir) (some u) (s'.fileUsages proc dir) := by
  rcases registerParents_cases h with ⟨_, hno⟩ | ⟨dir', b, hd', hr⟩
  · exact absurd hd (hno dir)
  obtain rfl : dir' = dir := Option.some.inj (hd'.2.1.symm.trans hd.2.1)
  obtain ⟨s1, hs1, _, hhere⟩ := @register_here quick cfg w dir' (.new (s.world w) dir' d.parentType false false) s s'
    (ParentUpdate s.generation w name d) _ b _ proc ⟨hd, rfl⟩ (fun _ _ _ _ hs => by cases hs; exact .refl _) hi hcan hr
  cases hs1
  exact hhere.resolve_left (by simp [hcan'])

end Parents

theorem registerFileUsageUpdate_learned (h : registerFileUsageUpdate quick cfg w s this name d = some (b, s')) :
    Learned w (UpdateFor s.generation w name d) s s' :=
  register_learned (.inl ⟨rfl, rfl⟩) (fun _ _ _ hg hp => (registerParents_learned hg hp).mono fun _ _ => .inr) h

/-- A shortcutable process that registers an update is disabled, or has taken it in, for the
    path and for the parent directory it says something about. -/
theorem registerFileUsageUpdate_here (hi : s.ignores cfg this name = false)
    (hcan : s.tree.can this = true) (h : registerFileUsageUpdate quick cfg w s this name d = some (b, s'))
    (hcan' : s'.tree.can this = true) :
    (∃ u, mergeAt w d false (s.fileUsages this name) = .ok u ∧
      Learns w (UpdateFor s.generation w name d name) (some u) (s'.fileUsages this name)) ∧
    ∀ dir, Implied name d dir → s.ignores cfg this dir = false →
      ∃ u, mergeAt w (.new (s.world w) dir d.parentType false false) false (s.fileUsages this dir) = .ok u ∧
        Learns w (UpdateFor s.generation w name d dir) (some u) (s'.fileUsages this dir) := by
  have hu : UpdateFor s.generation w name d name d := .inl ⟨rfl, rfl⟩
  obtain ⟨s1, hpar, hrest, hhere⟩ := register_here hu
    (fun _ _ _ hg hp => (registerParents_learned hg hp).mono fun _ _ => .inr) hi hcan h
  have hlearned : Learned w (ParentUpdate s.generation w name d) { s with uses := (this, name) :: s.uses } s1 :=
    registerParents_learned rfl hpar
  refine ⟨?_, fun dir hdir hid => ?_⟩
  · -- registering the parent directory leaves the usage of the path alone
    rw [← show s1.fileUsages this name = s.fileUsages this name from
      hlearned.usage_eq (fun d' hd' => parentDir_ne hd'.1.2.1 rfl) this]
    exact hhere.resolve_left (by simp [hcan'])
  · have hcan1 : s1.tree.can this = true := by
      by_contra hoff
      rw [hrest.can this (by simpa using hoff)] at hcan'
      cases hcan'
    obtain ⟨u, hm, hl⟩ := @registerParents_here quick cfg w name d { s with uses := (this, name) :: s.uses } s1 this dir
      hdir hid hcan hpar hcan1
    exact ⟨u, hm, .trans (Learns.mono (fun _ => .inr) hl) (hrest.usage this dir)⟩

/-! ## When nothing is forgotten -/

/-- A state can be merged into the usage without anything being forgotten: before the first
    write `Keeps`, after it only mode bits are merged. -/
structure Retains (u : FileUsage) (i : FileInfo) : Prop where
  unwritten : u.written = false → Keeps u.initialState u.modeChanged i
  written : u.written = true → u.modeChanged = false → ModeAgrees u.initialState i

theorem setModeBits_agrees (i j : FileInfo) : ModeAgrees (i.setModeBits j.mode j.modeMask) j := by
  ext k hk
  simp [FileInfo.setModeBits]
  cases i.mode[k] <;> cases i.modeMask[k] <;> cases j.mode[k] <;> cases j.modeMask[k] <;> simp

/-- Merging mode bits that do not contradict the known ones only adds to them. -/
theorem mergedState_entails {own d : FileInfo} (h : c = false → ModeAgrees own d) :
    (mergedState c own d).Entails own := by
  by_cases ho : own.type = .dontKnow
  · exact entails_dontKnow ho
  have hcov : ModeCovers (mergedState c own d) own := (mergedState_covers_old rfl rfl).mpr h
  refine (entails_iff (by rwa [mergedState_type])).mpr ?_
  simp only [mergedState_type, mergedState_size, mergedState_hash]
  exact ⟨id, id, id, fun _ hs _ hv => hv hs, fun _ => .inr ⟨hcov, fun _ => id⟩⟩

/-- What says more after the merge said more before it. -/
theorem saysMore_of_join {own d r : FileInfo} (h : own.join d = some r) (hs : SaysMore r d) : SaysMore own d := by
  obtain ⟨hr, hd, hb⟩ := hs
  refine ⟨fun ho => hr ?_, hd, fun hdk => hb ⟨?_, hdk.2⟩⟩
  · unfold FileInfo.join at h
    cases hd' : d.type <;> simp [ho, hd'] at h <;> rw [← h] <;> exact ho
  unfold FileInfo.join at h
  simp [hdk.1, hdk.2] at h
  rw [← h]

theorem Keeps.after {own d r : FileInfo} (h : own.join d = some r) (hk : Keeps own c d) :
    Keeps (mergedState c r d) (c || dc) d := by
  obtain ⟨hm, hmask⟩ := join_mode h
  have hsm : SaysMore (mergedState c r d) d → SaysMore own d := fun hs =>
    saysMore_of_join h ⟨by simpa using hs.1, hs.2.1, by simpa using hs.2.2⟩
  refine ⟨fun ht => ?_, fun ht => ?_, fun _ hc _ => ?_, fun hs hc hd => ?_, fun hs hb => ?_, fun hs hd => ?_⟩
  · have he := hk.exist
    intro hd
    unfold FileInfo.join at h
    cases ho : own.type <;> rw [ho] at he <;> simp [ho, hd] at h he <;> subst h <;> simp [ho] at ht
  · have hn := hk.notExistOrIsReg
    unfold FileInfo.join at h
    cases ho : own.type <;> rw [ho] at hn <;> cases hd : d.type <;> simp [ho, hd] at h hn <;> subst h <;>
      simp [ho] at ht ⊢
  · obtain ⟨rfl, _⟩ := Bool.or_eq_false_iff.mp hc
    exact setModeBits_agrees r d
  · cases c with
    | false => exact setModeBits_covers_new r d
    | true => exact (mergedState_covers_new hm hmask).mpr fun _ => hk.modeChanged (hsm hs) rfl hd
  · rw [mergedState_size]
    have hs := hsm hs
    rcases pins_entails.mp ((join_size_new h hs hb).mpr (hk.size hs hb)) with he | he
    · exact .inr (.inl he)
    · exact .inr (.inr (.inl he))
  · rw [mergedState_hash]
    have hs := hsm hs
    rcases pins_entails.mp ((join_hash_new h hs).mpr (hk.hash hs hd)) with he | he
    · exact .inl he
    · exact .inr (.inl he)

namespace Retains

variable {u u' : FileUsage} {p : Bool}

/-- Anything can be merged into a usage that knows nothing. -/
theorem fresh (i : FileInfo) : Retains (.get .dontKnow) i := by
  refine ⟨fun _ => ?_, nofun⟩
  exact ⟨nofun, nofun, fun _ _ h => absurd rfl h, nofun,
    fun _ _ => .inr (.inr (.inr ⟨rfl, by decide⟩)), fun _ _ => .inr (.inr ⟨rfl, by decide, by simp [FileUsage.get]⟩)⟩

theorem entails (hr : Retains u (d.info w)) (h : FileUsage.merge w u d p = some u') :
    u'.initialState.Entails u.initialState := by
  cases hw : u.written with
  | false => exact ((merge_entails_iff hw h).mpr (hr.unwritten hw)).1
  | true =>
    obtain ⟨r, hm⟩ := FileUsage.merge_spec h
    have hi : r = u.initialState := by simpa [hw] using hm.initial
    have hs : u'.initialState = mergedState u.modeChanged u.initialState (d.info w) := by
      rw [hm.state, hi]
      rfl
    rw [hs]
    exact mergedState_entails (hr.written hw)

theorem after (hr : Retains u (d.info w)) (h : FileUsage.merge w u d p = some u') : Retains u' (d.info w) := by
  obtain ⟨r, hm⟩ := FileUsage.merge_spec h
  have hs : u'.initialState = mergedState u.modeChanged r (d.info w) := hm.state
  refine ⟨fun hw => ?_, fun _ hc => ?_⟩
  · have hu : u.written = false := (Bool.or_eq_false_iff.mp (hm.written ▸ hw)).1
    have hj : u.initialState.join (d.info w) = some r := by simpa [hu] using hm.initial
    rw [hs, hm.modeChanged]
    exact (hr.unwritten hu).after hj
  · have hc : u.modeChanged = false := (Bool.or_eq_false_iff.mp (hm.modeChanged ▸ hc)).1
    rw [hs, hc]
    exact setModeBits_agrees _ _

end Retains

/-- Any number of merges of one update that is retained. -/
theorem Learns.entails {updates : FileUsageUpdate → Prop}
    (hu : ∀ d', updates d' → d' = d) (hr : Retains u (d.info w)) (h : Learns w updates (some u) fu) :
    ∃ u', fu = some u' ∧ u'.initialState.Entails u.initialState ∧ Retains u' (d.info w) := by
  induction h with
  | refl => exact ⟨u, rfl, fun _ he => he, hr⟩
  | tail _ hstep ih =>
    obtain ⟨u1, rfl, hent, hr1⟩ := ih
    obtain ⟨d', hd', propagated, u2, hm, rfl⟩ := hstep
    rw [hu d' hd'] at hm
    obtain ⟨hm, _⟩ := mergeAt_ok hm
    exact ⟨u2, rfl, (hr1.entails hm).trans hent, hr1.after hm⟩

end Firebuild
