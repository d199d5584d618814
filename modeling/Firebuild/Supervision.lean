/-
  Firebuild.Supervision — runs of the supervisor: processes come and are put below their
  parents, lose their shortcutability, register file usages, open and close files for
  writing.

  `Allowed` is what the callers promise: a process exists before it acts, an update carries
  the file's current generation and is well formed (as every constructor of `FileUsageUpdate`
  makes it), the exclusive stop of a bubbling up is at or above the process or null, and a queued
  posix_spawn() child has done nothing yet when it gets its parent.

  `Sound` holds in every state of every run (`step_sound`): the tree keeps its invariant, no
  usage is from a later generation than the file's, and whoever has a usage of a file, its
  shortcutable ancestors have one too.
-/

import Firebuild.Registration

namespace Firebuild

open Lib.Forest

inductive Event where
  | exec (parent : Option Nat) (jobserverFifo : Option FileName)
  | setParent (p parentExecPoint : Nat)
  | disableShortcuttingOnlyThis (this : Nat) (reason : String)
  | disableShortcuttingBubbleUpToExcl (this : Nat) (stop : Option Nat) (reason : String)
  | registerFileUsageUpdate (w : World) (this : Nat) (name : FileName) (d : FileUsageUpdate)
  | openForWriting (w : World) (proc : Nat) (name : FileName)
  | closeForWriting (name : FileName)

def step (quick : Bool) (cfg : Config) (s : Supervisor) (e : Event) : Option Supervisor :=
  let s := { s with uses := [] }
  match e with
  | .exec parent fifo =>
    (s.tree.exec parent).map fun tree =>
      { s with tree, jobserverFifo := fun q => if q = s.tree.size then fifo else s.jobserverFifo q }
  | .setParent p q => (s.tree.setParent p q).map fun tree => { s with tree }
  | .disableShortcuttingOnlyThis this reason =>
    some { s with tree := s.tree.disableShortcuttingOnlyThis this reason none }
  | .disableShortcuttingBubbleUpToExcl this stop reason =>
    (s.tree.disableShortcuttingBubbleUpToExcl this stop reason).map fun tree => { s with tree }
  | .registerFileUsageUpdate w this name d => (registerFileUsageUpdate quick cfg w s this name d).map Prod.snd
  | .openForWriting w proc name => openForWriting quick cfg w s proc name
  | .closeForWriting name => closeForWriting cfg s name

def Allowed (s : Supervisor) : Event → Prop
  | .exec parent _ => ∀ q ∈ parent, q < s.tree.size
  | .setParent p q => s.tree.up p = none ∧ (∀ x, s.tree.up x ≠ some p) ∧ q < s.tree.size ∧ q ≠ p ∧
      p < s.tree.size ∧ ∀ f, s.fileUsages p f = none
  | .disableShortcuttingOnlyThis this _ => this < s.tree.size
  | .disableShortcuttingBubbleUpToExcl this stop _ =>
    this < s.tree.size ∧ ∀ x ∈ stop, AtOrAbove s.tree.up this x
  | .registerFileUsageUpdate _ this name d => this < s.tree.size ∧ d.generation = s.generation name ∧ d.WellFormed
  | .openForWriting _ proc _ => proc < s.tree.size
  | .closeForWriting _ => True

structure Sound (s : Supervisor) : Prop where
  inv : s.tree.Inv
  fresh : ∀ p f, s.tree.size ≤ p → s.fileUsages p f = none
  le : ∀ p f u, s.fileUsages p f = some u → u.generation ≤ s.generation f
  existsUp : s.ExistsUp

variable {quick : Bool} {cfg : Config} {w : World} {s s' : Supervisor} {name : FileName}

theorem init_sound : Sound .init :=
  ⟨ExecTree.empty_inv, fun _ _ _ => rfl, fun _ _ _ => nofun, fun _ _ _ _ _ _ _ => nofun⟩

theorem atOrAbove_lt {t : ExecTree} (h : t.Inv) (ha : a < t.size) (hb : AtOrAbove t.up a b) :
    b < t.size := by
  obtain ⟨l, hc, hm⟩ := hb
  rcases List.mem_cons.mp hm with rfl | hm
  · exact ha
  · exact h.mem_lt hc hm

/-- What only lowers flags: the tree keeps its shape and the usages stay. -/
structure Lowered (s s' : Supervisor) : Prop where
  inv : s'.tree.Inv
  size : s'.tree.size = s.tree.size
  up : s'.tree.up = s.tree.up
  can : ∀ {q : Nat}, s'.tree.can q = true → s.tree.can q = true
  fileUsages : s'.fileUsages = s.fileUsages
  generation : s'.generation = s.generation
  jobserverFifo : s'.jobserverFifo = s.jobserverFifo
  uses : s'.uses = []

theorem Lowered.existsUp (h : Lowered s s') (hex : s.ExistsUp) : s'.ExistsUp := by
  intro c f l a hc ha hcan hs
  rw [h.fileUsages] at hs ⊢
  exact hex c f l a (h.up ▸ hc) ha (h.can hcan) hs

theorem Lowered.sound (h : Lowered s s') (hs : Sound s) : Sound s' := by
  refine ⟨h.inv, fun p f hp => ?_, fun p f u hu => ?_, h.existsUp hs.existsUp⟩
  · rw [h.fileUsages]
    exact hs.fresh p f (h.size ▸ hp)
  rw [h.fileUsages] at hu
  rw [h.generation]
  exact hs.le p f u hu

theorem Registered.sound (h : Registered files this s s') (hs : Sound s)
    (huses : ∀ c f, (c, f) ∈ s'.uses → c < s.tree.size) : Sound s' := by
  refine ⟨h.inv, fun p f hp => ?_, fun p f u hu => ?_, h.existsUp⟩
  · rw [h.size] at hp
    rcases h.usage p f with e | ⟨⟨c, hc, hq⟩, _⟩
    · rw [e]
      exact hs.fresh p f hp
    · exact absurd (atOrAbove_lt hs.inv (huses c f hc) hq) (Nat.not_lt.mpr hp)
  · rw [h.generation]
    rcases h.usage p f with e | ⟨_, ⟨u', e, hg⟩, _⟩
    · rw [e] at hu
      exact hs.le p f u hu
    rw [e] at hu
    cases hu
    exact Nat.le_of_eq hg

def Starts (cfg : Config) (s : Supervisor) (name : FileName) : Bool :=
  !cfg.isInIgnoreLocation name && (s.writeOfds name).isNone

variable {proc count other : Nat}

/-- A file that another process has open is accounted to a common ancestor, and both are disabled
    below it. -/
theorem openedByOther_spec (hinv : s.tree.Inv)
    (hcom : s.tree.commonExecAncestor proc other = some common) :
    ∃ t, openedByOther s proc count other name = some { s with
          tree := t, writeOfds := fun f => if f = name then some (count + 1, common) else s.writeOfds f } ∧
      t.Inv ∧ t.size = s.tree.size ∧ t.up = s.tree.up ∧
      ∀ q, t.can q = true ↔ s.tree.can q = true ∧
        (AtOrAbove s.tree.up proc q ∨ AtOrAbove s.tree.up other q → AtOrAbove s.tree.up common q) := by
  obtain ⟨hp, ho⟩ := hinv.commonExecAncestor_sound hcom
  have hdisabled : ∀ {t : ExecTree} {p : Nat} (reason : String), t.Inv → AtOrAbove t.up p common →
      ∃ t', (if common ≠ p then t.disableShortcuttingBubbleUpToExcl p (some common) reason else some t) = some t' ∧
        ExecTree.DisabledTo t t' p (some common) := by
    intro t p reason hi hpc
    split
    · exact hi.disabledTo (fun x hx => by cases hx; exact hpc) reason
    next heq =>
    obtain rfl := not_not.mp heq
    exact ⟨t, rfl, hi, rfl, rfl, fun q => (and_iff_left fun hq => ⟨common, rfl, hq⟩).symm⟩
  obtain ⟨t1, he1, hd1⟩ := hdisabled "Opened a file for writing which file is already opened for writing" hinv hp
  obtain ⟨t2, he2, hd2⟩ := hdisabled
    "An other process opened a file for writing which file is already opened for writing" hd1.inv (hd1.up ▸ ho)
  refine ⟨t2, ?_, hd2.inv, hd2.size.trans hd1.size, hd2.up.trans hd1.up, fun q => ?_⟩
  · simp only [openedByOther, hcom, he1]
    split at he2
    · next hne => simp only [if_pos hne, he2]
    next heq =>
    cases he2
    obtain rfl := not_not.mp heq
    rw [if_neg heq]
  · rw [hd2.can, hd1.can, hd1.up]
    simp only [Option.mem_def, Option.some.injEq, exists_eq_left', and_assoc, or_imp]

theorem openedByOther_common
    (h : openedByOther s proc count other name = some s') : ∃ common, s.tree.commonExecAncestor proc other = some common := by
  cases hcom : s.tree.commonExecAncestor proc other with
  | none =>
    rw [openedByOther, hcom] at h
    cases h
  | some common => exact ⟨common, rfl⟩

theorem openedByOther_lowers (hinv : s.tree.Inv) (hu : s.uses = [])
    (h : openedByOther s proc count other name = some s') : Lowered s s' := by
  obtain ⟨common, hcom⟩ := openedByOther_common h
  obtain ⟨t, he, hi, hsize, hup, hcan⟩ := openedByOther_spec hinv hcom
  cases h.symm.trans he
  exact ⟨hi, hsize, hup, fun {q} hq => ((hcan q).mp hq).1, rfl, rfl, rfl, hu⟩

/-- Everything `open_for_writing()` can do. -/
theorem openForWriting_cases (hs : Sound s) (hu : s.uses = []) (h : openForWriting quick cfg w s proc name = some s') :
    Starts cfg s name = false ∧ Lowered s s' ∨
    Starts cfg s name = true ∧ s' = startGeneration s proc name ∨
    Starts cfg s name = true ∧ ∃ d : FileUsageUpdate, d.parentType = .dontKnow ∧
      Registered (Files name d) proc (startGeneration s proc name) s' := by
  have hsame : Lowered s s := ⟨hs.inv, rfl, rfl, id, rfl, rfl, rfl, hu⟩
  unfold openForWriting at h
  split at h
  · rename_i hi
    cases h
    exact .inl ⟨by simp [Starts, hi], hsame⟩
  rename_i hi
  split at h
  · rename_i count other hw
    refine .inl ⟨by simp [Starts, hw], ?_⟩
    split at h
    · cases h
    split at h
    · exact openedByOther_lowers hs.inv hu h
    · cases h
      exact ⟨hs.inv, rfl, rfl, id, rfl, rfl, rfl, hu⟩
  · rename_i hw
    have hstart : Starts cfg s name = true := by simp [Starts, hi, hw]
    right
    dsimp only at h
    split at h
    · cases h
      exact .inl ⟨hstart, rfl⟩
    split at h
    · cases h
    obtain ⟨b, s1, he, hreg⟩ := @registerFileUsageUpdate_registered quick cfg w name
      (.new ((startGeneration s proc name).world w) name .dontKnow false false) (startGeneration s proc name)
      proc hs.inv hs.existsUp rfl
    rw [he] at h
    cases h
    exact .inr ⟨hstart, _, rfl, hreg⟩

/-- A process `p` that has done nothing yet gets its place in the tree. -/
structure Placed (s s' : Supervisor) (p : Nat) : Prop where
  inv : s'.tree.Inv
  size : s.tree.size ≤ s'.tree.size
  lt : ∀ q, q < s'.tree.size ↔ q < s.tree.size ∨ q = p
  up : ∀ x, x ≠ p → s'.tree.up x = s.tree.up x
  can : ∀ x, x < s.tree.size → s'.tree.can x = s.tree.can x
  leaf : ∀ x, s.tree.up x ≠ some p
  idle : ∀ f, s.fileUsages p f = none
  fileUsages : s'.fileUsages = s.fileUsages
  generation : s'.generation = s.generation
  jobserverFifo : ∀ x, x ≠ p → s'.jobserverFifo x = s.jobserverFifo x
  uses : s'.uses = []

variable {p : Nat}

/-- Nobody's ancestors change but those of `p`. -/
theorem Placed.chain (h : Placed s s' p) (hinv : s.tree.Inv) (hc : c ≠ p) :
    Chain s'.tree.up c l ↔ Chain s.tree.up c l := by
  have hkeep : ∀ {l}, Chain s.tree.up c l → Chain s'.tree.up c l := by
    intro l hl
    refine hl.congr fun x hx => h.up x ?_
    rintro rfl
    rcases List.mem_cons.mp hx with hx | hx
    · exact hc hx.symm
    · obtain ⟨y, hy⟩ := hl.mem_parent hx
      exact h.leaf y hy
  refine ⟨fun hl => ?_, hkeep⟩
  obtain ⟨l', hl'⟩ := hinv.chain c
  rw [hl.unique (hkeep hl')]
  exact hl'

theorem Placed.sound (h : Placed s s' p) (hs : Sound s) : Sound s' := by
  refine ⟨h.inv, fun q f hq => ?_, fun q f u hu => ?_, fun c f l a hc ha hcan hsome => ?_⟩
  · rw [h.fileUsages]
    exact hs.fresh q f (Nat.le_trans h.size hq)
  · rw [h.fileUsages] at hu
    rw [h.generation]
    exact hs.le q f u hu
  rw [h.fileUsages] at hsome ⊢
  have hcp : c ≠ p := by
    rintro rfl
    rw [h.idle f] at hsome
    cases hsome
  have hc' := (h.chain hs.inv hcp).mp hc
  exact hs.existsUp c f l a hc' ha ((h.can a (hs.inv.mem_lt hc' ha)) ▸ hcan) hsome

inductive Effect (cfg : Config) (s : Supervisor) : Event → Supervisor → Prop
  | lowered {e : Event} {s' : Supervisor} : Lowered s s' →
      (∀ w proc name, e = .openForWriting w proc name → Starts cfg s name = false) → Effect cfg s e s'
  | placed {e : Event} {s' : Supervisor} (p : Nat) : Placed s s' p →
      (∀ w proc name, e ≠ .openForWriting w proc name) → Effect cfg s e s'
  | registered {w : World} {this : Nat} {name : FileName} {d : FileUsageUpdate} {s' : Supervisor} :
      Registered (Files name d) this { s with uses := [] } s' →
      Effect cfg s (.registerFileUsageUpdate w this name d) s'
  | started {w : World} {proc : Nat} {name : FileName} {d : FileUsageUpdate} {s' : Supervisor} :
      Starts cfg s name = true → d.parentType = .dontKnow →
      Registered (Files name d) proc (startGeneration { s with uses := [] } proc name) s' →
      Effect cfg s (.openForWriting w proc name) s'

theorem startGeneration_sound (hs : Sound s) : Sound (startGeneration s proc name) := by
  refine ⟨hs.inv, hs.fresh, fun p f u hu => ?_, hs.existsUp⟩
  have hle := hs.le p f u hu
  simp only [startGeneration]
  split <;> omega

theorem exec_placed (hs : Sound s)
    (ha : Allowed s (.exec parent fifo)) (h : step quick cfg s (.exec parent fifo) = some s') :
    Placed s s' s.tree.size := by
  obtain ⟨t, he, hi, hsize, hup, hcan⟩ := hs.inv.exec ha
  simp only [step, he, Option.map_some, Option.some.injEq] at h
  subst h
  refine ⟨hi, ?_, fun q => ?_, fun x hx => ?_, fun x hx => ?_, fun x hx => ?_,
    fun f => hs.fresh _ f (Nat.le_refl _), rfl, rfl, fun x hx => if_neg hx, rfl⟩
  · exact hsize ▸ Nat.le_succ _
  · rw [show t.size = s.tree.size + 1 from hsize]
    omega
  · rw [hup, if_neg hx]
  · rw [hcan, if_neg (Nat.ne_of_lt hx)]
  · exact Nat.lt_irrefl _ (hs.inv.lt hx)

theorem setParent_placed (hs : Sound s) (ha : Allowed s (.setParent p q))
    (h : step quick cfg s (.setParent p q) = some s') : Placed s s' p := by
  obtain ⟨_, hleaf, hq, hne, hp, hidle⟩ := ha
  obtain ⟨t, he, hi, hsize, hup, hcan⟩ := hs.inv.setParent hleaf hq hne
  simp only [step, he, Option.map_some, Option.some.injEq] at h
  subst h
  refine ⟨hi, Nat.le_of_eq hsize.symm, fun q => ?_, fun x hx => ?_, fun x _ => by rw [hcan], hleaf, hidle,
    rfl, rfl, fun _ _ => rfl, rfl⟩
  · rw [show t.size = s.tree.size from hsize]
    constructor
    · exact .inl
    rintro (h | rfl)
    · exact h
    · exact hp
  · rw [hup, if_neg hx]

/-- Closing files for writing leaves everything else alone. -/
structure Closed (s s' : Supervisor) : Prop where
  tree : s'.tree = s.tree
  fileUsages : s'.fileUsages = s.fileUsages
  generation : s'.generation = s.generation
  jobserverFifo : s'.jobserverFifo = s.jobserverFifo
  uses : s'.uses = s.uses

theorem closeForWriting_closed (h : closeForWriting cfg s name = some s') : Closed s s' := by
  unfold closeForWriting at h
  split at h
  · cases h
    exact ⟨rfl, rfl, rfl, rfl, rfl⟩
  split at h
  · cases h
  split at h
  · cases h
  · cases h
    exact ⟨rfl, rfl, rfl, rfl, rfl⟩

theorem closeForWriting_lowers (hs : Sound s) (h : step quick cfg s (.closeForWriting name) = some s') :
    Lowered s s' := by
  have hc := closeForWriting_closed h
  exact ⟨by rw [hc.tree]; exact hs.inv, by rw [hc.tree], by rw [hc.tree], fun hq => by rwa [hc.tree] at hq, hc.fileUsages,
    hc.generation, hc.jobserverFifo, hc.uses⟩

variable {e : Event}

theorem step_effect (hs : Sound s) (ha : Allowed s e) (h : step quick cfg s e = some s') : Effect cfg s e s' := by
  have hs0 : Sound { s with uses := [] } := { hs with }
  cases e with
  | exec parent fifo => exact .placed s.tree.size (exec_placed hs ha h) (fun _ _ _ => nofun)
  | setParent p q => exact .placed p (setParent_placed hs ha h) (fun _ _ _ => nofun)
  | disableShortcuttingOnlyThis this reason =>
    simp only [step, Option.some.injEq] at h
    subst h
    refine .lowered ⟨hs.inv.disable none, ExecTree.disable_size, ExecTree.disable_up, fun hq => ?_, rfl, rfl, rfl, rfl⟩
      (fun _ _ _ => nofun)
    rw [ExecTree.disable_can] at hq
    exact cleared_le hq
  | disableShortcuttingBubbleUpToExcl this stop reason =>
    obtain ⟨t, he, hd⟩ := hs.inv.disabledTo ha.2 reason
    simp only [step, he, Option.map_some, Option.some.injEq] at h
    subst h
    exact .lowered ⟨hd.inv, hd.size, hd.up, fun {q} hq => ((hd.can q).mp hq).1, rfl, rfl, rfl, rfl⟩ (fun _ _ _ => nofun)
  | registerFileUsageUpdate w this name d =>
    obtain ⟨b, s1, he, hreg⟩ := @registerFileUsageUpdate_registered quick cfg w name d { s with uses := [] } this
      hs.inv hs.existsUp ha.2.1
    simp only [step, he, Option.map_some, Option.some.injEq] at h
    subst h
    exact .registered hreg
  | openForWriting w proc name =>
    rcases openForWriting_cases hs0 rfl h with ⟨hst, hl⟩ | ⟨hst, rfl⟩ | ⟨hst, d, hd, hreg⟩
    · exact .lowered { hl with } (fun _ _ _ h => by cases h; exact hst)
    · have hsg : Sound (startGeneration { s with uses := [] } proc name) := startGeneration_sound hs0
      exact .started (d := .new w name .dontKnow false false) hst rfl (.refl hsg.inv hsg.existsUp)
    · exact .started hst hd hreg
  | closeForWriting name => exact .lowered (closeForWriting_lowers hs h) (fun _ _ _ => nofun)

/-- The invariant is kept by every event, with or without the quick path. -/
theorem step_sound (hs : Sound s) (ha : Allowed s e) (h : step quick cfg s e = some s') : Sound s' := by
  cases step_effect hs ha h with
  | lowered hl _ => exact hl.sound hs
  | placed p hp _ => exact hp.sound hs
  | registered hreg =>
    refine hreg.sound { hs with } fun c f hcf => ?_
    rcases hreg.mine c f hcf with hcf | ⟨hc, _⟩
    · cases hcf
    · exact atOrAbove_lt hs.inv ha.1 hc
  | started hst _ hreg =>
    refine hreg.sound (startGeneration_sound { hs with }) fun c f hcf => ?_
    rcases hreg.mine c f hcf with hcf | ⟨hc, _⟩
    · cases hcf
    · exact atOrAbove_lt hs.inv ha hc

end Firebuild
