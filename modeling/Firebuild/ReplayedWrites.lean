/-
  Firebuild.ReplayedWrites — replayed outputs and the parallel-modification check
  (`execed_process_cacher.cc`: `apply_shortcut`, `restore_dirs`, `remove_files_and_dirs`;
  `file_name.cc`: `open_for_writing`).

  Applying a shortcut registers the inputs and the outputs of the entry at the parent of the
  shortcut process (at the process itself for a report; not the directories and the removed
  files). What a call can look up (`World`) may be another one for each, as the file system
  changes in between. Writing the files themselves is not modelled here, and neither are the
  errors that make it give up.

  A process that really runs and writes a file opens it for writing, which starts a new write
  generation of the file if nobody else has it open. Replaying it does not.

  Proved: `replayed_write_as_real`; `a_replayed_write_goes_unnoticed`.
-/

import Firebuild.Entry
import Firebuild.Generations
import Firebuild.Observation
import Mathlib.Data.List.Sort

namespace Firebuild

open Lib.Forest

/-! ## Replay and real run -/

/-- A call of `register_file_usage_update()`, unless there is no process to register at. -/
structure ReplayCall where
  point : Option Nat
  name : FileName
  update : World → FileUsageUpdate

def replayCalls (cfg : Config) (t : ExecTree) (proc : Nat) (pio : ProcessInputsOutputs) : List ReplayCall :=
  let parentExecPoint := t.up proc
  let registrationPoint := if cfg.generateReport then some proc else parentExecPoint
  -- "Bubble up all the file operations we're about to perform."
  pio.inputs.path.map (fun file => ⟨registrationPoint, file.path, fun w =>
      { filename := file.path, generation := w.generation file.path, initialState := fileToFileInfo file }⟩) ++
    pio.inputs.pathNotexist.map (fun path => ⟨registrationPoint, path, fun w => .new w path .notExist false false⟩) ++
    -- restore_dirs: the parent directories first
    (pio.outputs.pathIsdir.insertionSort fun a b => a.path.str.length ≤ b.path.str.length).map
      (fun dir => ⟨parentExecPoint, dir.path, fun w => fileToFileUsageUpdate w dir⟩) ++
    pio.outputs.pathIsreg.map (fun file => ⟨registrationPoint, file.path, fun w => fileToFileUsageUpdate w file⟩) ++
    -- remove_files_and_dirs: the parent directories last
    (pio.outputs.pathNotexist.insertionSort fun a b => b.str.length ≤ a.str.length).map
      (fun path => ⟨parentExecPoint, path, fun w => .new w path .isDir true false⟩)

def runReplay (cfg : Config) (w : Nat → World) : Nat → List ReplayCall → Supervisor → Option Supervisor
  | _, [], s => some s
  | i, c :: cs, s =>
    match c.point with
    | none => runReplay cfg w (i + 1) cs s
    | some this =>
      (step true cfg s (.registerFileUsageUpdate (w i) this c.name (c.update (s.world (w i))))).bind
        (runReplay cfg w (i + 1) cs)

/-- `apply_shortcut`, as far as the supervisor's books are concerned. -/
def applyShortcut (cfg : Config) (w : Nat → World) (s : Supervisor) (proc : Nat) (pio : ProcessInputsOutputs) :
    Option Supervisor :=
  runReplay cfg w 0 (replayCalls cfg s.tree proc pio) s

def reallyWrites (cfg : Config) (w : World) (s : Supervisor) (proc : Nat) (name : FileName) : Option Supervisor :=
  (step true cfg s (.openForWriting w proc name)).bind fun s => step true cfg s (.closeForWriting name)

/-! ## How a process is treated -/

/-- A use of the file now, from the subtree of `q`: "A parallel process modified the file", or `q` is not
shortcutable anyway. -/
def Supervisor.UseNoticed (s : Supervisor) (q : Nat) (f : FileName) : Prop :=
  s.tree.can q = false ∨
    ∀ w d propagated, d.generation = s.generation f → mergeAt w d propagated (s.fileUsages q f) = .stale

/-- Storing `q` now: "A file changed since the process used it." -/
def Supervisor.StoreRefused (s : Supervisor) (q : Nat) (f : FileName) : Prop :=
  s.tree.can q = false ∨ ∃ u, s.fileUsages q f = some u ∧ u.generation ≠ s.generation f

variable {cfg : Config} {s s' : Supervisor} {p q : Nat} {f : FileName} {u : FileUsage} {w : Nat → World}

theorem useNoticed_iff (hu : s.fileUsages q f = some u) :
    s.UseNoticed q f ↔ s.tree.can q = false ∨ u.generation ≠ s.generation f ∧ u.generation + 1 ≠ s.generation f := by
  refine or_congr Iff.rfl ?_
  rw [hu]
  constructor
  · intro h
    have hstale := h .empty { filename := f, generation := s.generation f } false rfl
    obtain ⟨v, hv, hne⟩ := mergeAt_stale hstale
    cases hv
    exact hne
  · rintro h w d propagated hg
    rw [mergeAt, if_pos (by rw [hg]; exact h)]

theorem storeRefused_iff (hu : s.fileUsages q f = some u) :
    s.StoreRefused q f ↔ s.tree.can q = false ∨ u.generation ≠ s.generation f := by
  refine or_congr Iff.rfl ?_
  rw [hu]
  simp

/-! ## What reaches Q -/

structure Untouched (q : Nat) (s s' : Supervisor) : Prop where
  inv : s'.tree.Inv
  existsUp : s'.ExistsUp
  up : s'.tree.up = s.tree.up
  can : s'.tree.can q = s.tree.can q
  fileUsages : ∀ f, s'.fileUsages q f = s.fileUsages q f
  generation : s'.generation = s.generation

theorem Untouched.refl (hinv : s.tree.Inv) (hex : s.ExistsUp) : Untouched q s s :=
  ⟨hinv, hex, rfl, rfl, fun _ => rfl, rfl⟩

theorem Untouched.trans (h : Untouched q s s') (h' : Untouched q s' s'') : Untouched q s s'' :=
  ⟨h'.inv, h'.existsUp, h'.up.trans h.up, h'.can.trans h.can, fun f => (h'.fileUsages f).trans (h.fileUsages f),
    h'.generation.trans h.generation⟩

theorem Registered.untouched (h : Registered files this s s') (hu : s.uses = [])
    (hq : ¬AtOrAbove s.tree.up this q) : Untouched q s s' :=
  ⟨h.inv, h.existsUp, h.up, h.canOutside q hq, fun _ => h.outside hu fun h => hq h.1, h.generation⟩

/-- All that is registered is about the file's current generation. -/
theorem replayCalls_spec (hinv : t.Inv)
    (hc : c ∈ replayCalls cfg t p pio) :
    (∀ this ∈ c.point, AtOrAbove t.up p this) ∧ ∀ w : World, (c.update w).generation = w.generation c.name := by
  have hself : AtOrAbove t.up p p := by
    obtain ⟨l, hl⟩ := hinv.chain p
    exact ⟨l, hl, List.mem_cons_self⟩
  have hparent : ∀ this ∈ t.up p, AtOrAbove t.up p this := fun this h => hself.parent h
  have hpoint : ∀ this ∈ (if cfg.generateReport then some p else t.up p), AtOrAbove t.up p this := by
    intro this h
    split at h
    · cases h
      exact hself
    · exact hparent this h
  simp only [replayCalls, List.mem_append, List.mem_map] at hc
  rcases hc with (((⟨x, -, rfl⟩ | ⟨x, -, rfl⟩) | ⟨x, -, rfl⟩) | ⟨x, -, rfl⟩) | ⟨x, -, rfl⟩
  · exact ⟨hpoint, fun _ => rfl⟩
  · exact ⟨hpoint, fun _ => rfl⟩
  · exact ⟨hparent, fun _ => rfl⟩
  · exact ⟨hpoint, fun _ => rfl⟩
  · exact ⟨hparent, fun _ => rfl⟩

/-- Registrations above a process end, and do not touch a process that is not above it. -/
theorem runReplay_untouched (hinv : s.tree.Inv) (hex : s.ExistsUp)
    (hcalls : ∀ c ∈ calls, (∀ this ∈ c.point, AtOrAbove s.tree.up p this) ∧
      ∀ w : World, (c.update w).generation = w.generation c.name)
    (hq : ¬AtOrAbove s.tree.up p q) (i : Nat) : ∃ s', runReplay cfg w i calls s = some s' ∧ Untouched q s s' := by
  induction calls generalizing s i with
  | nil => exact ⟨s, rfl, .refl hinv hex⟩
  | cons c cs ih =>
    obtain ⟨habove, hgen⟩ := hcalls c List.mem_cons_self
    have hrest : ∀ c ∈ cs, _ := fun c hc => hcalls c (List.mem_cons_of_mem _ hc)
    unfold runReplay
    cases hpoint : c.point with
    | none => exact ih hinv hex hrest hq (i + 1)
    | some this =>
      obtain ⟨b, s1, hreg, hdone⟩ := @registerFileUsageUpdate_registered true cfg (w i) c.name
        (c.update (s.world (w i))) { s with uses := [] } this hinv hex (hgen _)
      have hun : Untouched q s s1 := by
        have hthis : ¬AtOrAbove s.tree.up this q := fun h => hq ((habove this hpoint).trans h)
        have := hdone.untouched rfl hthis
        exact { this with }
      obtain ⟨s', hrun, hun'⟩ := ih hun.inv hun.existsUp (by rw [hun.up]; exact hrest) (by rw [hun.up]; exact hq) (i + 1)
      refine ⟨s', ?_, hun.trans hun'⟩
      simp only [step, hreg]
      exact hrun

/-! ## What a real write does -/

/-- Opening a file that another process has open disables both below their common ancestor. -/
theorem openedByOther_can (hinv : s.tree.Inv) (hq : ¬AtOrAbove s.tree.up p q)
    (h : openedByOther s p count other f = some s') :
    s'.fileUsages = s.fileUsages ∧ s'.generation = s.generation ∧
      (AtOrAbove s.tree.up other q → s'.tree.can q = false) ∧
      (¬AtOrAbove s.tree.up other q → s'.tree.can q = s.tree.can q) := by
  obtain ⟨common, hcom⟩ := openedByOther_common h
  obtain ⟨hp, -⟩ := hinv.commonExecAncestor_sound hcom
  obtain ⟨t, he, -, -, -, hcan⟩ := openedByOther_spec hinv hcom
  cases h.symm.trans he
  have hcommon : ¬AtOrAbove s.tree.up common q := fun hc => hq (hp.trans hc)
  refine ⟨rfl, rfl, fun hoq => ?_, fun hoq => ?_⟩
  · by_contra hon
    exact hcommon (((hcan q).mp (by simpa using hon)).2 (.inr hoq))
  · rw [Bool.eq_iff_iff, hcan]
    exact and_iff_left fun h => absurd h (not_or.mpr ⟨hq, hoq⟩)

/-- Somebody in the subtree of `q` has the file open for writing when `p` opens it. -/
def Disputed (s : Supervisor) (p q : Nat) (f : FileName) : Prop :=
  s.jobserverFifo p ≠ some f ∧ ∃ n other, s.writeOfds f = some (n, other) ∧ AtOrAbove s.tree.up other q

/-- A first writer: a new generation of the file. -/
theorem openForWriting_starts {w : World} (hs : Sound s) (hu : s.uses = []) (hq : ¬AtOrAbove s.tree.up p q)
    (hst : Starts cfg s f = true) (h : openForWriting true cfg w s p f = some s') :
    Untouched q (startGeneration s p f) s' := by
  have hsg : Sound (startGeneration s p f) := startGeneration_sound hs
  rcases openForWriting_cases hs hu h with ⟨hno, -⟩ | ⟨-, rfl⟩ | ⟨-, d, -, hreg⟩
  · exact nomatch hno.symm.trans hst
  · exact .refl hsg.inv hsg.existsUp
  · exact hreg.untouched hu hq

/-- A file that is ignored or has a writer already. -/
theorem openForWriting_shares {w : World} (hinv : s.tree.Inv) (hq : ¬AtOrAbove s.tree.up p q)
    (hst : Starts cfg s f = false) (h : openForWriting true cfg w s p f = some s') :
    s'.fileUsages = s.fileUsages ∧ s'.generation = s.generation ∧
      (cfg.isInIgnoreLocation f = false → Disputed s p q f → s'.tree.can q = false) ∧
      (cfg.isInIgnoreLocation f = true ∨ ¬Disputed s p q f → s'.tree.can q = s.tree.can q) := by
  unfold openForWriting at h
  by_cases hig : cfg.isInIgnoreLocation f = true
  · rw [if_pos hig] at h
    cases h
    exact ⟨rfl, rfl, fun hno => (nomatch hno.symm.trans hig), fun _ => rfl⟩
  rw [if_neg hig] at h
  cases hw : s.writeOfds f with
  | none =>
    rw [Starts, hw] at hst
    simp [hig] at hst
  | some writers =>
    obtain ⟨count, other⟩ := writers
    rw [hw] at h
    dsimp only at h
    have howner : Disputed s p q f → s.jobserverFifo p ≠ some f ∧ AtOrAbove s.tree.up other q := by
      rintro ⟨hfifo, n, o, hwo, hoq⟩
      rw [hw] at hwo
      cases hwo
      exact ⟨hfifo, hoq⟩
    split at h
    · cases h
    split at h
    · next hother =>
      obtain ⟨hu, hg, hoff, hkeep⟩ := openedByOther_can hinv hq h
      refine ⟨hu, hg, fun _ hd => hoff (howner hd).2, fun hd => hkeep fun hoq => ?_⟩
      exact hd.elim hig fun hd => hd ⟨hother.2, count, other, hw, hoq⟩
    · next hsame =>
      cases h
      refine ⟨rfl, rfl, fun _ hd => ?_, fun _ => rfl⟩
      obtain ⟨hfifo, hoq⟩ := howner hd
      exact absurd ⟨fun hpo => hq (hpo ▸ hoq), hfifo⟩ hsame

/-- What a process that is not above the writer notices of a real write. -/
theorem reallyWrites_spec {w : World} (hs : Sound s) (hq : ¬AtOrAbove s.tree.up p q)
    (h : reallyWrites cfg w s p f = some s2) :
    s2.fileUsages q f = s.fileUsages q f ∧
      (Starts cfg s f = true → s2.generation f = s.generation f + 1 ∧ s2.tree.can q = s.tree.can q) ∧
      (Starts cfg s f = false → s2.generation f = s.generation f ∧
        (cfg.isInIgnoreLocation f = false → Disputed s p q f → s2.tree.can q = false) ∧
        (cfg.isInIgnoreLocation f = true ∨ ¬Disputed s p q f → s2.tree.can q = s.tree.can q)) := by
  obtain ⟨s1, hopen, hclose⟩ := Option.bind_eq_some_iff.mp h
  have hc := closeForWriting_closed hclose
  rw [hc.tree, hc.fileUsages, hc.generation]
  have hs0 : Sound { s with uses := [] } := { hs with }
  cases hst : Starts cfg s f with
  | true =>
    have hun := openForWriting_starts hs0 rfl hq hst hopen
    refine ⟨hun.fileUsages f, fun _ => ⟨?_, hun.can⟩, nofun⟩
    rw [hun.generation]
    exact if_pos rfl
  | false =>
    obtain ⟨hu, hg, hoff, hkeep⟩ := openForWriting_shares (s := { s with uses := [] }) hs.inv hq hst hopen
    exact ⟨congrFun (congrFun hu q) f, nofun, fun _ => ⟨congrFun hg f, hoff, hkeep⟩⟩

/-! ## Replayed and real writes compared -/

/-- For every process P that is shortcut, and every Q that has used the file and is not an ancestor of P: Q is
treated as if P had really written the file exactly if it is not shortcutable anyway, its usage is two generations
old already, the file is ignored, or the file is open for writing and what happens about that does not concern Q. -/
theorem replayed_write_as_real {w' : World} {pio : ProcessInputsOutputs} {s₁ s₂ : Supervisor}
    (hs : Sound s) (hu : s.fileUsages q f = some u) (hsub : ¬AtOrAbove s.tree.up p q)
    (h₁ : applyShortcut cfg w s p pio = some s₁) (h₂ : reallyWrites cfg w' s p f = some s₂) :
    ((s₁.UseNoticed q f ↔ s₂.UseNoticed q f) ∧ (s₁.StoreRefused q f ↔ s₂.StoreRefused q f)) ↔
      s.tree.can q = false ∨ u.generation + 2 ≤ s.generation f ∨ cfg.isInIgnoreLocation f = true ∨
        (∃ writers, s.writeOfds f = some writers) ∧ ¬Disputed s p q f := by
  obtain ⟨s₁', h₁', hun⟩ : ∃ s', applyShortcut cfg w s p pio = some s' ∧ Untouched q s s' :=
    runReplay_untouched hs.inv hs.existsUp (fun _ hc => replayCalls_spec hs.inv hc) hsub 0
  rw [h₁] at h₁'
  cases h₁'
  obtain ⟨hu2, hstart, hshare⟩ := reallyWrites_spec hs hsub h₂
  have hle := hs.le q f u hu
  rw [useNoticed_iff ((hun.fileUsages f).trans hu), useNoticed_iff (hu2.trans hu),
    storeRefused_iff ((hun.fileUsages f).trans hu), storeRefused_iff (hu2.trans hu), hun.can, hun.generation]
  cases hst : Starts cfg s f with
  | true =>
    obtain ⟨hgen, hcan⟩ := hstart hst
    obtain ⟨hig, hw⟩ : cfg.isInIgnoreLocation f = false ∧ s.writeOfds f = none := by simpa [Starts] using hst
    rw [hcan, hig, hw]
    by_cases hc : s.tree.can q = false
    · simp [hc]
    simp only [hc, false_or, reduceCtorEq, exists_false, false_and, or_false]
    constructor
    · omega
    · intro hold
      constructor
      · constructor
        · omega
        · omega
      · constructor
        · omega
        · omega
  | false =>
    obtain ⟨hgen, hoff, hkeep⟩ := hshare hst
    rw [hgen]
    by_cases hfree : cfg.isInIgnoreLocation f = true ∨ ¬Disputed s p q f
    · rw [hkeep hfree]
      simp only [and_self, true_iff]
      rcases hfree with hig | hfree
      · exact .inr (.inr (.inl hig))
      cases hw : s.writeOfds f with
      | none =>
        have hig : cfg.isInIgnoreLocation f = true := by
          rw [Starts, hw] at hst
          simpa using hst
        exact .inr (.inr (.inl hig))
      | some writers => exact .inr (.inr (.inr ⟨⟨writers, rfl⟩, hfree⟩))
    · obtain ⟨hig, hd⟩ := not_or.mp hfree
      have hd := not_not.mp hd
      rw [hoff (by simpa using hig) hd]
      by_cases hc : s.tree.can q = false
      · simp [hc]
      · have hgap : (u.generation ≠ s.generation f ∧ u.generation + 1 ≠ s.generation f) ∧
            u.generation ≠ s.generation f ↔ u.generation + 2 ≤ s.generation f := by omega
        simpa [hc, hig, hd] using hgap

def overwriting (f : FileName) : ProcessInputsOutputs :=
  { outputs := { pathIsreg := [{ path := f, type := .isReg, size := some 1, inlineData := [0] }] } }

theorem Run.sound (h : Run cfg p f ok s ph) : Sound s := by
  induction h with
  | init => exact init_sound
  | step e _ ha _ hstep ih => exact step_sound ih ha hstep

/-- Process 1 has read the file at generation 0, then its sibling has written it twice. A third write, replayed
because the sibling is shortcut, is noticed as if it were real. -/
theorem replayed_write_as_real_later : ∃ s s₁ s₂, Sound s ∧
    applyShortcut {} (fun _ => .empty) s 2 (overwriting ["f"]) = some s₁ ∧
    reallyWrites {} .empty s 2 ["f"] = some s₂ ∧
    (s₁.UseNoticed 1 ["f"] ↔ s₂.UseNoticed 1 ["f"]) ∧ (s₁.StoreRefused 1 ["f"] ↔ s₂.StoreRefused 1 ["f"]) := by
  have h4 := readByOne.2.2
  have h5 := h4.step (.openForWriting .empty 2 ["f"]) (by decide : 2 < 3) trivial rfl
  have h6 := h5.step (.closeForWriting ["f"]) trivial trivial rfl
  have h7 := h6.step (.openForWriting .empty 2 ["f"]) (by decide : 2 < 3) trivial rfl
  have h8 := h7.step (.closeForWriting ["f"]) trivial trivial rfl
  have hsub := mt h8.sound.inv.below_iff.mpr (show ¬ExecTree.below _ 1 2 = true by decide)
  refine ⟨_, _, _, h8.sound, rfl, rfl, ?_⟩
  exact (@replayed_write_as_real {} _ 2 1 ["f"] _ (fun _ => .empty) .empty (overwriting ["f"]) _ _ h8.sound rfl hsub
    rfl rfl).mpr (.inr (.inl (by decide)))

/-- Process 1 has read the file and its sibling is shortcut and overwrites it: process 1 is stored as if nothing
had happened, and is refused if the sibling really runs. -/
theorem a_replayed_write_goes_unnoticed : ∃ s s₁ s₂, Sound s ∧
    applyShortcut {} (fun _ => .empty) s 2 (overwriting ["f"]) = some s₁ ∧
    reallyWrites {} .empty s 2 ["f"] = some s₂ ∧
    s₁.tree.can 1 = true ∧ ¬s₁.StoreRefused 1 ["f"] ∧ s₂.StoreRefused 1 ["f"] := by
  have h4 := readByOne.2.2
  refine ⟨_, _, _, h4.sound, rfl, rfl, rfl, ?_, ?_⟩
  · rw [storeRefused_iff rfl]
    decide
  · rw [storeRefused_iff rfl]
    decide

end Firebuild
