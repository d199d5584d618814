/-
  Firebuild.Registration — registering what a process did with a file, at the process and
  at its shortcutable ancestors (`execed_process.cc`: `register_file_usage_update`,
  `register_parent_directory`; `file_name.cc`: `open_for_writing`, `close_for_writing`).

  `Supervisor` is the state these functions share: the process tree, each process's file
  usages, and per file name the write generation and the open writers. A missing entry of
  the generation map is generation 0, as `FileName::generation()` has it.

  The loop that bubbles an update up compares the usage found at a level with the one
  found on the level below (`fu_old`) and reuses the merged usage (`fu_new`), and it stops
  where nothing changed. With `quick = false` it does neither: the update is merged at
  every level. The loop and the recursion carry a step count; `none` is not ended, or an
  assertion that failed.

  `registerLoop_eq` reads the loop as a walk over the list of the process and its
  shortcutable ancestors (`walk`).
-/

import Firebuild.ExecTree
import Firebuild.Merge

namespace Firebuild

open Lib.Forest
open Function (update update_of_ne update_self)
open List
open ExecTree (setMaybe_up setMaybe_can)

structure Config where
  generateReport : Bool := false
  isInIgnoreLocation : FileName → Bool := fun _ => false

structure Supervisor where
  tree : ExecTree
  jobserverFifo : Nat → Option FileName
  fileUsages : Nat → FileName → Option FileUsage
  /-- `generation_db_` -/
  generation : FileName → Nat
  /-- `write_ofds_db_`: how many writers, and the process they are accounted to. -/
  writeOfds : FileName → Option (Nat × Nat)
  /-- Ghost: the calls of `register_file_usage_update()` that were not ignored, newest first. -/
  uses : List (Nat × FileName)

namespace Supervisor

def init : Supervisor := ⟨.empty, fun _ => none, fun _ _ => none, fun _ => 0, fun _ => none, []⟩

def setUsage (s : Supervisor) (p : Nat) (name : FileName) (u : FileUsage) : Supervisor :=
  { s with fileUsages := fun q f => if q = p ∧ f = name then some u else s.fileUsages q f }

def ignores (cfg : Config) (s : Supervisor) (this : Nat) (name : FileName) : Bool :=
  cfg.isInIgnoreLocation name || s.jobserverFifo this == some name

def world (s : Supervisor) (w : World) : World := { w with generation := s.generation }

end Supervisor

inductive Merging where
  | ok (fuNew : FileUsage)
  | failed
  /-- "A parallel process modified the file" -/
  | stale
  deriving DecidableEq, Repr

def Merging.ofOption : Option FileUsage → Merging
  | none => .failed
  | some fu => .ok fu

def mergeAt (w : World) (d : FileUsageUpdate) (propagated : Bool) : Option FileUsage → Merging
  | none => .ofOption (FileUsage.merge w (.get .dontKnow) d propagated)
  | some fu =>
    if fu.generation ≠ d.generation ∧ fu.generation + 1 ≠ d.generation then .stale
    else .ofOption (fu.merge w d propagated)

/-- The quick path, with `fu_old` and `fu_new` of the level below in `prev`. -/
def mergeLevel (quick : Bool) (w : World) (d : FileUsageUpdate) (propagated : Bool)
    (prev : Option (Option FileUsage × FileUsage)) (fu : Option FileUsage) : Merging :=
  match prev with
  | none => mergeAt w d propagated fu
  | some (fuOld, fuNew) => if quick = true ∧ fu = fuOld then .ok fuNew else mergeAt w d propagated fu

inductive LoopEnd where
  | done
  | failed
  /-- The process was disabled, and the next one to register at was looked up. -/
  | stale (next : Option Nat)
  deriving DecidableEq, Repr

def registerLoop (quick : Bool) (w : World) (name : FileName) (d : FileUsageUpdate) :
    Nat → Supervisor → Nat → Bool → Option (Option FileUsage × FileUsage) → Option (LoopEnd × Supervisor)
  | 0, _, _, _, _ => none
  | n + 1, s, proc, propagated, prev =>
    let fu := s.fileUsages proc name
    match mergeLevel quick w d propagated prev fu with
    | .failed => some (.failed, s)
    | .stale =>
      let tree := s.tree.disableShortcuttingOnlyThis proc "A parallel process modified the file" none
      match tree.nextShortcutableAncestor proc with
      | none => none
      | some (next, tree) => some (.stale next, { s with tree })
    | .ok fuNew =>
      let s := s.setUsage proc name fuNew
      match s.tree.nextShortcutableAncestor proc with
      | none => none
      | some (none, tree) => some (.done, { s with tree })
      | some (some next, tree) =>
        if quick = true ∧ fu = some fuNew then some (.done, { s with tree })
        else registerLoop quick w name d n { s with tree } next true (some (fu, fuNew))

/-- Where the registration starts: at the process, or at its first shortcutable ancestor,
    and whether the usage is a propagated one there. -/
def registerFrom (cfg : Config) (s : Supervisor) (this : Nat) : Option (Option Nat × Bool × ExecTree) :=
  if s.tree.can this = false ∧ cfg.generateReport = false then
    match s.tree.nextShortcutableAncestor this with
    | none => none
    | some (proc, tree) => some (proc, true, tree)
  else some (some this, false, s.tree)

/-- `parents` registers what is implied about the parent directory. The last case is the
    recursion after a parallel change. -/
def register (quick : Bool) (cfg : Config) (w : World) (name : FileName) (d : FileUsageUpdate)
    (parents : Supervisor → Nat → Option Supervisor) : Nat → Supervisor → Nat → Option (Bool × Supervisor)
  | 0, _, _ => none
  | n + 1, s, this =>
    if s.ignores cfg this name then some (true, s)
    else
      match registerFrom cfg { s with uses := (this, name) :: s.uses } this with
      | none => none
      | some (none, _, tree) => some (true, { s with uses := (this, name) :: s.uses, tree })
      | some (some proc, propagated, tree) =>
        match parents { s with uses := (this, name) :: s.uses, tree } proc with
        | none => none
        | some s =>
          match registerLoop quick w name d (s.tree.size + 1) s proc propagated none with
          | none => none
          | some (.done, s) | some (.stale none, s) => some (true, s)
          | some (.failed, s) =>
            match s.tree.disableShortcuttingBubbleUp this "Could not register unsupported file usage combination" with
            | none => none
            | some tree => some (false, { s with tree })
          | some (.stale (some next), s) => register quick cfg w name d parents n s next

def registerPlain (quick : Bool) (cfg : Config) (w : World) (s : Supervisor) (this : Nat) (name : FileName)
    (d : FileUsageUpdate) : Option (Bool × Supervisor) :=
  register quick cfg w name d (fun s _ => some s) (s.tree.size + 1) s this

def registerParentDirectory (quick : Bool) (cfg : Config) (w : World) (s : Supervisor) (this : Nat)
    (name : FileName) (parentType : FileType) : Option (Bool × Supervisor) :=
  match name.parentDir with
  | none => some (false, s)
  -- "don't bother registering /"
  | some [] => some (true, s)
  | some dir => registerPlain quick cfg w s this dir (.new (s.world w) dir parentType false false)

def registerParents (quick : Bool) (cfg : Config) (w : World) (name : FileName) (d : FileUsageUpdate)
    (s : Supervisor) (proc : Nat) : Option Supervisor :=
  if d.parentType ≠ .dontKnow then (registerParentDirectory quick cfg w s proc name d.parentType).map Prod.snd
  else some s

def registerFileUsageUpdate (quick : Bool) (cfg : Config) (w : World) (s : Supervisor) (this : Nat)
    (name : FileName) (d : FileUsageUpdate) : Option (Bool × Supervisor) :=
  register quick cfg w name d (registerParents quick cfg w name d) (s.tree.size + 1) s this

/-- A different process opens a file that is open for writing: both are disabled up to
    their common ancestor, and the writers are accounted to that from then on. -/
def openedByOther (s : Supervisor) (proc count other : Nat) (name : FileName) : Option Supervisor :=
  match s.tree.commonExecAncestor proc other with
  | none => none
  | some common =>
    match if common ≠ proc then
        s.tree.disableShortcuttingBubbleUpToExcl proc (some common)
          "Opened a file for writing which file is already opened for writing"
      else some s.tree with
    | none => none
    | some tree =>
      if common ≠ other then
        match tree.disableShortcuttingBubbleUpToExcl other (some common)
            "An other process opened a file for writing which file is already opened for writing" with
        | none => none
        | some tree =>
          some { s with
            tree, writeOfds := fun f => if f = name then some (count + 1, common) else s.writeOfds f }
      else some { s with tree, writeOfds := fun f => if f = name then some (count + 1, other) else s.writeOfds f }

/-- The first writer opens the file: a new generation. -/
def startGeneration (s : Supervisor) (proc : Nat) (name : FileName) : Supervisor :=
  { s with
    writeOfds := fun f => if f = name then some (1, proc) else s.writeOfds f
    generation := fun f => if f = name then s.generation f + 1 else s.generation f }

def openForWriting (quick : Bool) (cfg : Config) (w : World) (s : Supervisor) (proc : Nat) (name : FileName) :
    Option Supervisor :=
  if cfg.isInIgnoreLocation name then some s
  else
    match s.writeOfds name with
    | some (count, other) =>
      if count = 0 then none
      else if proc ≠ other ∧ s.jobserverFifo proc ≠ some name then openedByOther s proc count other name
      else some { s with writeOfds := fun f => if f = name then some (count + 1, other) else s.writeOfds f }
    | none =>
      let s' := startGeneration s proc name
      -- the first generation is not bubbled up
      if s.generation name = 0 then some s'
      else if 2 ^ 32 ≤ s'.generation name then none
      else (registerFileUsageUpdate quick cfg w s' proc name (.new (s'.world w) name .dontKnow false false)).map Prod.snd

def closeForWriting (cfg : Config) (s : Supervisor) (name : FileName) : Option Supervisor :=
  if cfg.isInIgnoreLocation name then some s
  else
    match s.writeOfds name with
    | none => none
    | some (count, proc) =>
      if count = 0 then none
      else some { s with
        writeOfds := fun f =>
          if f = name then (if count > 1 then some (count - 1, proc) else none) else s.writeOfds f }

/-! ## The loop as a walk over the processes it visits -/

inductive WalkEnd where
  | done
  | failed
  /-- Stopped at `q`, with the shortcutable processes above it left. -/
  | stale (q : Nat) (above : List Nat)
  deriving DecidableEq, Repr

def WalkEnd.loopEnd : WalkEnd → LoopEnd
  | done => .done
  | failed => .failed
  | stale _ above => .stale above.head?

def WalkEnd.disabled : WalkEnd → List Nat
  | done | failed => []
  | stale q _ => [q]

/-- The loop on the usages of one file, with the processes it visits given. -/
def walk (quick : Bool) (w : World) (d : FileUsageUpdate) :
    List Nat → Bool → Option (Option FileUsage × FileUsage) → (Nat → Option FileUsage) →
      WalkEnd × (Nat → Option FileUsage)
  | [], _, _, us => (.done, us)
  | q :: qs, propagated, prev, us =>
    match mergeLevel quick w d propagated prev (us q) with
    | .failed => (.failed, us)
    | .stale => (.stale q qs, us)
    | .ok fuNew =>
      if quick = true ∧ us q = some fuNew then (.done, update us q (some fuNew))
      else walk quick w d qs true (some (us q, fuNew)) (update us q (some fuNew))

/-- The state after the loop, given where its walk ended and the usages then. -/
structure Walked (name : FileName) (s s' : Supervisor) (e : WalkEnd) (us : Nat → Option FileUsage) : Prop where
  inv : s'.tree.Inv
  size : s'.tree.size = s.tree.size
  up : s'.tree.up = s.tree.up
  can : s'.tree.can = cleared s.tree.can e.disabled
  fileUsages : ∀ q f, s'.fileUsages q f = if f = name then us q else s.fileUsages q f
  jobserverFifo : s'.jobserverFifo = s.jobserverFifo
  generation : s'.generation = s.generation
  writeOfds : s'.writeOfds = s.writeOfds
  uses : s'.uses = s.uses

variable {quick : Bool} {cfg : Config} {w : World} {name : FileName} {d : FileUsageUpdate} {s s' : Supervisor}
  {up : Nat → Option Nat} {can : Nat → Bool} {fu : Option FileUsage} {qs : List Nat} {propagated : Bool}
  {prev : Option (Option FileUsage × FileUsage)}

theorem cleared_nil (can : Nat → Bool) : cleared can [] = can := by
  funext x
  exact cleared_of_not_mem not_mem_nil

theorem setUsage_at (s : Supervisor) (p : Nat) (name : FileName) (u : FileUsage) :
    (fun q => (s.setUsage p name u).fileUsages q name) = update (fun q => s.fileUsages q name) p (some u) := by
  funext q
  by_cases hq : q = p
  · subst hq
    rw [update_self]
    exact if_pos ⟨rfl, rfl⟩
  · rw [update_of_ne hq]
    exact if_neg fun h => hq h.1

theorem setUsage_other (hf : f ≠ name) :
    (s.setUsage p name u).fileUsages q f = s.fileUsages q f := if_neg fun h => hf h.2

/-- The list of shortcutable ancestors, one at a time. -/
theorem filter_of_find (hc : Chain up p l)
    (h : l.find? can = some q) : ∃ l', Chain up q l' ∧ l.filter can = q :: l'.filter can := by
  obtain ⟨hq, l1, l2, rfl, hl⟩ := List.find?_eq_some_iff_append.mp h
  refine ⟨l2, hc.suffix, ?_⟩
  have hnil : l1.filter can = [] := by
    rw [filter_eq_nil_iff]
    exact fun x hx => by simpa using hl x hx
  rw [filter_append, hnil, filter_cons_of_pos hq, nil_append]

variable {n proc this : Nat}

/-- On a tree that keeps its invariant the loop ends, and does what the walk does. -/
theorem registerLoop_eq (h : s.tree.Inv) (hc : Chain s.tree.up proc l)
    (hn : (l.filter s.tree.can).length < n) {r : WalkEnd × (Nat → Option FileUsage)}
    (hr : (walk quick w d (proc :: l.filter s.tree.can) propagated prev fun q => s.fileUsages q name) = r) :
    ∃ s', registerLoop quick w name d n s proc propagated prev = some (r.1.loopEnd, s') ∧ Walked name s s' r.1 r.2 := by
  subst hr
  induction n generalizing s proc l propagated prev with
  | zero => omega
  | succ n ih =>
    rw [registerLoop, walk]
    have hsame : ∀ q f, s.fileUsages q f = if f = name then s.fileUsages q name else s.fileUsages q f := by
      intro q f
      split
      · rename_i hf
        rw [hf]
      · rfl
    cases hm : mergeLevel quick w d propagated prev (s.fileUsages proc name) with
    | failed => exact ⟨s, rfl, h, rfl, rfl, (cleared_nil _).symm, hsame, rfl, rfl, rfl, rfl⟩
    | stale =>
      obtain ⟨t, ht⟩ : ∃ t, t = s.tree.disableShortcuttingOnlyThis proc "A parallel process modified the file" none :=
        ⟨_, rfl⟩
      have hup : t.up = s.tree.up := by rw [ht, ExecTree.disable_up]
      have hcan : t.can = cleared s.tree.can [proc] := by rw [ht, ExecTree.disable_can]
      obtain ⟨m, he, hinv⟩ := ExecTree.Inv.next (ht ▸ h.disable none) (hup ▸ hc)
      have hfind : l.find? t.can = (l.filter s.tree.can).head? := by
        rw [hcan, find?_cleared, List.head?_filter]
        exact fun x hx hp => hc.self_not_mem (mem_singleton.mp hp ▸ hx)
      refine ⟨{ s with tree := t.setMaybe proc m }, ?_, hinv, ?_, ?_, ?_, hsame, rfl, rfl, rfl, rfl⟩
      · simp only [← ht, he, hfind]
        rfl
      · rw [ExecTree.setMaybe_size, ht, ExecTree.disable_size]
      · rw [setMaybe_up, hup]
      · rw [setMaybe_can, hcan]
        rfl
    | ok fuNew =>
      obtain ⟨m, he, hinv⟩ := h.next hc
      have hstored : ∀ q f, (s.setUsage proc name fuNew).fileUsages q f = if f = name then
          update (fun q => s.fileUsages q name) proc (some fuNew) q else s.fileUsages q f := by
        intro q f
        split
        · rename_i hf
          rw [hf, ← setUsage_at]
        · rename_i hf
          exact setUsage_other hf
      have hstop : Walked name s { s.setUsage proc name fuNew with tree := s.tree.setMaybe proc m } .done
          (update (fun q => s.fileUsages q name) proc (some fuNew)) :=
        ⟨hinv, ExecTree.setMaybe_size, setMaybe_up, by rw [setMaybe_can]; exact (cleared_nil _).symm,
          hstored, rfl, rfl, rfl, rfl⟩
      cases hfind : l.find? s.tree.can with
      | none =>
        rw [filter_eq_nil_iff.mpr (List.find?_eq_none.mp hfind)]
        simp only [show (s.setUsage proc name fuNew).tree = s.tree from rfl, he, hfind, walk, ite_self]
        exact ⟨_, rfl, hstop⟩
      | some q =>
        obtain ⟨l', hc', hl'⟩ := filter_of_find hc hfind
        simp only [show (s.setUsage proc name fuNew).tree = s.tree from rfl, he, hfind]
        split
        · exact ⟨_, rfl, hstop⟩
        rw [hl'] at hn ⊢
        obtain ⟨s', hrun, hw⟩ := @ih { s.setUsage proc name fuNew with tree := s.tree.setMaybe proc m } true
          (some (s.fileUsages proc name, fuNew)) q l' hinv (by rw [setMaybe_up]; exact hc')
          (by rw [setMaybe_can]; simpa using hn)
        have hus : (fun q => ({ s.setUsage proc name fuNew with tree := s.tree.setMaybe proc m } :
            Supervisor).fileUsages q name) = update (fun q => s.fileUsages q name) proc (some fuNew) :=
          setUsage_at s proc name fuNew
        rw [hus, setMaybe_can] at hrun hw
        refine ⟨s', hrun, hw.inv, hw.size, hw.up.trans setMaybe_up, ?_, fun p f => ?_, hw.jobserverFifo,
          hw.generation, hw.writeOfds, hw.uses⟩
        · rw [hw.can, setMaybe_can]
        rw [hw.fileUsages]
        split
        · rfl
        · rename_i hf
          exact setUsage_other hf

/-! ## What a level does -/

theorem registerLoop_cases
    (h : registerLoop quick w name d (n + 1) s proc propagated prev = some (e, s')) :
    mergeLevel quick w d propagated prev (s.fileUsages proc name) = .failed ∧ e = .failed ∧ s' = s ∨
    (∃ next tree, (s.tree.disableShortcuttingOnlyThis proc "A parallel process modified the file"
      none).nextShortcutableAncestor proc = some (next, tree) ∧ s' = { s with tree }) ∨
    ∃ fuNew next tree, mergeLevel quick w d propagated prev (s.fileUsages proc name) = .ok fuNew ∧
      s.tree.nextShortcutableAncestor proc = some (next, tree) ∧
      (s' = { s.setUsage proc name fuNew with tree } ∨ ∃ q, registerLoop quick w name d n
        { s.setUsage proc name fuNew with tree } q true (some (s.fileUsages proc name, fuNew)) = some (e, s')) := by
  simp only [registerLoop] at h
  split at h
  · next hm =>
    cases h
    exact .inl ⟨hm, rfl, rfl⟩
  · split at h
    · cases h
    next hn =>
    cases h
    exact .inr (.inl ⟨_, _, hn, rfl⟩)
  · next fuNew hm =>
    refine .inr (.inr ⟨fuNew, ?_⟩)
    split at h
    · cases h
    · next hn =>
      cases h
      exact ⟨_, _, hm, hn, .inl rfl⟩
    next hn =>
    refine ⟨_, _, hm, hn, ?_⟩
    split at h
    · cases h
      exact .inl rfl
    · exact .inr ⟨_, h⟩

theorem register_cases
    (h : register quick cfg w name d parents (n + 1) s this = some (b, s')) :
    s.ignores cfg this name = true ∧ s' = s ∨
    ∃ start propagated tree, registerFrom cfg { s with uses := (this, name) :: s.uses } this =
      some (start, propagated, tree) ∧ (s' = { s with uses := (this, name) :: s.uses, tree } ∧ start = none ∨
      ∃ proc s1 e s2, start = some proc ∧ parents { s with uses := (this, name) :: s.uses, tree } proc = some s1 ∧
        registerLoop quick w name d (s1.tree.size + 1) s1 proc propagated none = some (e, s2) ∧
        (e ≠ .failed ∧ (s' = s2 ∨ ∃ next, register quick cfg w name d parents n s2 next = some (b, s')) ∨
        ∃ tree, s2.tree.disableShortcuttingBubbleUp this "Could not register unsupported file usage combination" = some tree ∧
          s' = { s2 with tree })) := by
  simp only [register] at h
  split at h
  · next hi =>
    cases h
    exact .inl ⟨hi, rfl⟩
  refine .inr ?_
  split at h
  · cases h
  · next hf =>
    cases h
    exact ⟨_, _, _, hf, .inl ⟨rfl, rfl⟩⟩
  next hf =>
  split at h
  · cases h
  next hpar =>
  refine ⟨_, _, _, hf, .inr ?_⟩
  split at h
  · cases h
  · next hl =>
    cases h
    exact ⟨_, _, _, _, rfl, hpar, hl, .inl ⟨(nomatch ·), .inl rfl⟩⟩
  · next hl =>
    cases h
    exact ⟨_, _, _, _, rfl, hpar, hl, .inl ⟨(nomatch ·), .inl rfl⟩⟩
  · next hl =>
    split at h
    · cases h
    next hb =>
    cases h
    exact ⟨_, _, _, _, rfl, hpar, hl, .inr ⟨_, hb, rfl⟩⟩
  · next hl => exact ⟨_, _, _, _, rfl, hpar, hl, .inl ⟨(nomatch ·), .inr ⟨_, h⟩⟩⟩

/-- A usage brought up to generation `g`: from nothing, from `g` or from the generation before. -/
def Renewed (g : Nat) (old new : Option FileUsage) : Prop :=
  (∃ u, new = some u ∧ u.generation = g) ∧ ∀ u, old = some u → u.generation = g ∨ u.generation + 1 = g

variable {fuNew : FileUsage}

theorem mergeAt_ok (h : mergeAt w d propagated fu = .ok fuNew) :
    FileUsage.merge w (fu.getD (.get .dontKnow)) d propagated = some fuNew ∧
      ∀ u, fu = some u → u.generation = d.generation ∨ u.generation + 1 = d.generation := by
  have hof : ∀ o, Merging.ofOption o = .ok fuNew → o = some fuNew := by
    intro o ho
    cases o with
    | none => cases ho
    | some u => cases ho; rfl
  cases fu with
  | none => exact ⟨hof _ h, nofun⟩
  | some u =>
    rw [mergeAt] at h
    split at h
    · cases h
    refine ⟨hof _ h, fun u' hu' => ?_⟩
    cases hu'
    omega

theorem mergeAt_stale (h : mergeAt w d propagated fu = .stale) :
    ∃ u, fu = some u ∧ u.generation ≠ d.generation ∧ u.generation + 1 ≠ d.generation := by
  have hof : ∀ o, Merging.ofOption o ≠ .stale := by
    intro o ho
    cases o <;> cases ho
  cases fu with
  | none => exact absurd h (hof _)
  | some u =>
    rw [mergeAt] at h
    split at h
    · rename_i hg
      exact ⟨u, rfl, hg⟩
    · exact absurd h (hof _)

theorem renewed_of_mergeAt (h : mergeAt w d propagated fu = .ok fuNew) : Renewed d.generation fu (some fuNew) := by
  obtain ⟨hm, hg⟩ := mergeAt_ok h
  obtain ⟨r, hr⟩ := FileUsage.merge_spec hm
  exact ⟨⟨fuNew, rfl, hr.generation⟩, hg⟩

/-- The quick path answers only what a merge would have. -/
theorem mergeLevel_cases (quick : Bool) (w : World) (d : FileUsageUpdate) (propagated : Bool)
    (prev : Option (Option FileUsage × FileUsage)) (fu : Option FileUsage) :
    mergeLevel quick w d propagated prev fu = mergeAt w d propagated fu ∨
      ∃ fuNew, prev = some (fu, fuNew) ∧ mergeLevel quick w d propagated prev fu = .ok fuNew := by
  cases prev with
  | none => exact .inl rfl
  | some p =>
    obtain ⟨fuOld, fuNew⟩ := p
    rw [mergeLevel]
    split
    · rename_i h
      exact .inr ⟨fuNew, by rw [h.2], rfl⟩
    · exact .inl rfl

variable {us : Nat → Option FileUsage}

/-- What the walk does to the usages: those of processes on its list may be renewed. -/
theorem walk_renews (hnd : qs.Nodup)
    (hprev : ∀ fuOld fuNew, prev = some (fuOld, fuNew) → Renewed d.generation fuOld (some fuNew)) (q : Nat) :
    (walk quick w d qs propagated prev us).2 q = us q ∨
      q ∈ qs ∧ Renewed d.generation (us q) ((walk quick w d qs propagated prev us).2 q) := by
  induction qs generalizing propagated prev us with
  | nil => exact .inl rfl
  | cons a qs ih =>
    obtain ⟨ha, hnd⟩ := nodup_cons.mp hnd
    rw [walk]
    cases hm : mergeLevel quick w d propagated prev (us a) with
    | failed | stale => exact .inl rfl
    | ok fuNew =>
      have hr : Renewed d.generation (us a) (some fuNew) := by
        rcases mergeLevel_cases quick w d propagated prev (us a) with h | ⟨fuNew', hp, h⟩
        · exact renewed_of_mergeAt (h ▸ hm)
        rw [hm] at h
        cases h
        exact hprev _ _ hp
      have hone : update us a (some fuNew) q = us q ∨
          q ∈ a :: qs ∧ Renewed d.generation (us q) (update us a (some fuNew) q) := by
        by_cases hq : q = a
        · subst hq
          rw [update_self]
          exact .inr ⟨mem_cons_self, hr⟩
        · exact .inl (update_of_ne hq _ _)
      dsimp only
      split
      · exact hone
      have hrest := @ih true (some (us a, fuNew)) (update us a (some fuNew)) hnd (fun _ _ h => by cases h; exact hr)
      rcases hrest with h | ⟨hq, h⟩
      · rw [h]
        exact hone
      · rw [update_of_ne (fun e : q = a => ha (e ▸ hq))] at h
        exact .inr ⟨mem_cons_of_mem _ hq, h⟩

theorem walk_other (hq : q ∉ qs) : (walk quick w d qs propagated prev us).2 q = us q := by
  induction qs generalizing propagated prev us with
  | nil => rfl
  | cons a qs ih =>
    have ha : q ≠ a := ne_of_not_mem_cons hq
    rw [walk]
    cases mergeLevel quick w d propagated prev (us a) with
    | failed | stale => rfl
    | ok fuNew =>
      dsimp only
      split
      · exact update_of_ne ha _ _
      · rw [ih (not_mem_of_not_mem_cons hq)]
        exact update_of_ne ha _ _

/-- Where a walk stops at a parallel change: the rest of the list is left, and the usage it
    found is of an earlier or a later generation. -/
theorem walk_stale (h : (walk quick w d qs propagated prev us).1 = .stale q above) :
    ∃ below, qs = below ++ q :: above := by
  induction qs generalizing propagated prev us with
  | nil => cases h
  | cons a qs ih =>
    rw [walk] at h
    cases hm : mergeLevel quick w d propagated prev (us a) with
    | failed => rw [hm] at h; cases h
    | stale =>
      rw [hm] at h
      cases h
      exact ⟨[], rfl⟩
    | ok fuNew =>
      rw [hm] at h
      dsimp only at h
      split at h
      · cases h
      · obtain ⟨below, rfl⟩ := ih h
        exact ⟨a :: below, rfl⟩

/-- Unless a merge failed, every process on the list has a usage afterwards: a process that
    is not reached is above one that had a usage before. -/
theorem walk_reaches (hnd : qs.Nodup) (hup : qs.Pairwise fun a b => (us a).isSome = true → (us b).isSome = true)
    (he : (walk quick w d qs propagated prev us).1 ≠ .failed) {q : Nat} (hq : q ∈ qs) :
    ((walk quick w d qs propagated prev us).2 q).isSome = true := by
  induction qs generalizing propagated prev us with
  | nil => cases hq
  | cons a qs ih =>
    obtain ⟨ha, hnd⟩ := nodup_cons.mp hnd
    obtain ⟨hup, hups⟩ := pairwise_cons.mp hup
    rw [walk] at he ⊢
    cases hm : mergeLevel quick w d propagated prev (us a) with
    | failed => rw [hm] at he; exact absurd rfl he
    | stale =>
      have hsome : (us a).isSome = true := by
        rcases mergeLevel_cases quick w d propagated prev (us a) with h | ⟨_, _, h⟩
        · obtain ⟨u, hu, _⟩ := mergeAt_stale (h ▸ hm)
          rw [hu]
          rfl
        · rw [hm] at h
          cases h
      rcases mem_cons.mp hq with rfl | hq
      · exact hsome
      · exact hup q hq hsome
    | ok fuNew =>
      rw [hm] at he
      dsimp only at he ⊢
      split
      · rename_i hstop
        show (update us a (some fuNew) q).isSome = true
        rcases mem_cons.mp hq with rfl | hq
        · rw [update_self]
          rfl
        · rw [update_of_ne (fun e : q = a => ha (e ▸ hq))]
          exact hup q hq (by rw [hstop.2]; rfl)
      · rename_i hgo
        rw [if_neg hgo] at he
        rcases mem_cons.mp hq with rfl | hq
        · rw [walk_other ha, update_self]
          rfl
        refine ih hnd (hups.imp_of_mem fun {x y} hx hy hxy => ?_) he hq
        rwa [update_of_ne (fun e : x = a => ha (e ▸ hx)), update_of_ne (fun e : y = a => ha (e ▸ hy))]

/-! ## A whole registration -/

/-- Whoever has a usage of a file, its shortcutable ancestors have one too. -/
def Supervisor.ExistsUp (s : Supervisor) : Prop :=
  ∀ c f l a, Chain s.tree.up c l → a ∈ l → s.tree.can a = true → (s.fileUsages c f).isSome = true →
    (s.fileUsages a f).isSome = true

/-- The shortcutable processes at or above `c` have a usage of `f`. -/
def Supervisor.Reached (s : Supervisor) (c : Nat) (f : FileName) : Prop :=
  ∀ a, AtOrAbove s.tree.up c a → s.tree.can a = true → (s.fileUsages a f).isSome = true

/-- What a registration at `this` can do, when `files` are the paths it is about. -/
structure Registered (files : FileName → Prop) (this : Nat) (s s' : Supervisor) : Prop where
  inv : s'.tree.Inv
  size : s'.tree.size = s.tree.size
  up : s'.tree.up = s.tree.up
  can : ∀ {q : Nat}, s'.tree.can q = true → s.tree.can q = true
  canOutside : ∀ q, ¬AtOrAbove s.tree.up this q → s'.tree.can q = s.tree.can q
  jobserverFifo : s'.jobserverFifo = s.jobserverFifo
  generation : s'.generation = s.generation
  writeOfds : s'.writeOfds = s.writeOfds
  uses : ∀ x ∈ s.uses, x ∈ s'.uses
  mine : ∀ c f, (c, f) ∈ s'.uses → (c, f) ∈ s.uses ∨ AtOrAbove s.tree.up this c ∧ files f ∧ s'.Reached c f
  usage : ∀ q f, s'.fileUsages q f = s.fileUsages q f ∨
    (∃ c, (c, f) ∈ s'.uses ∧ AtOrAbove s.tree.up c q) ∧
      Renewed (s.generation f) (s.fileUsages q f) (s'.fileUsages q f)
  existsUp : s'.ExistsUp

namespace Registered

variable {files : FileName → Prop} {this p : Nat} {s1 s2 : Supervisor} {f : FileName}

theorem isSome (h : Registered files this s s') (hs : (s.fileUsages q f).isSome = true) :
    (s'.fileUsages q f).isSome = true := by
  rcases h.usage q f with e | ⟨_, ⟨u, e, _⟩, _⟩
  · rwa [e]
  · rw [e]
    rfl

theorem reached (h : Registered files this s s') (hr : s.Reached c f) : s'.Reached c f :=
  fun a ha hc => h.isSome (hr a (h.up ▸ ha) (h.can hc))

/-- Only usages of the files at or above the registering process change. -/
theorem outside (h : Registered files this s s') (hu : s.uses = [])
    (hp : ¬(AtOrAbove s.tree.up this p ∧ files f)) : s'.fileUsages p f = s.fileUsages p f := by
  rcases h.usage p f with he | ⟨⟨c, hc, hcp⟩, _⟩
  · exact he
  rcases h.mine c f hc with hc | ⟨hc, hf, _⟩
  · rw [hu] at hc
    cases hc
  · exact absurd ⟨hc.trans hcp, hf⟩ hp

theorem refl (hinv : s.tree.Inv) (hex : s.ExistsUp) : Registered files this s s :=
  ⟨hinv, rfl, rfl, id, fun _ _ => rfl, rfl, rfl, rfl, fun _ => id, fun _ _ h => .inl h, fun _ _ => .inl rfl, hex⟩

/-- A second registration, at a process at or above the first one. -/
theorem trans (h1 : Registered files this s s1) (h2 : Registered files p s1 s2) (hp : AtOrAbove s.tree.up this p) :
    Registered files this s s2 := by
  refine ⟨h2.inv, h2.size.trans h1.size, h2.up.trans h1.up, fun h => h1.can (h2.can h),
    fun q hq => (h2.canOutside q fun hpq => hq (hp.trans (h1.up ▸ hpq))).trans (h1.canOutside q hq),
    h2.jobserverFifo.trans h1.jobserverFifo, h2.generation.trans h1.generation, h2.writeOfds.trans h1.writeOfds,
    fun x hx => h2.uses x (h1.uses x hx), fun c f hcf => ?_, fun q f => ?_, h2.existsUp⟩
  · rcases h2.mine c f hcf with hcf | ⟨hc, hf, hr⟩
    · rcases h1.mine c f hcf with hcf | ⟨hc, hf, hr⟩
      · exact .inl hcf
      · exact .inr ⟨hc, hf, h2.reached hr⟩
    · exact .inr ⟨hp.trans (h1.up ▸ hc), hf, hr⟩
  · rcases h2.usage q f with e2 | ⟨⟨c, hc, hq⟩, hr2⟩
    · rcases h1.usage q f with e1 | ⟨⟨c, hc, hq⟩, hr1⟩
      · exact .inl (e2.trans e1)
      · exact .inr ⟨⟨c, h2.uses _ hc, hq⟩, e2 ▸ hr1⟩
    rw [h1.up] at hq
    rw [h1.generation] at hr2
    refine .inr ⟨⟨c, hc, hq⟩, hr2.1, ?_⟩
    rcases h1.usage q f with e1 | ⟨_, hr1⟩
    · exact e1 ▸ hr2.2
    · exact hr1.2

end Registered

/-- Where a registration starts, in terms of the ancestors `l`. -/
def registrant (cfg : Config) (can : Nat → Bool) (this : Nat) (l : List Nat) : Option Nat × Bool :=
  if can this = false ∧ cfg.generateReport = false then (l.find? can, true) else (some this, false)

theorem registrant_skips (cfg : Config) (can : Nat → Bool) (this : Nat) (l : List Nat) :
    SkipOk can (this :: l) (registrant cfg can this l).1 := by
  unfold registrant
  split
  · rename_i hoff
    exact (skipOk_find? can l).prepend fun x hx => by rw [mem_singleton.mp hx]; exact hoff.1
  · exact ⟨[], l, rfl, nofun⟩

theorem registerFrom_spec (h : s.tree.Inv) (hc : Chain s.tree.up this l) :
    ∃ m, registerFrom cfg s this = some ((registrant cfg s.tree.can this l).1, (registrant cfg s.tree.can this l).2,
        s.tree.setMaybe this m) ∧
      (s.tree.setMaybe this m).Inv := by
  unfold registerFrom registrant
  split
  · obtain ⟨m, he, hm⟩ := h.next hc
    exact ⟨m, by rw [he], hm⟩
  · exact ⟨s.tree.maybe this, by rw [ExecTree.setMaybe_self], by rwa [ExecTree.setMaybe_self]⟩

section Loop

variable {files : FileName → Prop} {this proc a x : Nat} {lt l1 l : List Nat}

/-- A shortcutable process at or above `this` is one the loop goes to. -/
theorem mem_targets (hc : Chain up this lt)
    (hl : this :: lt = l1 ++ proc :: l) (hoff : ∀ a ∈ l1, can a = false) (ha : AtOrAbove up this a)
    (hon : can a = true) : a ∈ proc :: l.filter can := by
  obtain ⟨l', hc', hm⟩ := ha
  rw [hc'.unique hc, hl] at hm
  rcases mem_append.mp hm with hm | hm
  · rw [hoff a hm] at hon
    cases hon
  rcases mem_cons.mp hm with rfl | hm
  · exact mem_cons_self
  · exact mem_cons_of_mem _ (mem_filter.mpr ⟨hm, hon⟩)

theorem targets_above (hc : Chain up this lt)
    (hl : this :: lt = l1 ++ proc :: l) (ha : a ∈ proc :: l.filter can) : AtOrAbove up this a := by
  refine ⟨lt, hc, ?_⟩
  rw [hl]
  refine mem_append_right _ ?_
  rcases mem_cons.mp ha with rfl | ha
  · exact mem_cons_self
  · exact mem_cons_of_mem _ (mem_filter.mp ha).1

theorem targets_pairwise (hc : Chain up proc l) :
    (proc :: l.filter can).Pairwise fun a b => can b = true ∧ ∃ la, Chain up a la ∧ b ∈ la := by
  have h := hc.pairwise
  obtain ⟨h1, h2⟩ := pairwise_cons.mp h
  refine pairwise_cons.mpr ⟨fun b hb => ⟨(mem_filter.mp hb).2, h1 b (mem_filter.mp hb).1⟩, ?_⟩
  refine (h2.filter can).imp_of_mem fun {a b} _ hb hab => ⟨(mem_filter.mp hb).2, hab⟩

theorem targets_nodup (hc : Chain up proc l) : (proc :: l.filter can).Nodup := by
  obtain ⟨h1, h2⟩ := nodup_cons.mp hc.nodup
  exact nodup_cons.mpr ⟨fun h => h1 (mem_filter.mp h).1, h2.filter can⟩

/-- The loop without its end: usages of processes at or above `this` are renewed. -/
theorem Walked.usage (hc : Chain s.tree.up this lt) (hl : this :: lt = l1 ++ proc :: l)
    (hg : d.generation = s.generation name)
    (hw : Walked name s s' e
      (walk quick w d (proc :: l.filter s.tree.can) propagated none fun q => s.fileUsages q name).2)
    (q : Nat) (f : FileName) : s'.fileUsages q f = s.fileUsages q f ∨
      (f = name ∧ AtOrAbove s.tree.up this q) ∧ Renewed (s.generation f) (s.fileUsages q f) (s'.fileUsages q f) := by
  rw [hw.fileUsages]
  by_cases hf : f = name
  · rw [if_pos hf, hf]
    rcases @walk_renews quick w d (proc :: l.filter s.tree.can) propagated none (fun q => s.fileUsages q name)
      (targets_nodup (hc.of_cons_append hl)) (fun _ _ => nofun) q with h | ⟨hq, h⟩
    · exact .inl h
    · exact .inr ⟨⟨rfl, targets_above hc hl hq⟩, hg ▸ h⟩
  · rw [if_neg hf]
    exact .inl rfl

/-- What is left above the place where the loop stopped is above the process it started at. -/
theorem left_mem
    (hqs : proc :: l.filter can = below ++ q :: above) (hx : x ∈ above) : x ∈ l := by
  have hfilter : x ∈ l.filter can := by
    cases below with
    | nil =>
      cases hqs
      exact hx
    | cons b below =>
      rw [(List.cons.inj hqs).2]
      exact mem_append_right _ (mem_cons_of_mem _ hx)
  exact (mem_filter.mp hfilter).1

theorem mem_above_this (hl : this :: lt = l1 ++ proc :: l) (hx : x ∈ l) : x ∈ lt := by
  cases l1 with
  | nil =>
    cases hl
    exact hx
  | cons b l1 =>
    cases hl
    exact mem_append_right _ (mem_cons_of_mem _ hx)

theorem atOrAbove_of_mem (hc : Chain up c lc) (ha : a ∈ lc) :
    AtOrAbove up c a := ⟨lc, hc, mem_cons_of_mem _ ha⟩

/-- The loop and its end, up to the point where the registration is over or starts again at
    an ancestor. -/
theorem loop_registered (h : s.tree.Inv) (hex : s.ExistsUp) (hg : d.generation = s.generation name)
    (hc : Chain s.tree.up this lt) (hl : this :: lt = l1 ++ proc :: l) (hoff : ∀ a ∈ l1, s.tree.can a = false)
    (huse : (this, name) ∈ s.uses) :
    ∃ e s', registerLoop quick w name d (s.tree.size + 1) s proc propagated none = some (e, s') ∧
      (e = .failed → ∃ t, s'.tree.disableShortcuttingBubbleUp this
          "Could not register unsupported file usage combination" = some t ∧
        Registered files this s { s' with tree := t } ∧ ({ s' with tree := t } : Supervisor).Reached this name) ∧
      (e ≠ .failed → Registered files this s s' ∧ s'.Reached this name) ∧
      ∀ q, e = .stale (some q) → q ∈ lt := by
  have hcp := hc.of_cons_append hl
  have hlen : (l.filter s.tree.can).length < s.tree.size + 1 :=
    Nat.lt_succ_of_le (Nat.le_trans (length_filter_le _ _) (h.length_le hcp))
  obtain ⟨s', hrun, hw⟩ := @registerLoop_eq quick w name d s propagated none _ proc l h hcp hlen _ rfl
  have husage := hw.usage hc hl hg
  have hreach := @walk_reaches quick w d (proc :: l.filter s.tree.can) propagated none
    (fun q => s.fileUsages q name) (targets_nodup hcp)
    ((targets_pairwise hcp).imp fun {a b} hab hs => by
      obtain ⟨hb, la, hca, hm⟩ := hab
      exact hex a name la b hca hm hb hs)
  have hstale : ∀ q above, (walk quick w d (proc :: l.filter s.tree.can) propagated none
      fun q => s.fileUsages q name).1 = .stale q above → ∃ below, proc :: l.filter s.tree.can = below ++ q :: above :=
    fun _ _ => walk_stale
  generalize (walk quick w d (proc :: l.filter s.tree.can) propagated none fun q => s.fileUsages q name) = r
    at hrun hw hreach hstale
  have hnew : ∀ q f, s'.fileUsages q f = s.fileUsages q f ∨ (∃ c, (c, f) ∈ s.uses ∧ AtOrAbove s.tree.up c q) ∧
      Renewed (s.generation f) (s.fileUsages q f) (s'.fileUsages q f) := by
    intro q f
    rcases husage q f with e | ⟨⟨hf, hq⟩, hr⟩
    · exact .inl e
    · exact .inr ⟨⟨this, hf ▸ huse, hq⟩, hr⟩
  -- a process with a usage only since this loop is at or above `this`
  have hfresh : ∀ c f, (s'.fileUsages c f).isSome = true → (s.fileUsages c f).isSome = true ∨
      f = name ∧ AtOrAbove s.tree.up this c := by
    intro c f hs
    rcases husage c f with e | ⟨hcf, _⟩
    · exact .inl (e ▸ hs)
    · exact .inr hcf
  have hkeep : ∀ q f, (s.fileUsages q f).isSome = true → (s'.fileUsages q f).isSome = true := by
    intro q f hs
    rcases husage q f with e | ⟨_, ⟨u, e, _⟩, _⟩
    · rwa [e]
    · rw [e]
      rfl
  refine ⟨r.1.loopEnd, s', hrun, fun he => ?_, fun he => ?_, fun q hq => ?_⟩
  · obtain ⟨t, ht, hb⟩ := hw.inv.bubbleUp (hw.up ▸ hc) (append_nil (this :: lt)).symm (rfl : none = [].head?)
      "Could not register unsupported file usage combination"
    have hfailed : r.1 = .failed := by
      cases hr : r.1 with
      | failed => rfl
      | done | stale _ _ => rw [hr] at he; cases he
    have hcan : s'.tree.can = s.tree.can := by
      rw [hw.can, hfailed]
      exact cleared_nil _
    have hup : t.up = s.tree.up := hb.up.trans hw.up
    have hdis : ∀ a, AtOrAbove s.tree.up this a → t.can a = false := by
      rintro a ⟨l', hc', ha⟩
      rw [hb.can]
      exact cleared_of_mem (hc'.unique hc ▸ ha)
    have honly : ∀ {q}, t.can q = true → s.tree.can q = true := by
      intro q hq
      rw [hb.can, hcan] at hq
      exact cleared_le hq
    have hout : ∀ q, ¬AtOrAbove s.tree.up this q → t.can q = s.tree.can q := by
      intro q hq
      rw [hb.can, hcan]
      exact cleared_of_not_mem fun hm => hq ⟨lt, hc, hm⟩
    refine ⟨t, ht, ⟨hb.inv hw.inv, hb.size.trans hw.size, hup, honly, hout, hw.jobserverFifo, hw.generation, hw.writeOfds,
      fun x hx => hw.uses ▸ hx, fun c f hcf => .inl (hw.uses ▸ hcf), hw.uses ▸ hnew, ?_⟩, ?_⟩
    · intro c f lc a hcc ha hcan' hs
      rw [hup] at hcc
      rcases hfresh c f hs with hs | ⟨_, hthis⟩
      · exact hkeep a f (hex c f lc a hcc ha (honly hcan') hs)
      · rw [hdis a (hthis.trans (atOrAbove_of_mem hcc ha))] at hcan'
        cases hcan'
    · intro a ha hcan'
      rw [hdis a (hup ▸ ha)] at hcan'
      cases hcan'
  · have hnot : r.1 ≠ .failed := fun hr => he (by rw [hr]; rfl)
    have honly : ∀ {q}, s'.tree.can q = true → s.tree.can q = true := fun hq => cleared_le (hw.can ▸ hq)
    have hall : s'.Reached this name := by
      intro a ha hcan'
      rw [hw.fileUsages, if_pos rfl]
      exact hreach hnot (mem_targets hc hl hoff (hw.up ▸ ha) (honly hcan'))
    have hout : ∀ q, ¬AtOrAbove s.tree.up this q → s'.tree.can q = s.tree.can q := by
      intro q hq
      rw [hw.can]
      refine cleared_of_not_mem fun hm => ?_
      cases hr : r.1 with
      | done | failed => rw [hr] at hm; exact absurd hm not_mem_nil
      | stale p above =>
        rw [hr] at hm
        obtain rfl := mem_singleton.mp hm
        obtain ⟨below, hqs⟩ := hstale q above hr
        refine hq (targets_above hc hl (?_ : q ∈ proc :: l.filter s.tree.can))
        rw [hqs]
        exact mem_append_right _ mem_cons_self
    refine ⟨⟨hw.inv, hw.size, hw.up, honly, hout, hw.jobserverFifo, hw.generation, hw.writeOfds, fun x hx => hw.uses ▸ hx,
      fun c f hcf => .inl (hw.uses ▸ hcf), hw.uses ▸ hnew, ?_⟩, hall⟩
    intro c f lc a hcc ha hcan' hs
    rcases hfresh c f hs with hs | ⟨hf, hthis⟩
    · exact hkeep a f (hex c f lc a (hw.up ▸ hcc) ha (honly hcan') hs)
    · rw [hf]
      exact hall a (hw.up ▸ hthis.trans (hw.up ▸ atOrAbove_of_mem hcc ha)) hcan'
  · cases hr : r.1 with
    | done | failed => rw [hr] at hq; cases hq
    | stale p above =>
      rw [hr] at hq
      obtain ⟨below, hqs⟩ := hstale p above hr
      exact mem_above_this hl (left_mem hqs (mem_of_mem_head? (LoopEnd.stale.inj hq)))

end Loop

section Register

variable {files : FileName → Prop} {parents : Supervisor → Nat → Option Supervisor} {this : Nat}

/-- Entering the function: the call is noted, and a pointer may be brought up to date. -/
theorem Registered.enter (hf : files name)
    (h : Registered files this { s with uses := (this, name) :: s.uses, tree := s.tree.setMaybe this m } s')
    (hr : s'.Reached this name) (hc : ∃ l, Chain s.tree.up this l) : Registered files this s s' := by
  have hup : s'.tree.up = s.tree.up := h.up.trans setMaybe_up
  have hself : AtOrAbove s.tree.up this this := by
    obtain ⟨l, hc⟩ := hc
    exact ⟨l, hc, mem_cons_self⟩
  refine ⟨h.inv, h.size, hup, fun hq => by simpa using h.can hq,
    fun q hq => by simpa using h.canOutside q (by simpa using hq), h.jobserverFifo, h.generation, h.writeOfds,
    fun x hx => h.uses x (mem_cons_of_mem _ hx), fun c f hcf => ?_, fun q f => ?_, h.existsUp⟩
  · rcases h.mine c f hcf with hcf | ⟨hc, hf, hr⟩
    · rcases mem_cons.mp hcf with hcf | hcf
      · cases hcf
        exact .inr ⟨hself, hf, hr⟩
      · exact .inl hcf
    · exact .inr ⟨by simpa using hc, hf, hr⟩
  · simpa using h.usage q f

/-- A registration ends, and does what `Registered` says, if registering at the parent
    directory does. -/
theorem register_registered (hf : files name)
    (hp : ∀ s proc, s.tree.Inv → s.ExistsUp → ∃ s', parents s proc = some s' ∧ Registered files proc s s')
    (h : s.tree.Inv) (hex : s.ExistsUp) (hg : d.generation = s.generation name)
    (hc : Chain s.tree.up this lt) (hn : lt.length < n) :
    ∃ b s', register quick cfg w name d parents n s this = some (b, s') ∧ Registered files this s s' := by
  induction n generalizing s this lt with
  | zero => omega
  | succ n ih =>
    rw [register]
    split
    · exact ⟨true, s, rfl, .refl h hex⟩
    obtain ⟨m, hfrom, hm⟩ := @registerFrom_spec cfg { s with uses := (this, name) :: s.uses } this lt h hc
    have hskip := registrant_skips cfg s.tree.can this lt
    rw [hfrom]
    generalize registrant cfg s.tree.can this lt = r at hskip
    obtain ⟨start, propagated⟩ := r
    obtain ⟨s1, hs1⟩ : ∃ s1 : Supervisor, s1 =
      { s with uses := (this, name) :: s.uses, tree := s.tree.setMaybe this m } := ⟨_, rfl⟩
    have hup1 : s1.tree.up = s.tree.up := by rw [hs1]; exact setMaybe_up
    have hcan1 : s1.tree.can = s.tree.can := by rw [hs1]; exact setMaybe_can
    have hex1 : s1.ExistsUp := by
      intro c f l a hcc ha hcan hs
      rw [hs1] at hs ⊢
      exact hex c f l a (hup1 ▸ hcc) ha (hcan1 ▸ hcan) hs
    cases start with
    | none =>
      refine ⟨true, s1, by rw [hs1], .enter hf (m := m) (hs1 ▸ .refl (hs1 ▸ hm) hex1) ?_ ⟨lt, hc⟩⟩
      rintro a ⟨l, hc', ha⟩ hcan
      rw [hup1] at hc'
      rw [hcan1, hskip a (hc'.unique hc ▸ ha)] at hcan
      cases hcan
    | some proc =>
      obtain ⟨l1, l, hl, hoff⟩ := hskip
      obtain ⟨s2, hpar, hreg⟩ := hp s1 proc (by rw [hs1]; exact hm) hex1
      have habove : AtOrAbove s1.tree.up this proc :=
        ⟨lt, hup1 ▸ hc, hl ▸ mem_append_right _ mem_cons_self⟩
      have hself : AtOrAbove s1.tree.up this this := ⟨lt, hup1 ▸ hc, mem_cons_self⟩
      have hreg1 : Registered files this s1 s2 := (Registered.refl (by rw [hs1]; exact hm) hex1).trans hreg habove
      have hup2 : s2.tree.up = s.tree.up := hreg.up.trans hup1
      have hg2 : d.generation = s2.generation name := by rw [hreg.generation, hg, hs1]
      have huse : (this, name) ∈ s2.uses := hreg.uses _ (by rw [hs1]; exact mem_cons_self)
      have hoff2 : ∀ a ∈ l1, s2.tree.can a = false := by
        intro a ha
        by_contra hon
        have := hreg.can (by simpa using hon)
        rw [hcan1, hoff a ha] at this
        cases this
      obtain ⟨e, s3, hloop, hfail, hgo, hnext⟩ := @loop_registered quick w name d s2 propagated files this proc lt
        l1 l hreg.inv hreg.existsUp hg2 (hup2 ▸ hc) hl hoff2 huse
      have hfin : ∀ {s' : Supervisor}, Registered files this s2 s' → s'.Reached this name →
          Registered files this s s' := fun h' hr =>
        .enter hf (hs1 ▸ hreg1.trans h' hself) hr ⟨lt, hc⟩
      simp only [← hs1, hpar, hloop]
      cases e with
      | failed =>
        obtain ⟨t, ht, h', hr⟩ := hfail rfl
        exact ⟨false, { s3 with tree := t }, by simp only [ht], hfin h' hr⟩
      | done =>
        obtain ⟨h', hr⟩ := hgo nofun
        exact ⟨true, s3, rfl, hfin h' hr⟩
      | stale next =>
        obtain ⟨h', hr⟩ := hgo nofun
        cases next with
        | none => exact ⟨true, s3, rfl, hfin h' hr⟩
        | some q =>
          have hq := hnext q rfl
          obtain ⟨lq1, lq, hlt, hcq⟩ := hc.of_mem hq
          have hup3 : s3.tree.up = s.tree.up := h'.up.trans hup2
          obtain ⟨b, s', hrun, hre⟩ := @ih s3 q lq h'.inv h'.existsUp (by rw [h'.generation, hg2])
            (hup3 ▸ hcq) (by rw [hlt] at hn; simp at hn; omega)
          have hq' : AtOrAbove s2.tree.up this q := hup2 ▸ atOrAbove_of_mem hc hq
          exact ⟨b, s', hrun, hfin (h'.trans hre hq') (hre.reached hr)⟩

/-- The paths a registration is about: the file, and its parent directory if something is
    implied about that. -/
def Files (name : FileName) (d : FileUsageUpdate) (f : FileName) : Prop :=
  f = name ∨ d.parentType ≠ .dontKnow ∧ name.parentDir = some f

theorem registerPlain_registered (hf : files name) (h : s.tree.Inv) (hex : s.ExistsUp)
    (hg : d.generation = s.generation name) :
    ∃ b s', registerPlain quick cfg w s this name d = some (b, s') ∧ Registered files this s s' := by
  obtain ⟨l, hc⟩ := h.chain this
  exact register_registered hf (fun s proc hi hx => ⟨s, rfl, .refl hi hx⟩) h hex hg hc
    (Nat.lt_succ_of_le (h.length_le hc))

theorem registerParents_registered (h : s.tree.Inv) (hex : s.ExistsUp) :
    ∃ s', registerParents quick cfg w name d s this = some s' ∧ Registered (Files name d) this s s' := by
  unfold registerParents
  split
  · rename_i ht
    unfold registerParentDirectory
    cases hd : name.parentDir with
    | none => exact ⟨s, rfl, .refl h hex⟩
    | some dir =>
      cases dir with
      | nil => exact ⟨s, rfl, .refl h hex⟩
      | cons a as =>
        obtain ⟨b, s', hr, hreg⟩ := @registerPlain_registered quick cfg w (a :: as)
          (.new (s.world w) (a :: as) d.parentType false false) s (Files name d) this (.inr ⟨ht, hd⟩) h hex rfl
        exact ⟨s', by simp only [hr, Option.map_some], hreg⟩
  · exact ⟨s, rfl, .refl h hex⟩

theorem registerFileUsageUpdate_registered (h : s.tree.Inv) (hex : s.ExistsUp) (hg : d.generation = s.generation name) :
    ∃ b s', registerFileUsageUpdate quick cfg w s this name d = some (b, s') ∧
      Registered (Files name d) this s s' := by
  obtain ⟨l, hc⟩ := h.chain this
  exact register_registered (.inl rfl) (fun s proc => registerParents_registered) h hex hg hc
    (Nat.lt_succ_of_le (h.length_le hc))

end Register

end Firebuild
