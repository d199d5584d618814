/-
  Firebuild.Reachable — what holds of the processes in every state that is reached.

  Results: `Reach.footing`, `Reach.known` and `Reach.chronicled` for every order of events,
  `Reach.timely` and `finalized_in_order` for every order in which no child comes below a process
  that is finalized (`Event.Prompt`).

  `late_child` is a run in which a child does come late, and `expected_child_left` one in which
  a process is finalized although it still expects a child.
-/

import Firebuild.TreeMoves

namespace Firebuild

namespace Lives

variable {s s' : Lives} {w w' : Option Nat} {late : Prop} {p c : Nat}

theorem Move.grows (h : Move late w s w' s') : s.size ≤ s'.size ∧ s.log <:+ s'.log := by
  cases h with
  | terminate p _ _ _ => exact ⟨le_rfl, List.suffix_cons _ _⟩
  | finalize p stored _ _ _ _ _ =>
    exact ⟨le_rfl, (List.suffix_append _ _).trans (List.suffix_cons _ _)⟩
  | forked parent _ _ | execed parent _ _ _ | adopt parent k n x _ _ _ _ _ => exact ⟨Nat.le_succ _, List.suffix_refl _⟩
  | _ => exact ⟨le_rfl, List.suffix_refl _⟩

theorem Moves.grows (h : Moves late w s w' s') : s.size ≤ s'.size ∧ s.log <:+ s'.log := by
  induction h with
  | refl => exact ⟨le_rfl, List.suffix_refl _⟩
  | tail _ hm ih => exact ⟨ih.1.trans hm.grows.1, ih.2.trans hm.grows.2⟩

/-- The state `FINALIZED` is never left. -/
theorem Moves.finalized (h : Moves late w s w' s') (hc : Chronicled s) (hp : p < s.size)
    (hf : (s.life p).state = .finalized) : (s'.life p).state = .finalized := by
  obtain ⟨hsize, hlog⟩ := h.grows
  have hmem : .finalized p ∈ s.log := (hc.finalized_iff p hp).mpr hf
  exact ((h.chronicled hc).finalized_iff p (hp.trans_le hsize)).mp (hlog.subset hmem)

/-- Below a process, only the last one awaited of an exec chain can be exempt. -/
theorem Awaits.not_exempt (h : Awaits s p c) (hs : Shape s) (hp : p < s.size) : c < s.size ∧ ¬Exempt s c := by
  rcases h with hc | ⟨hc, hnot⟩
  · obtain ⟨hcs, hcp, hce⟩ := hs.forkChild p c hp hc
    obtain ⟨h0, -, hd⟩ := hs.parent_lt hcs hcp
    exact ⟨hcs, fun hx => h0 ((hd.forked hce).1.symm.trans hx.1)⟩
  obtain ⟨hcs, hcp, hce⟩ := hs.execChild p c hp hc
  obtain ⟨-, -, hd⟩ := hs.parent_lt hcs hcp
  exact ⟨hcs, fun hx => hnot ⟨(hd.execed hce).1.symm.trans hx.1, hx.2⟩⟩

theorem Awaits.child (h : Awaits s p c) : Child s p c := h.imp_right And.left

/-- A stored process was stored after everything below it was finalized. -/
theorem Timely.subtree (status : Int) (h : Timely s) (hs : Shape s) (hp : p < s.size)
    (hpc : Relation.TransGen (Awaits s) p c) :
    c < s.size ∧ ¬Exempt s c ∧ Lib.Chronicle.Before s.log (.finalized c) (.stored p status) := by
  induction hpc with
  | single hpc =>
    obtain ⟨hcs, hnot⟩ := hpc.not_exempt hs hp
    exact ⟨hcs, hnot, h.storedAfter p _ status hp hpc⟩
  | tail _ hbc ih =>
    obtain ⟨hbs, hb, hbefore⟩ := ih
    obtain ⟨hcs, hc⟩ := hbc.not_exempt hs hbs
    exact ⟨hcs, hc, ((h.childrenFirst _ _ hbs hbc.child).resolve_left hb).trans hbefore⟩

end Lives

namespace ProcessTree

open Population (Options)
open Lives (Footing Chronicled Timely Exempt Child Awaits)
open Lib.Chronicle

variable {s s' : ProcessTree} {o : Options} {P : ProcessTree → Event → Prop} {p : Nat}

/-! ## The first state -/

theorem init_footing (o : Options) : Footing none (init o).toLives := by
  refine ⟨⟨ExecTree.empty_inv, Nat.one_pos, rfl, fun p h0 hp => ?_, nofun, nofun, nofun⟩, nofun, nofun, nofun, nofun⟩
  have : p < 1 := hp
  omega

theorem init_known (o : Options) : Known (init o) := by
  refine ⟨fun k p hp => ?_, nofun, nofun, nofun⟩
  have hp : (if k = o.childPid then some 0 else none) = some p := hp
  split at hp
  · next hk =>
    cases hp
    exact ⟨Nat.one_pos, hk.symm⟩
  · cases hp

theorem init_chronicled (o : Options) : Chronicled (init o).toLives := by
  have hlog : (init o).log = [.terminated 0] := rfl
  refine ⟨fun p hp => ?_, fun p hp => ?_, fun p hp => ?_, fun p e he => ?_, fun p => Nat.zero_le _, fun p => ?_⟩
  · obtain rfl : p = 0 := Nat.lt_one_iff.mp hp
    exact ⟨fun _ => nofun, fun _ => List.mem_singleton.mpr rfl⟩
  · exact ⟨fun he => (by rw [hlog] at he; simp at he), nofun⟩
  · have hp : 1 ≤ p := hp
    rw [hlog]
    simp
    omega
  · rw [hlog] at he
    simp at he
  · exact before_of_not_mem (by rw [hlog]; simp)

theorem init_timely (o : Options) : Timely (init o).toLives :=
  ⟨nofun, nofun, nofun, fun _ _ _ hc => absurd hc (by simp [Child, init]), fun _ _ _ _ hc => absurd hc (by simp [Awaits, init])⟩

/-! ## Runs -/

namespace Reach

section

variable (h : Reach o P s)
include h

theorem footing_known : Footing none s.toLives ∧ Known s := by
  induction h with
  | init => exact ⟨init_footing o, init_known o⟩
  | step _ _ he ih =>
    have hstep : Ticks _ none _ none _ := step_ticks ih.1 ih.2 (.inl trivial) he
    exact ⟨hstep.footing ih.1, hstep.known ih.2⟩

theorem footing : Footing none s.toLives := h.footing_known.1

theorem known : Known s := h.footing_known.2

theorem ticks (he : s.step o e = some s') : Ticks (e.scope True s) none s none s' :=
  step_ticks h.footing h.known (.inl trivial) he

theorem chronicled : Chronicled s.toLives := by
  induction h with
  | init => exact init_chronicled o
  | step h _ he ih => exact (h.ticks he).moves.chronicled ih

end

theorem timely (h : Reach o Event.Prompt s) : Timely s.toLives := by
  induction h with
  | init => exact init_timely o
  | step h hp he ih => exact (step_ticks h.footing h.known (.inr hp) he).moves.timely ih h.footing h.chronicled

instance (s : ProcessTree) (e : Event) : Decidable (e.Prompt s) :=
  inferInstanceAs (Decidable (∀ p ∈ e.lookedUp s, (s.life p).state ≠ .finalized))

/-- Events that meet the condition as they come. -/
def runWhile (o : Options) (P : ProcessTree → Event → Prop) [∀ s e, Decidable (P s e)] :
    List Event → ProcessTree → Option ProcessTree
  | [], s => some s
  | e :: es, s => if P s e then (s.step o e).bind (runWhile o P es) else none

variable {es : List Event}

theorem of_runWhile [∀ s e, Decidable (P s e)] (h : Reach o P s) (he : runWhile o P es s = some s') : Reach o P s' := by
  induction es generalizing s with
  | nil =>
    cases he
    exact h
  | cons e es ih =>
    rw [runWhile] at he
    split at he
    · next hP =>
      obtain ⟨s1, h1, he⟩ := Option.bind_eq_some_iff.mp he
      exact ih (.step h hP h1) he
    · cases he

theorem of_run (h : Reach o P s) (hP : ∀ s, ∀ e ∈ es, P s e) (he : run o es s = some s') : Reach o P s' := by
  induction es generalizing s with
  | nil =>
    cases he
    exact h
  | cons e es ih =>
    obtain ⟨s1, h1, he⟩ := Option.bind_eq_some_iff.mp he
    exact ih (.step h (hP s e List.mem_cons_self) h1) (fun s e' he' => hP s e' (List.mem_cons_of_mem e he')) he

end Reach

/-! ## The order of finalization -/

theorem finalized_in_order (h : Reach o Event.Prompt s) :
    (∀ p, p < s.size → (s.life p).state = .finalized →
      .terminated p ∈ s.log ∧ Before s.log (.terminated p) (.finalized p) ∧
      (Exempt s.toLives p ∨ (s.pending p = false ∧ ∀ c, Child s.toLives p c →
        (s.life c).state = .finalized ∧ Before s.log (.finalized c) (.finalized p))) ∧
      ∀ c ∈ (s.life p).forkChildren, (s.life c).state = .finalized ∨ (Exempt s.toLives p ∧
        ((s.life c).orphan = true ∨ ((s.life c).state ≠ .running ∧ (s.life c).hasOrphanDescendant = true)))) ∧
    (∀ e s' p, s.step o e = some s' → p < s.size → (s.life p).state = .finalized → (s'.life p).state = .finalized) ∧
    ∀ p, s.log.countP (·.isStoreOf p) ≤ 1 ∧ ∀ status, .stored p status ∈ s.log → status ≠ -1 ∧
      ∀ c, Relation.TransGen (Awaits s.toLives) p c → (s.life c).state = .finalized ∧
        Before s.log (.finalized c) (.stored p status) := by
  have hshape := h.footing.shape
  have hlog := h.chronicled
  have htimely := h.timely
  refine ⟨fun p hp hf => ⟨?_, hlog.terminatedFirst p, ?_, fun c => htimely.forkChildren p c hp hf⟩,
    fun e s' p he hp hf => (h.ticks he).moves.finalized hlog hp hf, fun p => ⟨hlog.once p, fun status hst => ?_⟩⟩
  · exact (hlog.terminated_iff p hp).mpr (by rw [hf]; nofun)
  · by_cases hx : Exempt s.toLives p
    · exact .inl hx
    refine .inr ⟨(htimely.pending p hp hf).resolve_left hx, fun c hc => ?_⟩
    refine ⟨?_, (htimely.childrenFirst p c hp hc).resolve_left hx⟩
    rcases hc with hc | hc
    · exact (htimely.forkChildren p c hp hf hc).resolve_right fun hleft => hx hleft.1
    · exact (htimely.execChild p c hp hf hc).resolve_right fun hleft => hx hleft.1
  · obtain ⟨hfin, hne⟩ := hlog.stored p status hst
    refine ⟨hne, fun c hpc => ?_⟩
    have hp : p < s.size := by
      by_contra hp
      exact (hlog.known p (Nat.le_of_not_lt hp)).2 hfin
    obtain ⟨hc, -, hbefore⟩ := htimely.subtree status hshape hp hpc
    exact ⟨(hlog.finalized_iff c hc).mp (hbefore.mem hst), hbefore⟩

/-! ## Runs of a small build -/

/-- Pids and connections of a build: 10 is the first process, on connection 0. -/
def smallBuild : Options := { supervisor := 1, childPid := 10 }

def forkAndWait : List Event :=
  [.connect 0, .scprocQuery 0 10 1 true false {}, .message 0 1 .forkParent, .connect 1, .forkChild 1 11 10 2, .hangUp 1,
    .message 0 3 (.wait 11 (some 0)), .hangUp 0, .sigchild 10 (some 0)]

theorem forkAndWait_in_order : ∃ s, Reach.runWhile smallBuild Event.Prompt forkAndWait (init smallBuild) = some s ∧
    (s.life 1).state = .finalized ∧ (s.life 2).state = .finalized ∧ Before s.log (.finalized 2) (.stored 1 0) := by
  have hs : Reach.runWhile smallBuild Event.Prompt forkAndWait (init smallBuild) = some _ := rfl
  obtain ⟨-, -, hstore⟩ := finalized_in_order (.of_runWhile .init hs)
  obtain ⟨-, hbelow⟩ := (hstore 1).2 0 (List.contains_iff_mem.mp rfl)
  exact ⟨_, hs, rfl, hbelow 2 (.single (.inl (List.mem_singleton.mpr rfl)))⟩

/-- The first process calls system(), and it exits before the child signs in. -/
def exitInSystem : List Event :=
  [.connect 0, .scprocQuery 0 10 1 true false {}, .message 0 1 .system, .hangUp 0, .sigchild 10 (some 0)]

/-- It is finalized, and stored, with a child still expected. -/
theorem expected_child_left : ((run smallBuild exitInSystem (init smallBuild)).map fun s =>
    ((s.life 1).state, (s.proc 1).expectedChild.isSome, s.log.contains (.stored 1 0))) =
      some (.finalized, true, true) := rfl

/-- When the child comes after all, it runs below a process that is finalized. -/
theorem late_child : ((run smallBuild (exitInSystem ++ [.connect 1, .scprocQuery 1 11 10 true false {}])
    (init smallBuild)).map fun s => ((s.life 1).state, (s.life 1).forkChildren, (s.life 2).execChild, (s.life 3).state)) =
      some (.finalized, [2], some 3, .running) := rfl

end ProcessTree
end Firebuild
