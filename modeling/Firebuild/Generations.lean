/-
  Firebuild.Generations — parallel changes of a file (`execed_process.cc`: the generation
  check of `register_file_usage_update`; `file_name.cc`: `open_for_writing`;
  `execed_process_cacher.cc`: the generation check of `store`).

  A process P and a file f are fixed, and a run is followed through four phases: P's subtree
  has not used f yet; it has; then a process outside the subtree started a new generation of
  f; then P's subtree used f again, so that its knowledge mixes two states of f. `store()`
  refuses P if one of its usages is not of the file's current generation.

  The check lets a generation pass that is the recorded one or the next one, whoever started
  it. So the change of a parallel process is noticed, except when it is exactly the next
  generation.

  Proved: `mixed_knowledge_is_not_stored`; `one_parallel_generation_goes_unnoticed`.
-/

import Firebuild.Supervision

namespace Firebuild

open Lib.Forest

def ExecTree.below (t : ExecTree) (p c : Nat) : Bool := decide (p ∈ c :: ancestors t.up t.size c)

theorem ExecTree.Inv.below_iff {t : ExecTree} (h : t.Inv) : t.below p c = true ↔ AtOrAbove t.up c p := by
  obtain ⟨l, hc⟩ := h.chain c
  rw [ExecTree.below, hc.ancestors_eq (h.length_le hc), decide_eq_true_iff]
  refine ⟨fun hm => ⟨l, hc, hm⟩, fun hp => ?_⟩
  obtain ⟨l', hc', hm⟩ := hp
  rwa [hc.unique hc']

inductive Phase where
  | unused
  | used
  /-- A process outside the subtree has started a generation since. -/
  | foreign
  /-- And the subtree has used the file again. -/
  | mixed
  deriving DecidableEq, Repr

def Phase.use : Phase → Phase
  | unused | used => used
  | foreign | mixed => mixed

def Phase.change : Phase → Phase
  | used => foreign
  | ph => ph

def usedBy (s : Supervisor) (p : Nat) (f : FileName) : Bool :=
  s.uses.any fun x => decide (x.2 = f) && s.tree.below p x.1

/-- Does the event start a generation of `f` outside the subtree of `p`? -/
def changesOutside (cfg : Config) (s : Supervisor) (p : Nat) (f : FileName) : Event → Bool
  | .openForWriting _ proc name => decide (name = f) && Starts cfg s f && !s.tree.below p proc
  | _ => false

def Phase.next (cfg : Config) (p : Nat) (f : FileName) (s : Supervisor) (e : Event) (s' : Supervisor) (ph : Phase) :
    Phase :=
  if usedBy s' p f then ph.use else if changesOutside cfg s p f e then ph.change else ph

/-- The runs in which every event is one `ok` lets pass. -/
inductive Run (cfg : Config) (p : Nat) (f : FileName) (ok : Supervisor → Phase → Event → Prop) :
    Supervisor → Phase → Prop
  | init : Run cfg p f ok .init .unused
  | step {s s' : Supervisor} {ph : Phase} (e : Event) : Run cfg p f ok s ph → Allowed s e → ok s ph e →
      step true cfg s e = some s' → Run cfg p f ok s' (ph.next cfg p f s e s')

/-- "A file changed since the process used it." -/
def StoreRefuses (s : Supervisor) (p : Nat) : Prop :=
  ∃ f u, s.fileUsages p f = some u ∧ u.generation ≠ s.generation f

/-- After a parallel change, a use of the file from P's subtree does not find exactly the
    generation after the one P has recorded. -/
def NotJustTheNext (p : Nat) (f : FileName) (s : Supervisor) (ph : Phase) : Event → Prop
  | .registerFileUsageUpdate _ this name d => ph = .foreign → s.tree.below p this = true → Files name d f →
      ∀ u, s.fileUsages p f = some u → u.generation + 1 ≠ s.generation f
  | _ => True

/-- What is known about P's usage of f in each phase, as long as P is shortcutable. -/
def PhaseInv (p : Nat) (f : FileName) (s : Supervisor) : Phase → Prop
  | .unused => True
  | .used => p < s.tree.size ∧ (s.tree.can p = true → ∃ u, s.fileUsages p f = some u)
  | .foreign => p < s.tree.size ∧
      (s.tree.can p = true → ∃ u, s.fileUsages p f = some u ∧ u.generation + 1 ≤ s.generation f)
  | .mixed => p < s.tree.size ∧
      (s.tree.can p = true → ∃ u, s.fileUsages p f = some u ∧ u.generation + 2 ≤ s.generation f)

variable {cfg : Config} {p this : Nat} {f : FileName} {s s' : Supervisor} {ph : Phase} {e : Event}
  {files : FileName → Prop}

/-- Nothing that matters to P's usage of f happened. -/
theorem PhaseInv.keep (h : PhaseInv p f s ph) (hsize : s.tree.size ≤ s'.tree.size)
    (hcan : p < s.tree.size → s'.tree.can p = true → s.tree.can p = true)
    (hu : s'.fileUsages p f = s.fileUsages p f) (hg : s.generation f ≤ s'.generation f) : PhaseInv p f s' ph := by
  cases ph with
  | unused => trivial
  | used =>
    refine ⟨Nat.lt_of_lt_of_le h.1 hsize, fun hc => ?_⟩
    rw [hu]
    exact h.2 (hcan h.1 hc)
  | foreign | mixed =>
    refine ⟨Nat.lt_of_lt_of_le h.1 hsize, fun hc => ?_⟩
    rw [hu]
    obtain ⟨u, e, hle⟩ := h.2 (hcan h.1 hc)
    exact ⟨u, e, by omega⟩

theorem usedBy_iff (hinv : s.tree.Inv) : usedBy s p f = true ↔ ∃ c, (c, f) ∈ s.uses ∧ AtOrAbove s.tree.up c p := by
  unfold usedBy
  rw [List.any_eq_true]
  constructor
  · rintro ⟨⟨c, g⟩, hm, h⟩
    obtain ⟨hg, hb⟩ : g = f ∧ s.tree.below p c = true := by simpa using h
    exact ⟨c, hg ▸ hm, hinv.below_iff.mp hb⟩
  · rintro ⟨c, hm, h⟩
    exact ⟨(c, f), hm, by simpa using hinv.below_iff.mpr h⟩

/-- A registration not from P's subtree leaves P's usage of the file alone. -/
theorem Registered.unused (h : Registered files this s s')
    (hno : usedBy s' p f = false) : s'.fileUsages p f = s.fileUsages p f := by
  rcases h.usage p f with e | ⟨⟨c, hc, hp⟩, _⟩
  · exact e
  have := (usedBy_iff h.inv).mpr ⟨c, hc, h.up ▸ hp⟩
  rw [hno] at this
  cases this

/-- A registration from P's subtree: if P had a usage that was two generations behind, it
    still has it. -/
theorem Registered.phase_use (h : Registered files this s s')
    (hu : s.uses = []) (hthis : this < s.tree.size) (hinv : s.tree.Inv) (huse : usedBy s' p f = true)
    (hi : PhaseInv p f s ph)
    (hgap : ph = .foreign → s.tree.can p = true → ∃ u, s.fileUsages p f = some u ∧ u.generation + 2 ≤ s.generation f) :
    PhaseInv p f s' ph.use := by
  obtain ⟨c, hc, hp⟩ := (usedBy_iff h.inv).mp huse
  rw [h.up] at hp
  obtain ⟨hthis', hfile, hreach⟩ : AtOrAbove s.tree.up this c ∧ files f ∧ s'.Reached c f := by
    rcases h.mine c f hc with hm | hm
    · rw [hu] at hm
      cases hm
    · exact hm
  have hlt : p < s'.tree.size := h.size ▸ atOrAbove_lt hinv hthis (hthis'.trans hp)
  have hsome : s'.tree.can p = true → ∃ u, s'.fileUsages p f = some u := fun hcan =>
    Option.isSome_iff_exists.mp (hreach p (h.up ▸ hp) hcan)
  have hmixed : (s.tree.can p = true → ∃ u, s.fileUsages p f = some u ∧ u.generation + 2 ≤ s.generation f) →
      PhaseInv p f s' .mixed := by
    intro hold
    refine ⟨hlt, fun hcan => ?_⟩
    obtain ⟨u, hu, hle⟩ := hold (h.can hcan)
    rcases h.usage p f with e | ⟨_, _, hren⟩
    · exact ⟨u, e.trans hu, by rw [h.generation]; exact hle⟩
    · -- a renewed usage was of this generation or of the one before
      have := hren u hu
      omega
  cases ph with
  | unused | used => exact ⟨hlt, hsome⟩
  | foreign => exact hmixed (hgap rfl)
  | mixed => exact hmixed hi.2

theorem step_phase (hs : Sound s) (ha : Allowed s e) (hok : NotJustTheNext p f s ph e)
    (h : step true cfg s e = some s') (hi : PhaseInv p f s ph) : PhaseInv p f s' (ph.next cfg p f s e s') := by
  have hidle : s'.uses = [] → changesOutside cfg s p f e = false → ph.next cfg p f s e s' = ph := by
    intro hu hno
    simp [Phase.next, usedBy, hu, hno]
  cases step_effect hs ha h with
  | lowered hl hopen =>
    rw [hidle hl.uses ?_]
    · exact hi.keep (Nat.le_of_eq hl.size.symm) (fun _ => hl.can) (by rw [hl.fileUsages])
        (Nat.le_of_eq (by rw [hl.generation]))
    cases e with
    | openForWriting w proc name =>
      have hst := hopen w proc name rfl
      by_cases hn : name = f
      · simp [changesOutside, ← hn, hst]
      · simp [changesOutside, hn]
    | _ => rfl
  | placed q hq hopen =>
    rw [hidle hq.uses ?_]
    · exact hi.keep hq.size (fun hlt hc => (hq.can p hlt) ▸ hc) (by rw [hq.fileUsages])
        (Nat.le_of_eq (by rw [hq.generation]))
    cases e with
    | openForWriting w proc name => exact absurd rfl (hopen w proc name)
    | _ => rfl
  | registered hreg =>
    have hi0 : PhaseInv p f { s with uses := [] } ph := hi.keep (Nat.le_refl _) (fun _ => id) rfl (Nat.le_refl _)
    unfold Phase.next
    split
    · rename_i huse
      refine hreg.phase_use rfl ha.1 hs.inv huse hi0 fun hph hcan => ?_
      subst hph
      obtain ⟨c, hc, hp⟩ := (usedBy_iff hreg.inv).mp huse
      obtain ⟨hthis, hfile, _⟩ := (hreg.mine c f hc).resolve_left List.not_mem_nil
      obtain ⟨u, hu, hle⟩ := hi.2 hcan
      have hbelow := hs.inv.below_iff.mpr (hthis.trans (hreg.up ▸ hp))
      have hne := hok rfl hbelow hfile u hu
      exact ⟨u, hu, show u.generation + 2 ≤ s.generation f by omega⟩
    · rename_i huse
      exact hi0.keep (Nat.le_of_eq hreg.size.symm) (fun _ => hreg.can) (hreg.unused (by simpa using huse))
        (Nat.le_of_eq (by rw [hreg.generation]))
  | started hst hd hreg =>
    rename_i w proc name d
    have hgen : s.generation f ≤ (startGeneration { s with uses := [] } proc name).generation f := by
      simp only [startGeneration]
      split <;> omega
    have hi1 : PhaseInv p f (startGeneration { s with uses := [] } proc name) ph :=
      hi.keep (Nat.le_refl _) (fun _ => id) rfl hgen
    have hnext : name = f → (startGeneration { s with uses := [] } proc name).generation f = s.generation f + 1 :=
      fun hn => if_pos hn.symm
    unfold Phase.next
    split
    · rename_i huse
      refine hreg.phase_use rfl ha hs.inv huse hi1 fun hph hcan => ?_
      subst hph
      obtain ⟨c, hc, hp⟩ := (usedBy_iff hreg.inv).mp huse
      obtain ⟨_, hfile, _⟩ := (hreg.mine c f hc).resolve_left List.not_mem_nil
      have hn : name = f := by
        rcases hfile with hfile | ⟨hne, _⟩
        · exact hfile.symm
        · exact absurd hd hne
      obtain ⟨u, hu, hle⟩ := hi.2 hcan
      exact ⟨u, hu, by rw [hnext hn]; omega⟩
    · rename_i huse
      have hsame := hreg.unused (by simpa using huse)
      have hkeep : PhaseInv p f s' ph :=
        hi1.keep (Nat.le_of_eq hreg.size.symm) (fun _ => hreg.can) hsame (Nat.le_of_eq (by rw [hreg.generation]))
      split
      · rename_i hout
        have hn : name = f := by
          by_contra hne
          simp [changesOutside, hne] at hout
        cases ph with
        | used =>
          refine ⟨hkeep.1, fun hcan => ?_⟩
          obtain ⟨u, hu⟩ := hkeep.2 hcan
          have hle : u.generation ≤ s.generation f := hs.le p f u (hsame ▸ hu)
          exact ⟨u, hu, by rw [hreg.generation, hnext hn]; omega⟩
        | unused | foreign | mixed => exact hkeep
      · exact hkeep

theorem Run.sound_phase (h : Run cfg p f (NotJustTheNext p f) s ph) : Sound s ∧ PhaseInv p f s ph := by
  induction h with
  | init => exact ⟨init_sound, trivial⟩
  | step e _ ha hok hstep ih => exact ⟨step_sound ih.1 ha hstep, step_phase ih.1 ha hok hstep ih.2⟩

/-- If no use after a parallel change finds exactly the next generation, a process whose
    subtree used a file before and after a parallel change is not stored: it is not
    shortcutable, or `store()` refuses it. -/
theorem mixed_knowledge_is_not_stored (h : Run cfg p f (NotJustTheNext p f) s .mixed) :
    s.tree.can p = false ∨ StoreRefuses s p := by
  by_cases hcan : s.tree.can p = true
  · obtain ⟨u, hu, hle⟩ := h.sound_phase.2.2 hcan
    exact .inr ⟨f, u, hu, by omega⟩
  · exact .inl (by simpa using hcan)

def reading (content : Hash) : World := { World.empty with getHash := fun _ _ => .ok (.reg 1 content) }

/-- What a successful open() for reading registers, at generation `g`. -/
def readAt (g : Nat) : FileUsageUpdate :=
  { FileUsageUpdate.getFromOpenParams .empty ["f"] {} 0 none false with generation := g }

theorem readAt_wellFormed (g : Nat) : (readAt g).WellFormed :=
  ⟨fun _ => rfl, nofun, fun _ => .inl rfl⟩

/-- Process 1 reads the file before and after two generations of its sibling. -/
theorem two_parallel_generations_are_noticed :
    ∃ s, Run {} 1 ["f"] (NotJustTheNext 1 ["f"]) s .mixed ∧ (s.tree.can 1 = false ∨ StoreRefuses s 1) := by
  have h0 : Run {} 1 ["f"] (NotJustTheNext 1 ["f"]) .init .unused := .init
  have h1 := h0.step (.exec none none) (fun _ => nofun) trivial rfl
  have h2 := h1.step (.exec (some 0) none) (fun q hq => by cases hq; decide) trivial rfl
  have h3 := h2.step (.exec (some 0) none) (fun q hq => by cases hq; decide) trivial rfl
  have h4 := h3.step (.registerFileUsageUpdate (reading 10) 1 ["f"] (readAt 0)) ⟨by decide, rfl, readAt_wellFormed _⟩
    (fun h => absurd h (by decide)) rfl
  have h5 := h4.step (.openForWriting .empty 2 ["f"]) (by decide : 2 < 3) trivial rfl
  have h6 := h5.step (.closeForWriting ["f"]) trivial trivial rfl
  have h7 := h6.step (.openForWriting .empty 2 ["f"]) (by decide : 2 < 3) trivial rfl
  have h8 := h7.step (.closeForWriting ["f"]) trivial trivial rfl
  have h9 := h8.step (.registerFileUsageUpdate (reading 20) 1 ["f"] (readAt 2)) ⟨by decide, rfl, readAt_wellFormed _⟩
    (fun _ _ _ u hu => by cases hu; decide) rfl
  exact ⟨_, h9, mixed_knowledge_is_not_stored h9⟩

/-- Three processes, and process 1 has read the file. -/
def readByOne : PSigma fun s => PSigma (Run {} 1 ["f"] (fun _ _ _ => True) s) :=
  ⟨_, _, (((Run.init.step (.exec none none) (fun _ => nofun) trivial rfl).step
    (.exec (some 0) none) (fun q hq => by cases hq; decide) trivial rfl).step
    (.exec (some 0) none) (fun q hq => by cases hq; decide) trivial rfl).step
    (.registerFileUsageUpdate (reading 10) 1 ["f"] (readAt 0)) ⟨by decide, rfl, readAt_wellFormed _⟩ trivial rfl⟩

/-- With one generation of the sibling in between, process 1 stays shortcutable and is
    stored, with the hash from before the change. -/
theorem one_parallel_generation_goes_unnoticed :
    ∃ s, Run {} 1 ["f"] (fun _ _ _ => True) s .mixed ∧ s.tree.can 1 = true ∧ ¬StoreRefuses s 1 ∧
      ((readAt 1).info (reading 20)).hash = some 20 ∧
      ∃ u, s.fileUsages 1 ["f"] = some u ∧ u.initialState.hash = some 10 := by
  have h4 := readByOne.2.2
  have h5 := h4.step (.openForWriting .empty 2 ["f"]) (by decide : 2 < 3) trivial rfl
  have h6 := h5.step (.closeForWriting ["f"]) trivial trivial rfl
  have h7 := h6.step (.registerFileUsageUpdate (reading 20) 1 ["f"] (readAt 1)) ⟨by decide, rfl, readAt_wellFormed _⟩ trivial rfl
  refine ⟨_, h7, rfl, ?_, rfl, _, rfl, rfl⟩
  rintro ⟨g, u, hu, hne⟩
  by_cases hg : g = ["f"]
  · subst hg
    cases hu
    exact hne rfl
  · -- no other file was used
    change (if 1 = 1 ∧ g = ["f"] then some _ else if 1 = 1 ∧ g = ["f"] then some _ else none) = some u at hu
    rw [if_neg (fun h => hg h.2), if_neg (fun h => hg h.2)] at hu
    cases hu

end Firebuild
