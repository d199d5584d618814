/-
  Firebuild.ConcurrentWriters — files that several processes write at the same time
  (`file_name.cc`: `open_for_writing`, `close_for_writing`).

  For every file that is open for writing, `write_ofds_db_` remembers how often it was opened
  and one process. When another process opens the file, both are disabled up to their common
  ancestor, and that ancestor is remembered instead. `Watched` is the supervisor together with
  the processes that hold each file, which the code does not keep.

  The invariant (`HoldersCovered`): the remembered process is at or above everyone who holds the
  file, and whoever is below it on the way down to a holder is not shortcutable.
  So `concurrent_writers_disabled`.
-/

import Firebuild.Supervision

namespace Firebuild

open Lib.Forest
open Option (getD_some map_eq_some_iff map_some)

/-! ## The way up to an ancestor -/

/-- On the way from `a` up to `r`, without `r`. -/
def OnPath (up : Nat → Option Nat) (a r x : Nat) : Prop := AtOrAbove up a x ∧ AtOrAbove up x r ∧ x ≠ r

def LowestCommon (up : Nat → Option Nat) (a b l : Nat) : Prop :=
  AtOrAbove up a l ∧ AtOrAbove up b l ∧ ∀ c, AtOrAbove up a c → AtOrAbove up b c → AtOrAbove up l c

def ExecTree.PathDisabled (t : ExecTree) (a r : Nat) : Prop := ∀ x, OnPath t.up a r x → t.can x = false

section

variable {t t' : ExecTree} {a b c r : Nat}

theorem ExecTree.Inv.self (h : t.Inv) (a : Nat) : AtOrAbove t.up a a := by
  obtain ⟨l, hl⟩ := h.chain a
  exact ⟨l, hl, List.mem_cons_self⟩

theorem pathDisabled_self (t : ExecTree) (a : Nat) : t.PathDisabled a a := fun _ hx =>
  absurd (hx.2.1.antisymm hx.1) hx.2.2

theorem PathDisabled.trans (hab : AtOrAbove t.up a b) (h : t.PathDisabled a b) (h' : t.PathDisabled b c) :
    t.PathDisabled a c := by
  intro x hx
  rcases hx.1.total hab with hxb | hbx
  · by_cases hne : x = b
    · subst hne
      exact h' x ⟨⟨_, hxb.choose_spec.1, List.mem_cons_self⟩, hx.2⟩
    · exact h x ⟨hx.1, hxb, hne⟩
  · exact h' x ⟨hbx, hx.2⟩

/-- Below an ancestor of both there is nothing above their lowest common ancestor. -/
theorem OnPath.of_lowest (hx : OnPath t.up a l x) (hl : AtOrAbove t.up l r) : OnPath t.up a r x := by
  refine ⟨hx.1, hx.2.1.trans hl, ?_⟩
  rintro rfl
  exact hx.2.2 (hx.2.1.antisymm hl)

theorem PathDisabled.lower (h : t.PathDisabled a r) (hup : t'.up = t.up)
    (hcan : ∀ q, t'.can q = true → t.can q = true) : t'.PathDisabled a r := by
  intro x hx
  rw [hup] at hx
  have hoff := h x hx
  by_contra hon
  rw [hcan x (by simpa using hon)] at hoff
  cases hoff

end

/-! ## Other steps leave the account alone -/

section Frames

variable {quick : Bool} {cfg : Config} {w : World} {name : FileName} {d : FileUsageUpdate} {s s' : Supervisor}
  {n proc : Nat}

theorem registerLoop_writeOfds {prev : Option (Option FileUsage × FileUsage)}
    (h : registerLoop quick w name d n s proc propagated prev = some (e, s')) :
    s'.writeOfds = s.writeOfds := by
  induction n generalizing s proc propagated prev with
  | zero => cases h
  | succ n ih =>
    obtain ⟨-, -, rfl⟩ | ⟨next, t, -, rfl⟩ | ⟨fuNew, next, t, -, -, rfl | ⟨q, h⟩⟩ := registerLoop_cases h
    · rfl
    · rfl
    · rfl
    · have hrest := ih h
      exact hrest

variable {this p : Nat} {b : Bool}

theorem register_writeOfds
    (hparents : ∀ {s s' : Supervisor} {p : Nat}, parents s p = some s' → s'.writeOfds = s.writeOfds)
    (h : register quick cfg w name d parents n s this = some (b, s')) : s'.writeOfds = s.writeOfds := by
  induction n generalizing s this with
  | zero => cases h
  | succ n ih =>
    obtain ⟨-, rfl⟩ | ⟨start, propagated, t, -, ⟨rfl, -⟩ | ⟨proc, s1, e, s2, -, hpar, hl, hend⟩⟩ := register_cases h
    · rfl
    · rfl
    have h1 := hparents hpar
    have h2 : s2.writeOfds = s.writeOfds := (registerLoop_writeOfds hl).trans h1
    obtain ⟨-, rfl | ⟨next, h⟩⟩ | ⟨t, -, rfl⟩ := hend
    · exact h2
    · exact (ih h).trans h2
    · exact h2

theorem registerParents_writeOfds (h : registerParents quick cfg w name d s proc = some s') :
    s'.writeOfds = s.writeOfds := by
  unfold registerParents at h
  split at h
  · obtain ⟨⟨b, s1⟩, hdir, rfl⟩ := map_eq_some_iff.mp h
    unfold registerParentDirectory at hdir
    split at hdir
    · cases hdir
      rfl
    · cases hdir
      rfl
    · exact register_writeOfds (fun hp => by cases hp; rfl) hdir
  · cases h
    rfl

theorem registerFileUsageUpdate_writeOfds
    (h : registerFileUsageUpdate quick cfg w s this name d = some (b, s')) : s'.writeOfds = s.writeOfds :=
  register_writeOfds registerParents_writeOfds h

theorem step_writeOfds {sup sup' : Supervisor} (hrun : step quick cfg sup e = some sup')
    (hopen : ∀ w proc name, e ≠ .openForWriting w proc name) (hclose : ∀ name, e ≠ .closeForWriting name) :
    sup'.writeOfds = sup.writeOfds := by
  cases e with
  | exec parent fifo | setParent p q | disableShortcuttingBubbleUpToExcl this stop reason =>
    obtain ⟨tree, _, rfl⟩ := map_eq_some_iff.mp hrun
    rfl
  | disableShortcuttingOnlyThis this reason =>
    cases hrun
    rfl
  | registerFileUsageUpdate w this name d =>
    obtain ⟨⟨b, sup1⟩, hreg, rfl⟩ := map_eq_some_iff.mp hrun
    have hsame := registerFileUsageUpdate_writeOfds hreg
    exact hsame
  | openForWriting w proc name => exact absurd rfl (hopen w proc name)
  | closeForWriting name => exact absurd rfl (hclose name)

end Frames

/-! ## What opening and closing do to the account -/

section Counting

variable {quick : Bool} {cfg : Config} {w : World} {name f : FileName} {s s' : Supervisor}

def Supervisor.writers (s : Supervisor) (name : FileName) : Nat := ((s.writeOfds name).map Prod.fst).getD 0

theorem ne_of_ignored (hname : cfg.isInIgnoreLocation name = true) (hf : cfg.isInIgnoreLocation f = false) : f ≠ name := by
  rintro rfl
  rw [hname] at hf
  cases hf

theorem openForWriting_writers (h : openForWriting quick cfg w s proc name = some s')
    (hf : cfg.isInIgnoreLocation f = false) : s'.writers f = s.writers f + if f = name then 1 else 0 := by
  have hupdate : ∀ {count : Nat} {old new : Nat × Nat}, s.writeOfds name = some old → old.1 = count → new.1 = count + 1 →
      s'.writeOfds = (fun g => if g = name then some new else s.writeOfds g) →
      s'.writers f = s.writers f + if f = name then 1 else 0 := by
    intro count old new hold hcount hnew hs'
    unfold Supervisor.writers
    rw [hs']
    by_cases hname : f = name
    · subst hname
      simp only [if_pos, hold, map_some, getD_some]
      omega
    · simp only [if_neg hname, Nat.add_zero]
  unfold openForWriting at h
  split at h
  · rename_i hignored
    cases h
    rw [if_neg (ne_of_ignored hignored hf), Nat.add_zero]
  split at h
  · rename_i count other hw
    split at h
    · cases h
    split at h
    · unfold openedByOther at h
      split at h
      · cases h
      split at h
      · cases h
      split at h
      · split at h
        · cases h
        · cases h
          exact hupdate hw rfl rfl rfl
      · cases h
        exact hupdate hw rfl rfl rfl
    · cases h
      exact hupdate hw rfl rfl rfl
  · rename_i hw
    have hstart : (startGeneration s proc name).writers f = s.writers f + if f = name then 1 else 0 := by
      unfold Supervisor.writers startGeneration
      by_cases hname : f = name
      · subst hname
        simp [hw]
      · simp only [if_neg hname, Nat.add_zero]
    split at h
    · cases h
      exact hstart
    dsimp only at h
    split at h
    · cases h
    · obtain ⟨⟨b, s1⟩, hreg, rfl⟩ := map_eq_some_iff.mp h
      rw [← hstart, Supervisor.writers, registerFileUsageUpdate_writeOfds hreg, Supervisor.writers]

theorem closeForWriting_writers (h : closeForWriting cfg s name = some s') (hf : cfg.isInIgnoreLocation f = false) :
    s.writers f = s'.writers f + if f = name then 1 else 0 := by
  unfold closeForWriting at h
  split at h
  · rename_i hignored
    cases h
    rw [if_neg (ne_of_ignored hignored hf), Nat.add_zero]
  split at h
  · cases h
  rename_i count proc hw
  split at h
  · cases h
  cases h
  unfold Supervisor.writers
  by_cases hname : f = name
  · subst hname
    by_cases hlast : count > 1
    · simp only [if_pos, hw, map_some, getD_some, if_pos hlast]
      omega
    · simp only [if_pos, hw, map_some, getD_some, if_neg hlast, Option.map_none, Option.getD_none]
      omega
  · simp only [if_neg hname, Nat.add_zero]

end Counting

variable {proc : Nat} {f : FileName} {p : Nat}

section

variable {quick : Bool} {cfg : Config} {w : World} {s s' : Supervisor} {name : FileName}

/-- The file is accounted to `r` after it was opened once more: everyone it was accounted to is
    below `r`, with the way up disabled. -/
structure Opened (s s' : Supervisor) (proc : Nat) (name : FileName) (r : Nat) : Prop where
  writeOfds : ∀ f, s'.writeOfds f = if f = name then some (s.writers name + 1, r) else s.writeOfds f
  before : ∀ n other, s.writeOfds name = some (n, other) → AtOrAbove s.tree.up other r ∧ s'.tree.PathDisabled other r
  opener : s.jobserverFifo proc ≠ some name → AtOrAbove s.tree.up proc r ∧ s'.tree.PathDisabled proc r

theorem openedByOther_opened (hinv : s.tree.Inv) (hw : s.writeOfds name = some (count, other))
    (h : openedByOther s proc count other name = some s') : ∃ r, Opened s s' proc name r := by
  have hcount : s.writers name = count := by simp [Supervisor.writers, hw]
  obtain ⟨common, hcom⟩ := openedByOther_common h
  obtain ⟨hp, ho⟩ := hinv.commonExecAncestor_sound hcom
  obtain ⟨t, he, -, -, hup, hcan⟩ := openedByOther_spec hinv hcom
  cases h.symm.trans he
  have hoff : ∀ p, (∀ q, AtOrAbove s.tree.up p q → AtOrAbove s.tree.up proc q ∨ AtOrAbove s.tree.up other q) →
      t.PathDisabled p common := by
    intro p hsub x hx
    rw [hup] at hx
    by_contra hon
    exact hx.2.2 (hx.2.1.antisymm (((hcan x).mp (by simpa using hon)).2 (hsub x hx.1)))
  refine ⟨common, fun f => by rw [hcount], fun n o hno => ?_, fun _ => ⟨hp, hoff proc fun _ => .inl⟩⟩
  rw [hw] at hno
  cases hno
  exact ⟨ho, hoff other fun _ => .inr⟩

theorem openForWriting_opened (hs : Sound s) (hig : cfg.isInIgnoreLocation name = false)
    (h : openForWriting quick cfg w s proc name = some s') : ∃ r, Opened s s' proc name r := by
  unfold openForWriting at h
  rw [if_neg (by simp [hig])] at h
  cases hw : s.writeOfds name with
  | some entry =>
    obtain ⟨count, other⟩ := entry
    rw [hw] at h
    dsimp only at h
    split at h
    · cases h
    split at h
    · exact openedByOther_opened hs.inv hw h
    next hsame =>
    cases h
    refine ⟨other, fun f => by simp [Supervisor.writers, hw], fun n o hno => ?_, fun hfifo => ?_⟩
    · rw [hw] at hno
      cases hno
      exact ⟨hs.inv.self other, pathDisabled_self _ _⟩
    obtain rfl : proc = other := by
      by_contra hne
      exact hsame ⟨hne, hfifo⟩
    exact ⟨hs.inv.self proc, pathDisabled_self _ _⟩
  | none =>
    have hwrite : s'.writeOfds = (startGeneration s proc name).writeOfds := by
      rw [hw] at h
      dsimp only at h
      split at h
      · cases h
        rfl
      split at h
      · cases h
      · obtain ⟨⟨b, s1⟩, hreg, rfl⟩ := map_eq_some_iff.mp h
        exact registerFileUsageUpdate_writeOfds hreg
    refine ⟨proc, fun f => ?_, fun n o hno => ?_, fun _ => ⟨hs.inv.self proc, pathDisabled_self _ _⟩⟩
    · rw [hwrite, Supervisor.writers, hw]
      rfl
    · rw [hw] at hno
      cases hno

theorem openForWriting_other (hs : Sound s) (hf : f ≠ name)
    (h : openForWriting quick cfg w s proc name = some s') : s'.writeOfds f = s.writeOfds f := by
  cases hig : cfg.isInIgnoreLocation name with
  | true =>
    rw [openForWriting, if_pos hig] at h
    cases h
    rfl
  | false =>
    obtain ⟨r, hopened⟩ := openForWriting_opened hs hig h
    rw [hopened.writeOfds, if_neg hf]

/-- Closing leaves the file accounted to the same process, if to anybody. -/
theorem closeForWriting_writeOfds (h : closeForWriting cfg s name = some s')
    (hf : s'.writeOfds f = some (n, r)) : ∃ m, s.writeOfds f = some (m, r) := by
  unfold closeForWriting at h
  split at h
  · cases h
    exact ⟨n, hf⟩
  split at h
  · cases h
  rename_i count proc hw
  split at h
  · cases h
  cases h
  by_cases hname : f = name
  · subst hname
    simp only [if_true] at hf
    split at hf
    · cases hf
      exact ⟨count, hw⟩
    · cases hf
  · exact ⟨n, by simpa only [if_neg hname] using hf⟩

end

/-! ## Who holds a file -/

/-- The supervisor, and the processes that hold files open for writing, once for each time
    they opened them. -/
structure Watched where
  sup : Supervisor
  holders : List (Nat × FileName)

/-- What happens; closing names the process that does it. -/
inductive Act where
  | opens (w : World) (proc : Nat) (name : FileName)
  | closes (proc : Nat) (name : FileName)
  | other (e : Event)

def Act.event : Act → Event
  | .opens w proc name => .openForWriting w proc name
  | .closes _ name => .closeForWriting name
  | .other e => e

def Act.holders (hs : List (Nat × FileName)) : Act → List (Nat × FileName)
  | .opens _ proc name => (proc, name) :: hs
  | .closes proc name => hs.erase (proc, name)
  | .other _ => hs

namespace Watched

def init : Watched := ⟨.init, []⟩

def step (quick : Bool) (cfg : Config) (s : Watched) (a : Act) : Option Watched :=
  (Firebuild.step quick cfg s.sup a.event).map fun sup => ⟨sup, a.holders s.holders⟩

/-- Processes close what they hold, and a queued child that gets its parent holds nothing. -/
def Allowed (s : Watched) (a : Act) : Prop :=
  Firebuild.Allowed s.sup a.event ∧ match a with
    | .opens .. => True
    | .closes proc name => (proc, name) ∈ s.holders
    | .other (.openForWriting ..) => False
    | .other (.closeForWriting _) => False
    | .other (.setParent p _) => ∀ f, (p, f) ∉ s.holders
    | .other _ => True

inductive Leads (quick : Bool) (cfg : Config) (s : Watched) : Watched → Prop
  | here : Leads quick cfg s s
  | step {s₁ s2 : Watched} {a : Act} : Leads quick cfg s s₁ → s₁.Allowed a → s₁.step quick cfg a = some s2 →
      Leads quick cfg s s2

end Watched

section

variable {quick : Bool} {cfg : Config} {s s' : Watched} {a : Act}

/-- What a step keeps of a process that does not get a parent: its place, its fifo, and what is
    disabled above it. -/
structure KeepsPlace (s s' : Supervisor) (p : Nat) : Prop where
  lt : p < s'.tree.size
  jobserverFifo : s'.jobserverFifo p = s.jobserverFifo p
  above : ∀ r, AtOrAbove s.tree.up p r → AtOrAbove s'.tree.up p r
  path : ∀ r, AtOrAbove s.tree.up p r → s.tree.PathDisabled p r → s'.tree.PathDisabled p r

theorem KeepsPlace.lowered {s s' : Supervisor} (hp : p < s.tree.size) (hsize : s'.tree.size = s.tree.size)
    (hfifo : s'.jobserverFifo = s.jobserverFifo) (hup : s'.tree.up = s.tree.up)
    (hcan : ∀ q, s'.tree.can q = true → s.tree.can q = true) : KeepsPlace s s' p :=
  ⟨by omega, by rw [hfifo], fun r hr => by rwa [hup], fun r _ hoff => PathDisabled.lower hoff hup hcan⟩

theorem KeepsPlace.placed {s s' : Supervisor} (hs : Sound s) (h : Placed s s' q) (hp : p < s.tree.size)
    (hne : p ≠ q) : KeepsPlace s s' p := by
  have hchain : ∀ {x l}, AtOrAbove s.tree.up p x → (Chain s'.tree.up x l ↔ Chain s.tree.up x l) := by
    intro x l hx
    refine h.chain hs.inv ?_
    rintro rfl
    obtain ⟨m, hm, hxm⟩ := hx
    rcases List.mem_cons.mp hxm with hxp | hxm
    · exact hne hxp.symm
    · obtain ⟨y, hy⟩ := hm.mem_parent hxm
      exact h.leaf y hy
  have hself := hs.inv.self p
  refine ⟨(h.lt p).mpr (.inl hp), h.jobserverFifo p hne, fun r hr => ?_, fun r hr hoff x hx => ?_⟩
  · obtain ⟨l, hl, hrl⟩ := hr
    exact ⟨l, (hchain hself).mpr hl, hrl⟩
  obtain ⟨⟨l, hl, hxl⟩, ⟨m, hm, hrm⟩, hne⟩ := hx
  have hpx : AtOrAbove s.tree.up p x := ⟨l, (hchain hself).mp hl, hxl⟩
  have hxr : AtOrAbove s.tree.up x r := ⟨m, (hchain hpx).mp hm, hrm⟩
  rw [h.can x (atOrAbove_lt hs.inv hp hpx)]
  exact hoff x ⟨hpx, hxr, hne⟩

theorem step_keeps {s s' : Supervisor} (hs : Sound s) (ha : Firebuild.Allowed s e)
    (h : Firebuild.step quick cfg s e = some s') (hp : p < s.tree.size) (hne : ∀ q r, e = .setParent q r → p ≠ q) :
    KeepsPlace s s' p := by
  have hs0 : Sound { s with uses := [] } := { hs with }
  cases e with
  | exec parent fifo => exact .placed hs (exec_placed hs ha h) hp hp.ne
  | setParent q r => exact .placed hs (setParent_placed hs ha h) hp (hne q r rfl)
  | disableShortcuttingOnlyThis this reason =>
    simp only [Firebuild.step, Option.some.injEq] at h
    subst h
    refine .lowered hp ExecTree.disable_size rfl ExecTree.disable_up fun q hq => ?_
    rw [ExecTree.disable_can] at hq
    exact cleared_le hq
  | disableShortcuttingBubbleUpToExcl this stop reason =>
    obtain ⟨t, he, hd⟩ := hs.inv.disabledTo ha.2 reason
    simp only [Firebuild.step, he, Option.map_some, Option.some.injEq] at h
    subst h
    exact .lowered hp hd.size rfl hd.up fun q hq => ((hd.can q).mp hq).1
  | registerFileUsageUpdate w this name d =>
    obtain ⟨b, s1, he, hreg⟩ := @registerFileUsageUpdate_registered quick cfg w name d { s with uses := [] } this
      hs.inv hs.existsUp ha.2.1
    simp only [Firebuild.step, he, Option.map_some, Option.some.injEq] at h
    subst h
    exact .lowered hp hreg.size hreg.jobserverFifo hreg.up fun q hq => hreg.can hq
  | openForWriting w proc name =>
    rcases openForWriting_cases hs0 rfl h with ⟨-, hl⟩ | ⟨-, rfl⟩ | ⟨-, d, -, hreg⟩
    · exact .lowered hp hl.size hl.jobserverFifo hl.up fun q hq => hl.can hq
    · exact .lowered hp rfl rfl rfl fun _ hq => hq
    · exact .lowered hp hreg.size hreg.jobserverFifo hreg.up fun q hq => hreg.can hq
  | closeForWriting name =>
    have hl := closeForWriting_lowers hs h
    exact .lowered hp hl.size hl.jobserverFifo hl.up fun q hq => hl.can hq

theorem openForWriting_up {s s' : Supervisor} (hs : Sound s)
    (h : Firebuild.step quick cfg s (.openForWriting w proc name) = some s') : s'.tree.up = s.tree.up := by
  have hs0 : Sound { s with uses := [] } := { hs with }
  rcases openForWriting_cases hs0 rfl h with ⟨-, hl⟩ | ⟨-, rfl⟩ | ⟨-, d, -, hreg⟩
  · exact hl.up
  · rfl
  · exact hreg.up

/-! ## The account covers everyone who holds a file -/

structure HoldersCovered (cfg : Config) (s : Watched) : Prop where
  sound : Sound s.sup
  lt : ∀ p f, (p, f) ∈ s.holders → p < s.sup.tree.size
  count : ∀ f, cfg.isInIgnoreLocation f = false → s.sup.writers f = (s.holders.map Prod.snd).count f
  below : ∀ p f n r, (p, f) ∈ s.holders → cfg.isInIgnoreLocation f = false → s.sup.jobserverFifo p ≠ some f →
    s.sup.writeOfds f = some (n, r) → AtOrAbove s.sup.tree.up p r ∧ s.sup.tree.PathDisabled p r

theorem init_accounted : HoldersCovered cfg .init :=
  ⟨init_sound, fun _ _ h => absurd h List.not_mem_nil, fun _ _ => rfl, fun _ _ _ _ h => absurd h List.not_mem_nil⟩

section Covered

variable (h : HoldersCovered cfg s)
include h

/-- Those who hold a file are as they were, and the file is accounted to the same process. -/
theorem HoldersCovered.below_of_keeps (hp : (p, f) ∈ s.holders)
    (hk : KeepsPlace s.sup s'.sup p) (hig : cfg.isInIgnoreLocation f = false) (hfifo : s'.sup.jobserverFifo p ≠ some f)
    (hw : s.sup.writeOfds f = some (n, r)) :
    AtOrAbove s'.sup.tree.up p r ∧ s'.sup.tree.PathDisabled p r := by
  rw [hk.jobserverFifo] at hfifo
  obtain ⟨habove, hoff⟩ := h.below p f n r hp hig hfifo hw
  exact ⟨hk.above r habove, hk.path r habove hoff⟩

/-- A file that is held is accounted to somebody. -/
theorem HoldersCovered.account (hp : (p, f) ∈ s.holders)
    (hig : cfg.isInIgnoreLocation f = false) : ∃ n r, s.sup.writeOfds f = some (n, r) := by
  have hpos : 0 < (s.holders.map Prod.snd).count f := List.count_pos_iff.mpr (List.mem_map_of_mem hp)
  rw [← h.count f hig, Supervisor.writers] at hpos
  cases hw : s.sup.writeOfds f with
  | none =>
    rw [hw] at hpos
    cases hpos
  | some entry => exact ⟨entry.1, entry.2, rfl⟩

variable {name : FileName}

theorem HoldersCovered.opens
    (ha : s.Allowed (.opens w proc name)) (hstep : s.step quick cfg (.opens w proc name) = some s') :
    HoldersCovered cfg s' := by
  obtain ⟨sup, hrun, rfl⟩ := map_eq_some_iff.mp hstep
  have hkeeps : ∀ p, p < s.sup.tree.size → KeepsPlace s.sup sup p := fun p hp =>
    step_keeps h.sound ha.1 hrun hp fun _ _ => nofun
  refine ⟨step_sound h.sound ha.1 hrun, fun p f hp => ?_, fun f hig => ?_, fun p f n r hp hig hfifo hw => ?_⟩
  · rcases List.mem_cons.mp hp with hp | hp
    · cases hp
      exact (hkeeps _ ha.1).lt
    · exact (hkeeps p (h.lt p f hp)).lt
  · show sup.writers f = (((proc, name) :: s.holders).map Prod.snd).count f
    rw [openForWriting_writers hrun hig, List.map_cons, List.count_cons, ← h.count f hig]
    simp only [beq_iff_eq, @eq_comm _ name f]
    rfl
  · have hs0 : Sound { s.sup with uses := [] } := { h.sound with }
    have hp : (p, f) = (proc, name) ∨ (p, f) ∈ s.holders := List.mem_cons.mp hp
    by_cases hname : f = name
    · subst hname
      obtain ⟨r', hopened⟩ := openForWriting_opened hs0 hig hrun
      obtain rfl : r' = r := by
        have hw' : sup.writeOfds f = some (n, r) := hw
        rw [hopened.writeOfds, if_pos rfl] at hw'
        cases hw'
        rfl
      have hup := openForWriting_up h.sound hrun
      rcases hp with hp | hp
      · cases hp
        rw [(hkeeps proc ha.1).jobserverFifo] at hfifo
        obtain ⟨habove, hoff⟩ := hopened.opener hfifo
        exact ⟨(hkeeps proc ha.1).above r' habove, hoff⟩
      · -- below the process it was accounted to before, and that is below the new one
        have hk := hkeeps p (h.lt p f hp)
        obtain ⟨m, other, hw0⟩ := h.account hp hig
        obtain ⟨habove, hoff⟩ := h.below_of_keeps hp hk hig hfifo hw0
        obtain ⟨hother, hdis⟩ := hopened.before m other hw0
        have hother' : AtOrAbove sup.tree.up other r' := by rwa [hup]
        exact ⟨habove.trans hother', PathDisabled.trans habove hoff hdis⟩
    · have hw0 : s.sup.writeOfds f = some (n, r) := (openForWriting_other hs0 hname hrun).symm.trans hw
      rcases hp with hp | hp
      · cases hp
        exact absurd rfl hname
      · exact h.below_of_keeps hp (hkeeps p (h.lt p f hp)) hig hfifo hw0

theorem HoldersCovered.closes
    (ha : s.Allowed (.closes proc name)) (hstep : s.step quick cfg (.closes proc name) = some s') :
    HoldersCovered cfg s' := by
  obtain ⟨sup, hrun, rfl⟩ := map_eq_some_iff.mp hstep
  have hmem : ∀ {x}, x ∈ s.holders.erase (proc, name) → x ∈ s.holders := List.mem_of_mem_erase
  have hkeeps : ∀ p f, (p, f) ∈ s.holders → KeepsPlace s.sup sup p := fun p f hp =>
    step_keeps h.sound ha.1 hrun (h.lt p f hp) fun _ _ => nofun
  refine ⟨step_sound h.sound ha.1 hrun, fun p f hp => (hkeeps p f (hmem hp)).lt, fun f hig => ?_,
    fun p f n r hp hig hfifo hw => ?_⟩
  · have hperm := ((List.perm_cons_erase ha.2).map Prod.snd).count_eq f
    have hwriters := closeForWriting_writers hrun hig
    rw [List.map_cons, List.count_cons, ← h.count f hig] at hperm
    simp only [beq_iff_eq, @eq_comm _ name f] at hperm
    exact Nat.add_right_cancel (hwriters.symm.trans hperm)
  · obtain ⟨m, hw0⟩ := closeForWriting_writeOfds hrun hw
    exact h.below_of_keeps (hmem hp) (hkeeps p f (hmem hp)) hig hfifo hw0

theorem HoldersCovered.other (ha : s.Allowed (.other e))
    (hstep : s.step quick cfg (.other e) = some s') : HoldersCovered cfg s' := by
  obtain ⟨sup, hrun, rfl⟩ := map_eq_some_iff.mp hstep
  have hopen : ∀ w proc name, e ≠ .openForWriting w proc name := by
    rintro w proc name rfl
    exact ha.2
  have hclose : ∀ name, e ≠ .closeForWriting name := by
    rintro name rfl
    exact ha.2
  have hsame := step_writeOfds hrun hopen hclose
  have hkeeps : ∀ p f, (p, f) ∈ s.holders → KeepsPlace s.sup sup p := by
    intro p f hp
    refine step_keeps h.sound ha.1 hrun (h.lt p f hp) ?_
    rintro q r rfl rfl
    exact ha.2 f hp
  refine ⟨step_sound h.sound ha.1 hrun, fun p f hp => (hkeeps p f hp).lt, fun f hig => ?_,
    fun p f n r hp hig hfifo hw => ?_⟩
  · have hwriters : sup.writers f = s.sup.writers f := by rw [Supervisor.writers, hsame, Supervisor.writers]
    exact hwriters.trans (h.count f hig)
  · exact h.below_of_keeps hp (hkeeps p f hp) hig hfifo (hsame ▸ hw)

theorem HoldersCovered.step (ha : s.Allowed a) (hstep : s.step quick cfg a = some s') : HoldersCovered cfg s' := by
  cases a with
  | opens w proc name => exact h.opens ha hstep
  | closes proc name => exact h.closes ha hstep
  | other e => exact h.other ha hstep

theorem HoldersCovered.leads (hl : s.Leads quick cfg s') : HoldersCovered cfg s' := by
  induction hl with
  | here => exact h
  | step _ ha hstep ih => exact ih.step ha hstep

end Covered

end

/-! ## Concurrent writers -/

section

variable {quick : Bool} {cfg : Config} {s s' : Watched}

theorem step_can {s s' : Supervisor} (hs : Sound s) (ha : Firebuild.Allowed s e)
    (h : Firebuild.step quick cfg s e = some s') (hp : p < s.tree.size) (hoff : s.tree.can p = false) :
    p < s'.tree.size ∧ s'.tree.can p = false := by
  have hlow : ∀ {t : ExecTree}, (t.can p = true → s.tree.can p = true) → t.can p = false := by
    intro t hcan
    by_contra hon
    rw [hcan (by simpa using hon)] at hoff
    cases hoff
  cases step_effect hs ha h with
  | lowered hl _ => exact ⟨hl.size ▸ hp, hlow hl.can⟩
  | placed q hpl _ => exact ⟨hp.trans_le hpl.size, (hpl.can p hp).trans hoff⟩
  | registered hreg | started _ _ hreg => exact ⟨hreg.size ▸ hp, hlow hreg.can⟩

theorem leads_can (h : HoldersCovered cfg s) (hl : s.Leads quick cfg s') (hp : p < s.sup.tree.size)
    (hoff : s.sup.tree.can p = false) : p < s'.sup.tree.size ∧ s'.sup.tree.can p = false := by
  induction hl with
  | here => exact ⟨hp, hoff⟩
  | step hl ha hstep ih =>
    obtain ⟨sup, hrun, rfl⟩ := map_eq_some_iff.mp hstep
    exact step_can (h.leads hl).sound ha.1 hrun ih.1 ih.2

/-- In every run, if two processes hold a file open for writing that is not at an ignored location
    and not the jobserver fifo of either, then from then on nobody on the way from one of them up to
    their lowest common ancestor is shortcutable. -/
theorem concurrent_writers_disabled {a b l x : Nat} {f : FileName} (hreach : Watched.init.Leads quick cfg s)
    (ha : (a, f) ∈ s.holders) (hb : (b, f) ∈ s.holders) (hig : cfg.isInIgnoreLocation f = false)
    (hfa : s.sup.jobserverFifo a ≠ some f) (hfb : s.sup.jobserverFifo b ≠ some f)
    (hl : LowestCommon s.sup.tree.up a b l) (hx : OnPath s.sup.tree.up a l x ∨ OnPath s.sup.tree.up b l x)
    (hlater : s.Leads quick cfg s') : s'.sup.tree.can x = false := by
  have h := init_accounted.leads hreach
  obtain ⟨n, r, hw⟩ := h.account ha hig
  obtain ⟨har, hoffa⟩ := h.below a f n r ha hig hfa hw
  obtain ⟨hbr, hoffb⟩ := h.below b f n r hb hig hfb hw
  have hlr := hl.2.2 r har hbr
  rcases hx with hx | hx
  · have hlt := atOrAbove_lt h.sound.inv (h.lt a f ha) hx.1
    exact (leads_can h hlater hlt (hoffa x (hx.of_lowest hlr))).2
  · have hlt := atOrAbove_lt h.sound.inv (h.lt b f hb) hx.1
    exact (leads_can h hlater hlt (hoffb x (hx.of_lowest hlr))).2

end

theorem lowestCommon_of_siblings (ha : up a = some r) (hb : up b = some r)
    (hr : up r = none) (hab : a ≠ b) : LowestCommon up a b r ∧ OnPath up a r a ∧ OnPath up b r b := by
  have hroot : Chain up r [] := .root hr
  have hca : Chain up a [r] := .step ha hroot
  have hcb : Chain up b [r] := .step hb hroot
  have hne : ∀ {c}, up c = some r → c ≠ r := by
    rintro c hc rfl
    rw [hr] at hc
    cases hc
  refine ⟨⟨⟨_, hca, by simp⟩, ⟨_, hcb, by simp⟩, fun c hac hbc => ?_⟩, ⟨⟨_, hca, by simp⟩, ⟨_, hca, by simp⟩, hne ha⟩,
    ⟨_, hcb, by simp⟩, ⟨_, hcb, by simp⟩, hne hb⟩
  obtain ⟨l, hl, hcl⟩ := hac
  obtain ⟨m, hm, hcm⟩ := hbc
  rw [hl.unique hca] at hcl
  rw [hm.unique hcb] at hcm
  obtain rfl : c = r := by
    simp only [List.mem_cons, List.not_mem_nil, or_false] at hcl hcm
    omega
  exact ⟨[], hroot, by simp⟩

/-- Locations that are all ignored, or none of them. -/
def ignoring (b : Bool) : Config := { isInIgnoreLocation := fun _ => b }

/-- Two children of the first process open a file for writing. -/
theorem siblings_open (b : Bool) :
    ∃ s : Watched, Watched.init.Leads true (ignoring b) s ∧ s.holders = [(2, ["out"]), (1, ["out"])] ∧
      s.sup.jobserverFifo 1 = none ∧ s.sup.jobserverFifo 2 = none ∧ s.sup.tree.up 0 = none ∧
      s.sup.tree.up 1 = some 0 ∧ s.sup.tree.up 2 = some 0 ∧ s.sup.tree.can 1 = b ∧ s.sup.tree.can 2 = b := by
  have hfirst : Watched.init.Allowed (.other (.exec none none)) := by simp [Watched.Allowed, Allowed, Act.event]
  cases b <;> exact ⟨_, .step (.step (.step (.step (.step .here hfirst rfl)
      (a := .other (.exec (some 0) none)) (by simp [Watched.Allowed, Allowed, Act.event]) rfl)
      (a := .other (.exec (some 0) none)) (by simp [Watched.Allowed, Allowed, Act.event]) rfl)
      (a := .opens .empty 1 ["out"]) (by simp [Watched.Allowed, Allowed, Act.event]) rfl)
      (a := .opens .empty 2 ["out"]) ⟨(by decide : 2 < 3), trivial⟩ rfl, rfl, rfl, rfl, rfl, rfl, rfl, rfl, rfl⟩

theorem concurrent_writers_disabled_siblings :
    ∃ s : Watched, Watched.init.Leads true (ignoring false) s ∧ s.holders = [(2, ["out"]), (1, ["out"])] ∧
      s.sup.tree.can 1 = false ∧ s.sup.tree.can 2 = false := by
  obtain ⟨s, hreach, hholders, hfifo1, hfifo2, hup0, hup1, hup2, -⟩ := siblings_open false
  obtain ⟨hlow, hpath1, hpath2⟩ := lowestCommon_of_siblings hup1 hup2 hup0 (by decide)
  have ha : (1, ["out"]) ∈ s.holders := by simp [hholders]
  have hb : (2, ["out"]) ∈ s.holders := by simp [hholders]
  have h : ∀ x, OnPath s.sup.tree.up 1 0 x ∨ OnPath s.sup.tree.up 2 0 x → s.sup.tree.can x = false := fun x hx =>
    concurrent_writers_disabled hreach ha hb rfl (by simp [hfifo1]) (by simp [hfifo2]) hlow hx .here
  exact ⟨s, hreach, hholders, h 1 (.inl hpath1), h 2 (.inr hpath2)⟩

/-- Two processes that write a file at an ignored location stay shortcutable. -/
theorem writers_of_an_ignored_file :
    ∃ s : Watched, Watched.init.Leads true (ignoring true) s ∧ s.holders = [(2, ["out"]), (1, ["out"])] ∧
      s.sup.jobserverFifo 1 = none ∧ s.sup.jobserverFifo 2 = none ∧ LowestCommon s.sup.tree.up 1 2 0 ∧
      OnPath s.sup.tree.up 1 0 1 ∧ OnPath s.sup.tree.up 2 0 2 ∧ s.sup.tree.can 1 = true ∧
      s.sup.tree.can 2 = true := by
  obtain ⟨s, hreach, hholders, hfifo1, hfifo2, hup0, hup1, hup2, hcan1, hcan2⟩ := siblings_open true
  obtain ⟨hlow, hpath1, hpath2⟩ := lowestCommon_of_siblings hup1 hup2 hup0 (by decide)
  exact ⟨s, hreach, hholders, hfifo1, hfifo2, hlow, hpath1, hpath2, hcan1, hcan2⟩

end Firebuild
