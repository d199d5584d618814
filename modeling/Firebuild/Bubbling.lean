/-
  Firebuild.Bubbling — fast bubbling against naive bubbling (`execed_process.cc`:
  `register_file_usage_update`).

  The naive version merges an update at the process and at every shortcutable ancestor
  (`quick = false`). The code reuses the usage merged one level below when it finds the same
  usage there, and stops where an update changed nothing. Two supervisors go through the same
  events, one fast and one naive; `Twin` says that they agree on the flags and, up to where
  they came from, on all usages.

  The reuse is always right. The stop is right while every usage follows those of its
  descendants (`FollowsAt`), which holds as long as no update is merged that `merge()`
  forgets something for (`Meets`). After a parallel change the loop starts again further up;
  until it is done, the usages just created below wait for their ancestors (`Pending`).

  Proved: `fast_bubbling_is_naive`; `an_early_stop_misses_the_ancestor` without `Meets`.
-/

import Firebuild.Follows
import Firebuild.Supervision

namespace Firebuild

open Lib.Forest FileUsage
open Option (getD_some map_some)
open Function (update update_of_ne update_self)
open List
open FileUsageUpdate (new_typeOnly getFromStatParams_wellFormed)

variable {w : World} {d : FileUsageUpdate} {cfg : Config} {name : FileName} {u : FileUsage}

/-- The same usage, up to where it came from. -/
def SameCore (a b : Option FileUsage) : Prop := a.map core = b.map core

theorem SameCore.some_left (h : SameCore a (some u)) : ∃ v, a = some v ∧ v.core = u.core := by
  cases a with
  | none => cases h
  | some v => exact ⟨v, rfl, Option.some.inj h⟩

/-- What a usage meets does not depend on where it came from. -/
theorem Meets.congr (h : Meets u i) (hc : v.core = u.core) : Meets v i := by
  obtain ⟨hs, hw, hm, _, _⟩ := core_eq_iff.mp hc
  exact ⟨by rw [hs, hw]; exact h.exist, by rw [hs, hw]; exact h.notExistOrIsReg, by rw [hs, hm]; exact h.mode⟩

/-! ## One walk -/

section Walk

variable {qs : List Nat} {p p' : Bool} {prev prev' : Option (Option FileUsage × FileUsage)}
  {us us' : Nat → Option FileUsage}

/-- A level of the loop is a merge, quick path or not. -/
theorem mergeLevel_eq_mergeAt
    (hprev : ∀ fuOld fuNew, prev = some (fuOld, fuNew) → ∃ p, mergeAt w d p fuOld = .ok fuNew) :
    ∃ p0, mergeLevel quick w d p prev fu = mergeAt w d p0 fu := by
  rcases mergeLevel_cases quick w d p prev fu with h | ⟨fuNew, hp, h⟩
  · exact ⟨p, h⟩
  · obtain ⟨p0, h0⟩ := hprev fu fuNew hp
    exact ⟨p0, by rw [h, h0]⟩

theorem mergeLevel_naive : mergeLevel false w d p prev fu = mergeAt w d p fu := by
  cases prev with
  | none => rfl
  | some x =>
    rw [mergeLevel, if_neg (fun h => Bool.false_ne_true h.1)]

/-- Where every usage absorbs the update, the naive walk changes nothing. -/
theorem walk_absorbed (hnd : qs.Nodup) (habs : ∀ a ∈ qs, ∀ p, ∃ u u', us a = some u ∧
      mergeAt w d p (some u) = .ok u' ∧ u'.core = u.core) :
    (walk false w d qs p prev us).1 = .done ∧ ∀ q, SameCore ((walk false w d qs p prev us).2 q) (us q) := by
  induction qs generalizing p prev us with
  | nil => exact ⟨rfl, fun _ => rfl⟩
  | cons a qs ih =>
    obtain ⟨ha, hnd⟩ := nodup_cons.mp hnd
    obtain ⟨u, u', hu, hm, hc⟩ := habs a mem_cons_self p
    rw [walk, mergeLevel_naive, hu, hm]
    have hkeep : ∀ q, q ≠ a → update us a (some u') q = us q := fun q hq => update_of_ne hq _ _
    obtain ⟨he, hus⟩ := @ih true (some (some u, u')) (update us a (some u')) hnd fun b hb p => by
      rw [hkeep b (fun e => ha (e ▸ hb))]
      exact habs b (mem_cons_of_mem _ hb) p
    refine ⟨he, fun q => (hus q).trans ?_⟩
    by_cases hq : q = a
    · subst hq
      rw [update_self, hu]
      exact congrArg some hc
    · rw [hkeep q hq]

/-- The fast walk and the naive walk end the same way with the same usages. -/
theorem walk_sim (hw : d.WellFormed) (hnd : qs.Nodup) (hsame : ∀ q, SameCore (us q) (us' q))
    (hprev : ∀ fuOld fuNew, prev = some (fuOld, fuNew) → ∃ p, mergeAt w d p fuOld = .ok fuNew)
    (hpair : qs.Pairwise fun c a => ∀ uc, us' c = some uc → ∃ ua, us' a = some ua ∧ Follows uc ua)
    (hmeets : ∀ q ∈ qs, ∀ u, us' q = some u → Meets u (d.info w))
    (hgen : ∀ q ∈ qs, ∀ u, us' q = some u → u.generation ≤ d.generation) :
    (walk true w d qs p prev us).1 = (walk false w d qs p' prev' us').1 ∧
      ∀ q, SameCore ((walk true w d qs p prev us).2 q) ((walk false w d qs p' prev' us').2 q) := by
  induction qs generalizing p p' prev prev' us us' with
  | nil => exact ⟨rfl, hsame⟩
  | cons a qs ih =>
    obtain ⟨ha, hnd⟩ := nodup_cons.mp hnd
    obtain ⟨hfirst, hpair⟩ := pairwise_cons.mp hpair
    obtain ⟨p0, hlevel⟩ := @mergeLevel_eq_mergeAt w d p prev true (us a) hprev
    rw [walk, walk, hlevel, mergeLevel_naive]
    rcases @mergeAt_core w d p0 p' _ _ (hsame a) with ⟨v, v', hv, hv', hc⟩ | ⟨hv, hv'⟩ | ⟨hv, hv'⟩
    · rw [hv, hv']
      dsimp only
      have hupd : ∀ q, SameCore (update us a (some v) q) (update us' a (some v') q) := by
        intro q
        by_cases hq : q = a
        · subst hq
          rw [update_self, update_self]
          exact congrArg some hc
        · rw [update_of_ne hq, update_of_ne hq]
          exact hsame q
      have hrest : ∀ b ∈ qs, update us' a (some v') b = us' b := fun b hb =>
        update_of_ne (fun e : b = a => ha (e ▸ hb)) _ _
      split
      · -- the fast walk stops: the usage absorbed the update, and so does every usage above
        rename_i hstop
        obtain ⟨uc, huc, hcc⟩ := SameCore.some_left (hstop.2 ▸ hsame a : SameCore (some v) (us' a)).symm
        obtain ⟨hmerge, _⟩ := mergeAt_ok hv'
        rw [huc] at hmerge
        obtain ⟨he, hus⟩ := @walk_absorbed w d qs true (some (us' a, v')) (update us' a (some v')) hnd fun b hb p => by
            obtain ⟨ub, hub, hf⟩ := hfirst b hb uc huc
            rw [hrest b hb]
            have habs : ∃ ub', mergeAt w d p (some ub) = .ok ub' ∧ ub'.core = ub.core :=
              hf.absorb hmerge (hc.symm.trans hcc.symm) hw (hmeets a mem_cons_self uc huc)
                (hmeets b (mem_cons_of_mem _ hb) ub hub) (hgen b (mem_cons_of_mem _ hb) ub hub)
            obtain ⟨ub', hok, hcore⟩ := habs
            exact ⟨ub, ub', hub, hok, hcore⟩
        exact ⟨he.symm, fun q => (hupd q).trans (Eq.symm (hus q))⟩
      · refine ih hnd hupd (fun _ _ h => ?_) ?_ (fun q hq u hu => ?_) (fun q hq u hu => ?_)
        · cases h
          exact ⟨p0, hv⟩
        · refine hpair.imp_of_mem fun {x y} hx hy hxy => ?_
          rw [hrest x hx, hrest y hy]
          exact hxy
        · rw [hrest q hq] at hu
          exact hmeets q (mem_cons_of_mem _ hq) u hu
        · rw [hrest q hq] at hu
          exact hgen q (mem_cons_of_mem _ hq) u hu
    · rw [hv, hv']
      exact ⟨rfl, hsame⟩
    · rw [hv, hv']
      exact ⟨rfl, hsame⟩

/-- Where the naive walk ended: the levels done, and what is left. -/
def WalkEnd.Left (d : FileUsageUpdate) (us : Nat → Option FileUsage) (rest : List Nat) : WalkEnd → Prop
  | .done => rest = []
  | .failed => True
  | .stale q above => rest = q :: above ∧
      ∃ u, us q = some u ∧ u.generation ≠ d.generation ∧ u.generation + 1 ≠ d.generation

theorem walk_split (hnd : qs.Nodup) : ∃ below rest, qs = below ++ rest ∧
    (∀ q ∈ below, ∃ p u, mergeAt w d p (us q) = .ok u ∧ (walk false w d qs p' prev us).2 q = some u) ∧
    (∀ q, q ∉ below → (walk false w d qs p' prev us).2 q = us q) ∧
    (walk false w d qs p' prev us).1.Left d us rest := by
  induction qs generalizing p' prev us with
  | nil => exact ⟨[], [], rfl, fun _ => nofun, fun _ _ => rfl, rfl⟩
  | cons a qs ih =>
    obtain ⟨ha, hnd⟩ := nodup_cons.mp hnd
    rw [walk, mergeLevel_naive]
    cases hm : mergeAt w d p' (us a) with
    | failed => exact ⟨[], a :: qs, rfl, fun _ => nofun, fun _ _ => rfl, trivial⟩
    | stale => exact ⟨[], a :: qs, rfl, fun _ => nofun, fun _ _ => rfl, rfl, mergeAt_stale hm⟩
    | ok v =>
      dsimp only
      rw [if_neg (fun h => by cases h.1)]
      obtain ⟨below, rest, hqs, hdone, hother, hleft⟩ :=
        @ih true (some (us a, v)) (update us a (some v)) hnd
      have hkeep : ∀ q ∈ qs, update us a (some v) q = us q := fun q hq =>
        update_of_ne (fun e : q = a => ha (e ▸ hq)) _ _
      have hab : a ∉ below := fun h => ha (hqs ▸ mem_append_left _ h)
      refine ⟨a :: below, rest, by rw [hqs]; rfl, fun q hq => ?_, fun q hq => ?_, ?_⟩
      · rcases mem_cons.mp hq with rfl | hq
        · exact ⟨p', v, hm, by rw [hother _ hab, update_self]⟩
        obtain ⟨p, u, hu, he⟩ := hdone q hq
        rw [hkeep q (hqs ▸ mem_append_left _ hq)] at hu
        exact ⟨p, u, hu, he⟩
      · rw [hother q (not_mem_of_not_mem_cons hq), update_of_ne (ne_of_not_mem_cons hq)]
      · revert hleft
        cases hend : (walk false w d qs true (some (us a, v)) (update us a (some v))).1 with
        | done | failed => exact id
        | stale q above =>
          rintro ⟨hrest, u, hu, hg⟩
          have hq : q ∈ qs := hqs ▸ mem_append_right _ (hrest ▸ mem_cons_self)
          exact ⟨hrest, u, by rwa [hkeep q hq] at hu, hg⟩

end Walk

/-! ## Two supervisors -/

/-- The fast supervisor `s` and the naive one `s'` agree. -/
structure Twin (s s' : Supervisor) : Prop where
  inv : s.tree.Inv
  inv' : s'.tree.Inv
  size : s.tree.size = s'.tree.size
  up : s.tree.up = s'.tree.up
  can : s.tree.can = s'.tree.can
  jobserverFifo : s.jobserverFifo = s'.jobserverFifo
  generation : s.generation = s'.generation
  writeOfds : s.writeOfds = s'.writeOfds
  fileUsages : ∀ q f, SameCore (s.fileUsages q f) (s'.fileUsages q f)

/-- Every usage of the file is followed by those of the shortcutable ancestors. -/
def FollowsAt (s : Supervisor) (f : FileName) : Prop :=
  ∀ c uc l a, s.fileUsages c f = some uc → Chain s.tree.up c l → a ∈ l → s.tree.can a = true →
    ∃ ua, s.fileUsages a f = some ua ∧ Follows uc ua

/-- The same, except that usages created below `this` by the update being registered may
    wait for the processes from `this` on. -/
def Pending (w : World) (d : FileUsageUpdate) (this : Nat) (s : Supervisor) (f : FileName) : Prop :=
  ∀ c uc l a, s.fileUsages c f = some uc → Chain s.tree.up c l → a ∈ l → s.tree.can a = true →
    ∃ ua, s.fileUsages a f = some ua ∧ (Follows uc ua ∨
      this ∈ l ∧ AtOrAbove s.tree.up this a ∧ ∃ p, merge w (.get .dontKnow) d p = some uc)

def GenLe (s : Supervisor) (f : FileName) : Prop :=
  ∀ p u, s.fileUsages p f = some u → u.generation ≤ s.generation f

def MeetsAbove (i : FileInfo) (this : Nat) (s : Supervisor) (f : FileName) : Prop :=
  ∀ q u, AtOrAbove s.tree.up this q → s.fileUsages q f = some u → Meets u i

/-- Flags go down and the usages of the files in `keep` stay. -/
structure Frames (keep : FileName → Prop) (s s' : Supervisor) : Prop where
  size : s'.tree.size = s.tree.size
  up : s'.tree.up = s.tree.up
  can : ∀ {q : Nat}, s'.tree.can q = true → s.tree.can q = true
  jobserverFifo : s'.jobserverFifo = s.jobserverFifo
  generation : s'.generation = s.generation
  fileUsages : ∀ q f, keep f → s'.fileUsages q f = s.fileUsages q f

variable {s s' s1 s2 s0 : Supervisor} {f : FileName} {this : Nat} {i : FileInfo} {es : List Event}

theorem FollowsAt.pending (h : FollowsAt s f) : Pending w d this s f := by
  intro c uc l a hc hl ha hcan
  obtain ⟨ua, hua, hf⟩ := h c uc l a hc hl ha hcan
  exact ⟨ua, hua, .inl hf⟩

theorem Twin.ignores (h : Twin s s') (q : Nat) (f : FileName) : s.ignores cfg q f = s'.ignores cfg q f := by
  unfold Supervisor.ignores
  rw [h.jobserverFifo]

theorem Pending.follows (h : Pending w d this s f)
    (hc : AtOrAbove s.tree.up this c) (hu : s.fileUsages c f = some u) (hl : Chain s.tree.up c l) (ha : a ∈ l)
    (hcan : s.tree.can a = true) : ∃ ua, s.fileUsages a f = some ua ∧ Follows u ua := by
  obtain ⟨ua, hua, hf | ⟨hbelow, _⟩⟩ := h c u l a hu hl ha hcan
  · exact ⟨ua, hua, hf⟩
  · exact absurd hbelow (hc.not_mem hl)

namespace Frames

variable {keep keep' : FileName → Prop}

theorem refl (s : Supervisor) : Frames keep s s := ⟨rfl, rfl, id, rfl, rfl, fun _ _ _ => rfl⟩

theorem trans (h1 : Frames keep s s1) (h2 : Frames keep' s1 s2) : Frames (fun f => keep f ∧ keep' f) s s2 :=
  ⟨h2.size.trans h1.size, h2.up.trans h1.up, fun h => h1.can (h2.can h), h2.jobserverFifo.trans h1.jobserverFifo,
    h2.generation.trans h1.generation,
    fun q f hf => (h2.fileUsages q f hf.2).trans (h1.fileUsages q f hf.1)⟩

theorem mono (h : Frames keep s s') (hk : ∀ f, keep' f → keep f) : Frames keep' s s' :=
  { h with fileUsages := fun q f hf => h.fileUsages q f (hk f hf) }

variable (h : Frames keep s s') (hf : keep f)

include h hf

theorem follows (hs : FollowsAt s f) : FollowsAt s' f := by
  intro c uc l a hc hl ha hcan
  rw [h.fileUsages _ _ hf] at hc ⊢
  exact hs c uc l a hc (h.up ▸ hl) ha (h.can hcan)

theorem pending (hs : Pending w d this s f) : Pending w d this s' f := by
  intro c uc l a hc hl ha hcan
  rw [h.fileUsages _ _ hf] at hc ⊢
  rw [h.up] at hl ⊢
  exact hs c uc l a hc hl ha (h.can hcan)

theorem meets (hs : MeetsAbove i this s f) : MeetsAbove i this s' f := by
  intro q u hq hu
  rw [h.fileUsages _ _ hf] at hu
  exact hs q u (h.up ▸ hq) hu

theorem genLe (hs : GenLe s f) : GenLe s' f := by
  intro q u hu
  rw [h.fileUsages _ _ hf] at hu
  rw [h.generation]
  exact hs q u hu

end Frames

/-! ## One loop -/

section Loop

variable {proc : Nat} {lt l1 l : List Nat} {p p' : Bool}

/-- What a loop of the naive supervisor makes of the usages of the file: those of `below` are
    merged, the others stay. -/
structure Merges (w : World) (d : FileUsageUpdate) (name : FileName) (below : List Nat) (s s' : Supervisor) : Prop where
  up : s'.tree.up = s.tree.up
  can : ∀ {q : Nat}, s'.tree.can q = true → s.tree.can q = true
  done : ∀ q ∈ below, ∃ p u, mergeAt w d p (s.fileUsages q name) = .ok u ∧ s'.fileUsages q name = some u
  other : ∀ q, q ∉ below → s'.fileUsages q name = s.fileUsages q name

variable {below rest : List Nat}

section

variable (h : Merges w d name below s s') (hp : Pending w d this s name)
  (hthis : ∀ q ∈ below, AtOrAbove s.tree.up this q) {c a : Nat} {uc : FileUsage} {l : List Nat}
  (hc : s'.fileUsages c name = some uc) (hl : Chain s'.tree.up c l) (ha : a ∈ l) (hcan : s'.tree.can a = true)

include h hp hthis hc hl ha hcan

/-- After the merges an ancestor that was merged follows, whoever is below it. -/
theorem Merges.follows (hw : d.WellFormed) (hm : MeetsAbove (d.info w) this s name) (hg : GenLe s name)
    (hgen : d.generation = s.generation name) (hab : a ∈ below) :
    ∃ ua, s'.fileUsages a name = some ua ∧ Follows uc ua := by
  rw [h.up] at hl
  obtain ⟨pa, ua', hma, hua'⟩ := h.done a hab
  obtain ⟨hma, hga⟩ := mergeAt_ok hma
  refine ⟨ua', hua', ?_⟩
  have hmeetsA : Meets ((s.fileUsages a name).getD (.get .dontKnow)) (d.info w) := by
    cases hu : s.fileUsages a name with
    | none => exact meets_fresh _
    | some u => exact hm a u (hthis a hab) hu
  by_cases hcb : c ∈ below
  · obtain ⟨pc, uc', hmc, huc'⟩ := h.done c hcb
    obtain ⟨hmc, _⟩ := mergeAt_ok hmc
    rw [hc] at huc'
    cases huc'
    cases hu : s.fileUsages c name with
    | none =>
      rw [hu] at hmc
      exact (Follows.fresh _).both hmc hma hw (meets_fresh _) hmeetsA
    | some u =>
      rw [hu] at hmc
      obtain ⟨ua, hua, hf⟩ := hp.follows (hthis c hcb) hu hl ha (h.can hcan)
      rw [hua] at hma hmeetsA
      exact hf.both hmc hma hw (hm c u (hthis c hcb) hu) hmeetsA
  · rw [h.other c hcb] at hc
    obtain ⟨ua, hua, hf | ⟨_, _, pc, hfresh⟩⟩ := hp c uc l a hc hl ha (h.can hcan)
    · rw [hua] at hma hmeetsA
      exact hf.above hma hw hmeetsA (hgen ▸ hg a ua hua)
    · exact (Follows.fresh _).both hfresh hma hw (meets_fresh _) hmeetsA

theorem Merges.outside (hout : ¬AtOrAbove s.tree.up this a) : ∃ ua, s'.fileUsages a name = some ua ∧ Follows uc ua := by
  rw [h.up] at hl
  have hab : a ∉ below := fun hm => hout (hthis a hm)
  have hcb : c ∉ below := fun hm => hout ((hthis c hm).trans (atOrAbove_of_mem hl ha))
  rw [h.other c hcb] at hc
  rw [h.other a hab]
  obtain ⟨ua, hua, hf | ⟨_, hat, _⟩⟩ := hp c uc l a hc hl ha (h.can hcan)
  · exact ⟨ua, hua, hf⟩
  · exact absurd hat hout

end

variable (hw : d.WellFormed) (hp : Pending w d this s name) (hm : MeetsAbove (d.info w) this s name)
  (hg : GenLe s name) (hgen : d.generation = s.generation name) (hc : Chain s.tree.up this lt)
  (hl : this :: lt = l1 ++ proc :: l) (hoff : ∀ a ∈ l1, s.tree.can a = false)

include hw hp hm hg hgen hc hl hoff

section

variable (h : Merges w d name below s s')
include h

/-- The loop came to the last process, or stopped at a parallel change with nobody above. -/
theorem Merges.done_follows (hqs : proc :: l.filter s.tree.can = below ++ rest)
    (hrest : ∀ q ∈ rest, s'.tree.can q = false) : FollowsAt s' name := by
  have hthis : ∀ q ∈ below, AtOrAbove s.tree.up this q := fun q hq =>
    targets_above hc hl (hqs ▸ mem_append_left _ hq)
  intro c uc lc a huc hlc ha hcan
  by_cases hat : AtOrAbove s.tree.up this a
  · have hmem := mem_targets hc hl hoff hat (h.can hcan)
    rw [hqs] at hmem
    rcases mem_append.mp hmem with hmem | hmem
    · exact h.follows hp hthis huc hlc ha hcan hw hm hg hgen hmem
    · rw [hrest a hmem] at hcan
      cases hcan
  · exact h.outside hp hthis huc hlc ha hcan hat

omit hw hm hg hgen hoff in
/-- A merge failed and all the processes from `this` on were disabled. -/
theorem Merges.failed_follows (hqs : proc :: l.filter s.tree.can = below ++ rest)
    (hdis : ∀ a, AtOrAbove s.tree.up this a → s'.tree.can a = false) : FollowsAt s' name := by
  have hthis : ∀ q ∈ below, AtOrAbove s.tree.up this q := fun q hq =>
    targets_above hc hl (hqs ▸ mem_append_left _ hq)
  intro c uc lc a huc hlc ha hcan
  refine h.outside hp hthis huc hlc ha hcan fun hat => ?_
  rw [hdis a hat] at hcan
  cases hcan

/-- The loop stopped at a parallel change at `q`: the processes below had no usage before,
    and what is left starts at `next`. -/
theorem Merges.stale_pending {next : Nat}
    (hqs : proc :: l.filter s.tree.can = below ++ q :: next :: above) (hq : s'.tree.can q = false)
    (huq : s.fileUsages q name = some uq) (h1 : uq.generation ≠ d.generation)
    (h2 : uq.generation + 1 ≠ d.generation) : Pending w d next s' name := by
  have hcp := hc.of_cons_append hl
  have hpw : (below ++ q :: next :: above).Pairwise fun a b =>
      s.tree.can b = true ∧ ∃ la, Chain s.tree.up a la ∧ b ∈ la := hqs ▸ targets_pairwise hcp
  obtain ⟨_, hpw2, hcross⟩ := pairwise_append.mp hpw
  obtain ⟨hqabove, hpw3⟩ := pairwise_cons.mp hpw2
  obtain ⟨hnabove, _⟩ := pairwise_cons.mp hpw3
  have hthis : ∀ q ∈ below, AtOrAbove s.tree.up this q := fun q hq =>
    targets_above hc hl (hqs ▸ mem_append_left _ hq)
  have hnext : ∀ a ∈ next :: above, AtOrAbove s.tree.up next a := by
    intro a ha
    rcases mem_cons.mp ha with rfl | ha
    · obtain ⟨ln, hln⟩ := hqabove a mem_cons_self |>.2
      obtain ⟨_, y, _, hy⟩ := hln.1.of_mem hln.2
      exact ⟨y, hy, mem_cons_self⟩
    · obtain ⟨_, ln, hln, hm⟩ := hnabove a ha
      exact atOrAbove_of_mem hln hm
  intro c uc lc a huc hlc ha hcan
  by_cases hat : AtOrAbove s.tree.up this a
  swap
  · obtain ⟨ua, hua, hf⟩ := h.outside hp hthis huc hlc ha hcan hat
    exact ⟨ua, hua, .inl hf⟩
  have hmem := mem_targets hc hl hoff hat (h.can hcan)
  rw [hqs] at hmem
  rcases mem_append.mp hmem with hmem | hmem
  · obtain ⟨ua, hua, hf⟩ := h.follows hp hthis huc hlc ha hcan hw hm hg hgen hmem
    exact ⟨ua, hua, .inl hf⟩
  rcases mem_cons.mp hmem with rfl | hmem
  · rw [hq] at hcan
    cases hcan
  -- `a` is above the place where the loop stopped
  have hab : a ∉ below := by
    intro hb
    have hnd : (below ++ q :: next :: above).Nodup := hqs ▸ targets_nodup hcp
    exact (nodup_append.mp hnd).2.2 a hb a (mem_cons_of_mem _ hmem) rfl
  rw [h.up] at hlc ⊢
  rw [h.other a hab]
  obtain ⟨hcana, lq, hlq, haq⟩ := hqabove a hmem
  by_cases hcb : c ∈ below
  · obtain ⟨hcanq, lc', hlc', hqc⟩ := hcross c hcb q mem_cons_self
    obtain ⟨_, lc'', hlc'', hnc⟩ := hcross c hcb next (mem_cons_of_mem _ mem_cons_self)
    rw [hlc'.unique hlc] at hqc
    rw [hlc''.unique hlc] at hnc
    obtain ⟨pc, uc', hmc, huc'⟩ := h.done c hcb
    rw [huc] at huc'
    cases huc'
    obtain ⟨hmc, hgc⟩ := mergeAt_ok hmc
    cases hu : s.fileUsages c name with
    | some u =>
      -- the generation of `q` is then as recent as that of `c`
      obtain ⟨uq', huq', hf⟩ := hp.follows (hthis c hcb) hu hlc hqc hcanq
      rw [huq] at huq'
      cases huq'
      have a1 := hgc u hu
      have a2 := hf.generation
      have a3 := hg q uq huq
      omega
    | none =>
      rw [hu] at hmc
      obtain ⟨ua, hua, _⟩ := hp q uq lq a huq hlq haq hcana
      exact ⟨ua, hua, .inr ⟨hnc, hnext a hmem, pc, hmc⟩⟩
  · rw [h.other c hcb] at huc
    obtain ⟨ua, hua, hf | ⟨hthisc, _, hfresh⟩⟩ := hp c uc lc a huc hlc ha hcana
    · exact ⟨ua, hua, .inl hf⟩
    refine ⟨ua, hua, .inr ⟨?_, hnext a hmem, hfresh⟩⟩
    have hnt : AtOrAbove s.tree.up this next := by
      have hmemn : next ∈ proc :: l.filter s.tree.can := by
        rw [hqs]
        exact mem_append_right _ (mem_cons_of_mem _ mem_cons_self)
      exact targets_above hc hl hmemn
    obtain ⟨x, y, rfl, hy⟩ := hlc.of_mem hthisc
    obtain ⟨lt', hlt, hm'⟩ := hnt
    rw [hlt.unique hy] at hm'
    exact mem_append_right _ hm'

omit hw hp hg hc hl hoff in
theorem Merges.meets_gen (hthis : ∀ q ∈ below, AtOrAbove s.tree.up this q)
    (hg : GenLe s name) (hsg : s'.generation = s.generation) :
    MeetsAbove (d.info w) this s' name ∧ GenLe s' name := by
  have hdone : ∀ q ∈ below, ∀ u, s'.fileUsages q name = some u →
      Meets u (d.info w) ∧ u.generation = d.generation := by
    intro q hq u hu
    obtain ⟨p, u', hok, hu'⟩ := h.done q hq
    rw [hu] at hu'
    cases hu'
    obtain ⟨hmerge, _⟩ := mergeAt_ok hok
    obtain ⟨r, hr⟩ := merge_spec hmerge
    refine ⟨Meets.after hmerge ?_, hr.generation⟩
    cases hold : s.fileUsages q name with
    | none => exact meets_fresh _
    | some v => exact hm q v (hthis q hq) hold
  refine ⟨fun q u hq hu => ?_, fun q u hu => ?_⟩
  · by_cases hb : q ∈ below
    · exact (hdone q hb u hu).1
    · rw [h.other q hb] at hu
      exact hm q u (h.up ▸ hq) hu
  · rw [hsg]
    by_cases hb : q ∈ below
    · exact Nat.le_of_eq ((hdone q hb u hu).2.trans hgen)
    · rw [h.other q hb] at hu
      exact hg q u hu

end

def LoopEnd.After (w : World) (d : FileUsageUpdate) (name : FileName) (this : Nat) (l : List Nat) (s : Supervisor) :
    LoopEnd → Prop
  | .done | .stale none => FollowsAt s name
  | .failed => ∀ t : ExecTree, t.up = s.tree.up → (∀ a, AtOrAbove s.tree.up this a → t.can a = false) →
      (∀ q, t.can q = true → s.tree.can q = true) → FollowsAt { s with tree := t } name
  | .stale (some next) => next ∈ l ∧ Pending w d next s name

/-- The fast loop and the naive loop end the same way, and the usages agree again. -/
theorem loop_sim {s0 : Supervisor} (ht : Twin s0 s) :
    ∃ e s1 s1', registerLoop true w name d (s0.tree.size + 1) s0 proc p none = some (e, s1) ∧
      registerLoop false w name d (s.tree.size + 1) s proc p none = some (e, s1') ∧ Twin s1 s1' ∧
      Frames (· ≠ name) s s1' ∧ GenLe s1' name ∧ MeetsAbove (d.info w) this s1' name ∧
      (∀ y, ¬AtOrAbove s.tree.up this y → s1'.fileUsages y name = s.fileUsages y name) ∧
      e.After w d name this l s1' := by
  have hcp := hc.of_cons_append hl
  have hlen : (l.filter s.tree.can).length < s.tree.size + 1 :=
    Nat.lt_succ_of_le (Nat.le_trans (length_filter_le _ _) (ht.inv'.length_le hcp))
  obtain ⟨s1, hrun, hwk⟩ := @registerLoop_eq true w name d s0 p none _ proc l ht.inv (ht.up ▸ hcp)
    (ht.size ▸ ht.can ▸ hlen) _ rfl
  obtain ⟨s1', hrun', hwk'⟩ := @registerLoop_eq false w name d s p none _ proc l ht.inv' hcp hlen _ rfl
  have hnd : (proc :: l.filter s.tree.can).Nodup := targets_nodup hcp
  have hthis : ∀ q ∈ proc :: l.filter s.tree.can, AtOrAbove s.tree.up this q := fun q hq => targets_above hc hl hq
  obtain ⟨hend, husages⟩ := @walk_sim w d (proc :: l.filter s.tree.can) p p none none
    (fun q => s0.fileUsages q name) (fun q => s.fileUsages q name) hw hnd (fun q => ht.fileUsages q name)
    (fun _ _ => nofun)
    ((targets_pairwise hcp).imp_of_mem fun {c a} hcm _ hca uc huc => by
      obtain ⟨hcan, lc, hlc, ha⟩ := hca
      exact hp.follows (hthis c hcm) huc hlc ha hcan)
    (fun q hq u hu => hm q u (hthis q hq) hu) (fun q _ u hu => hgen ▸ hg q u hu)
  rw [ht.can] at hrun hwk
  obtain ⟨below, rest, hqs, hdone, hother, hleft⟩ :=
    @walk_split w d (proc :: l.filter s.tree.can) p none (fun q => s.fileUsages q name) hnd
  generalize (walk false w d (proc :: l.filter s.tree.can) p none fun q => s.fileUsages q name) = r'
    at hrun' hwk' hend husages hdone hother hleft
  have hmg : Merges w d name below s s1' := by
    refine ⟨hwk'.up, fun hq => cleared_le (hwk'.can ▸ hq), fun q hq => ?_, fun q hq => ?_⟩
    · obtain ⟨pq, u, hu, he⟩ := hdone q hq
      exact ⟨pq, u, hu, by rw [hwk'.fileUsages, if_pos rfl, he]⟩
    · rw [hwk'.fileUsages, if_pos rfl, hother q hq]
  have hthisb : ∀ q ∈ below, AtOrAbove s.tree.up this q := fun q hq => hthis q (hqs ▸ mem_append_left _ hq)
  obtain ⟨hmeets, hgenle⟩ := hmg.meets_gen hm hgen hthisb hg hwk'.generation
  refine ⟨r'.1.loopEnd, s1, s1', by rw [hrun, hend], hrun', ?_, ?_, hgenle, hmeets,
    fun y hy => hmg.other y fun hb => hy (hthisb y hb), ?_⟩
  · refine ⟨hwk.inv, hwk'.inv, by rw [hwk.size, hwk'.size, ht.size], by rw [hwk.up, hwk'.up, ht.up], ?_,
      by rw [hwk.jobserverFifo, hwk'.jobserverFifo, ht.jobserverFifo],
      by rw [hwk.generation, hwk'.generation, ht.generation],
      by rw [hwk.writeOfds, hwk'.writeOfds, ht.writeOfds], fun q f => ?_⟩
    · rw [hwk.can, hwk'.can, ht.can, hend]
    rw [hwk.fileUsages, hwk'.fileUsages]
    split
    · exact husages q
    · exact ht.fileUsages q f
  · exact { hwk' with can := hmg.can, fileUsages := fun q f hf => by rw [hwk'.fileUsages, if_neg hf] }
  · cases hr : r'.1 with
    | done =>
      rw [hr] at hleft
      have hrest : rest = [] := hleft
      exact hmg.done_follows hw hp hm hg hgen hc hl hoff hqs (fun q hq => by rw [hrest] at hq; cases hq)
    | failed =>
      intro t hup hdis hcan
      have hmg' : Merges w d name below s { s1' with tree := t } :=
        ⟨hup.trans hwk'.up, fun hq => hmg.can (hcan _ hq), hmg.done, hmg.other⟩
      exact hmg'.failed_follows hp hc hl hqs (fun a ha => hdis a (hwk'.up ▸ ha))
    | stale q above =>
      rw [hr] at hleft
      obtain ⟨hrest, uq, huq, h1, h2⟩ := hleft
      have hq : s1'.tree.can q = false := by
        rw [hwk'.can, hr]
        exact cleared_of_mem (mem_singleton.mpr rfl)
      cases habove : above with
      | nil =>
        refine hmg.done_follows hw hp hm hg hgen hc hl hoff hqs fun x hx => ?_
        rw [hrest, habove] at hx
        rw [mem_singleton.mp hx]
        exact hq
      | cons next above' =>
        rw [hrest, habove] at hqs
        exact ⟨left_mem hqs mem_cons_self, hmg.stale_pending hw hp hm hg hgen hc hl hoff hqs hq huq h1 h2⟩

end Loop

/-! ## A whole registration -/

/-- Bubbling up from the same process keeps the two supervisors alike. -/
theorem Twin.bubbleUp {s s' : Supervisor} {stop : Option Nat} (ht : Twin s s')
    (hs : ∀ x ∈ stop, AtOrAbove s'.tree.up this x) (reason : String) :
    ∃ t t', s.tree.disableShortcuttingBubbleUpToExcl this stop reason = some t ∧
      s'.tree.disableShortcuttingBubbleUpToExcl this stop reason = some t' ∧
      Twin { s with tree := t } { s' with tree := t' } ∧ t'.up = s'.tree.up ∧ t'.size = s'.tree.size ∧
      (∀ q, t'.can q = true → s'.tree.can q = true) ∧
      (stop = none → ∀ a, AtOrAbove s'.tree.up this a → t'.can a = false) := by
  obtain ⟨t, he, hd⟩ := ht.inv.disabledTo (ht.up ▸ hs) reason
  obtain ⟨t', he', hd'⟩ := ht.inv'.disabledTo hs reason
  refine ⟨t, t', he, he', ⟨hd.inv, hd'.inv, by rw [hd.size, hd'.size, ht.size], by rw [hd.up, hd'.up, ht.up], ?_,
    ht.jobserverFifo, ht.generation, ht.writeOfds, ht.fileUsages⟩, hd'.up, hd'.size,
    fun q hq => ((hd'.can q).mp hq).1, fun hstop a ha => ?_⟩
  · funext q
    rw [Bool.eq_iff_iff, hd.can, hd'.can, ht.can, ht.up]
  subst hstop
  by_contra hon
  obtain ⟨x, hx, -⟩ := ((hd'.can a).mp (by simpa using hon)).2 ha
  cases hx

section Register

variable {parents parents' : Supervisor → Nat → Option Supervisor} {I : Supervisor → Nat → Prop}
  {keep : FileName → Prop} {dir : FileName}

/-- Fast and naive registration, given that registering at the parent directory keeps the
    supervisors alike. `I` is what that needs to know at the process it starts from. -/
theorem register_sim (hw : d.WellFormed) (hkeep : ∀ f, keep f → f ≠ name)
    (hI : ∀ s s1 p q, I s p → AtOrAbove s.tree.up p q → Frames (· ≠ name) s s1 → I s1 q)
    (hpar : ∀ s0 s q, Twin s0 s → I s q → ∃ s1 s1', parents s0 q = some s1 ∧ parents' s q = some s1' ∧
      Twin s1 s1' ∧ Frames (fun f => f = name ∨ keep f) s s1' ∧ I s1' q)
    {n : Nat} {lt : List Nat} {s0 s : Supervisor} (ht : Twin s0 s) (hi : I s this) (hp : Pending w d this s name)
    (hm : MeetsAbove (d.info w) this s name) (hg : GenLe s name)
    (hig : ∀ q, AtOrAbove s.tree.up this q → s.ignores cfg q name = false) (hgen : d.generation = s.generation name)
    (hc : Chain s.tree.up this lt) (hn : lt.length < n) :
    ∃ b s1 s1' q, register true cfg w name d parents n s0 this = some (b, s1) ∧
      register false cfg w name d parents' n s this = some (b, s1') ∧ Twin s1 s1' ∧ Frames keep s s1' ∧
      I s1' q ∧ FollowsAt s1' name ∧ GenLe s1' name ∧ MeetsAbove (d.info w) this s1' name ∧
      ∀ y, ¬AtOrAbove s.tree.up this y → s1'.fileUsages y name = s.fileUsages y name := by
  induction n generalizing s0 s this lt with
  | zero => omega
  | succ n ih =>
    have hself : AtOrAbove s.tree.up this this := ⟨lt, hc, mem_cons_self⟩
    have hig0 : s0.ignores cfg this name = false := (ht.ignores this name).trans (hig this hself)
    rw [register, register, hig this hself, hig0]
    simp only [Bool.false_eq_true, if_false]
    obtain ⟨m0, hfrom0, hm0⟩ := @registerFrom_spec cfg { s0 with uses := (this, name) :: s0.uses } this lt ht.inv
      (ht.up ▸ hc)
    obtain ⟨m, hfrom, hm'⟩ := @registerFrom_spec cfg { s with uses := (this, name) :: s.uses } this lt ht.inv' hc
    have hskip := registrant_skips cfg s.tree.can this lt
    rw [hfrom0, hfrom, show ({ s0 with uses := (this, name) :: s0.uses } : Supervisor).tree.can = s.tree.can from ht.can]
    generalize registrant cfg s.tree.can this lt = r at hskip
    obtain ⟨start, propagated⟩ := r
    obtain ⟨s1, hs1⟩ : ∃ s1 : Supervisor, s1 =
      { s0 with uses := (this, name) :: s0.uses, tree := s0.tree.setMaybe this m0 } := ⟨_, rfl⟩
    obtain ⟨s1', hs1'⟩ : ∃ s1' : Supervisor, s1' =
      { s with uses := (this, name) :: s.uses, tree := s.tree.setMaybe this m } := ⟨_, rfl⟩
    have ht1 : Twin s1 s1' := by
      rw [hs1, hs1']
      exact ⟨hm0, hm', ht.size, by simpa using ht.up, by simpa using ht.can, ht.jobserverFifo, ht.generation,
        ht.writeOfds, ht.fileUsages⟩
    have hfr : ∀ k, Frames k s s1' := by
      intro k
      rw [hs1']
      exact ⟨rfl, ExecTree.setMaybe_up, fun h => by simpa using h, rfl, rfl, fun _ _ _ => rfl⟩
    have hi1 : I s1' this := hI s s1' this this hi hself (hfr _)
    cases start with
    | none =>
      -- nobody to register at
      refine ⟨true, s1, s1', this, by rw [hs1], by rw [hs1'], ht1, hfr _, hi1, ?_, (hfr (· = name)).genLe rfl hg,
        (hfr (· = name)).meets rfl hm, fun y _ => (hfr (· = name)).fileUsages y name rfl⟩
      intro c uc l a huc hl ha hcan
      obtain ⟨ua, hua, hf | ⟨_, hat, _⟩⟩ := (hfr (· = name)).pending rfl hp c uc l a huc hl ha hcan
      · exact ⟨ua, hua, hf⟩
      obtain ⟨l', hc', hmem⟩ := (hfr (· = name)).up ▸ hat
      have hoff := hskip a (hc'.unique hc ▸ hmem)
      have hon := (hfr (· = name)).can hcan
      rw [hoff] at hon
      cases hon
    | some proc =>
      obtain ⟨l1, l, hl, hoff⟩ := hskip
      have hup1 : s1'.tree.up = s.tree.up := (hfr (· = name)).up
      have hproc : AtOrAbove s1'.tree.up this proc :=
        ⟨lt, hup1 ▸ hc, hl ▸ mem_append_right _ mem_cons_self⟩
      obtain ⟨s2, s2', hpar0, hpar', ht2, hfr2, hi2⟩ := hpar s1 s1' proc ht1 (hI s1' s1' this proc hi1 hproc (.refl _))
      have hup2 : s2'.tree.up = s.tree.up := hfr2.up.trans hup1
      have hname : Frames (fun f => f = name ∨ keep f) s s2' := ((hfr _).trans hfr2).mono fun f hf => ⟨hf, hf⟩
      have hgen2 : d.generation = s2'.generation name := by rw [hname.generation, hgen]
      have hoff2 : ∀ a ∈ l1, s2'.tree.can a = false := by
        intro a ha
        by_contra hon
        have := hname.can (by simpa using hon)
        rw [hoff a ha] at this
        cases this
      obtain ⟨e, s3, s3', hrun0, hrun, ht3, hfr3, hg3, hm3, hloc3, hafter⟩ := @loop_sim w d name s2' this proc lt l1 l
        propagated hw (hname.pending (.inl rfl) hp) (hname.meets (.inl rfl) hm) (hname.genLe (.inl rfl) hg) hgen2
        (hup2 ▸ hc) hl hoff2 s2 ht2
      have hfrall : Frames keep s s3' := (hname.trans hfr3).mono fun f hf => ⟨.inr hf, hkeep f hf⟩
      have hprocself : AtOrAbove s2'.tree.up proc proc := by
        obtain ⟨lp, hlp⟩ := ht2.inv'.chain proc
        exact ⟨lp, hlp, mem_cons_self⟩
      have hi3 : I s3' proc := hI s2' s3' proc proc hi2 hprocself hfr3
      have hup3 : s3'.tree.up = s.tree.up := hfrall.up
      have hloc : ∀ y, ¬AtOrAbove s.tree.up this y → s3'.fileUsages y name = s.fileUsages y name := fun y hy =>
        (hloc3 y (hup2 ▸ hy)).trans (hname.fileUsages y name (.inl rfl))
      simp only [← hs1, ← hs1', hpar0, hpar', hrun0, hrun]
      cases e with
      | done => exact ⟨true, s3, s3', proc, rfl, rfl, ht3, hfrall, hi3, hafter, hg3, hm3, hloc⟩
      | failed =>
        obtain ⟨t, t', hb, hb', htb, hupb, hsizeb, hcanb, hdis⟩ := @Twin.bubbleUp this s3 s3' none ht3
          (fun _ hx => by cases hx) "Could not register unsupported file usage combination"
        simp only [ExecTree.disableShortcuttingBubbleUp, hb, hb']
        have hfrb : ∀ k, Frames k s3' { s3' with tree := t' } :=
          fun k => ⟨hsizeb, hupb, fun h => hcanb _ h, rfl, rfl, fun _ _ _ => rfl⟩
        refine ⟨false, _, _, proc, rfl, rfl, htb, (hfrall.trans (hfrb keep)).mono fun f hf => ⟨hf, hf⟩,
          hI s3' _ proc proc hi3 ?_ (hfrb _), hafter t' hupb (hdis rfl) hcanb, (hfrb (· = name)).genLe rfl hg3,
          (hfrb (· = name)).meets rfl hm3, hloc⟩
        rw [hup3, ← hup2]
        exact hprocself
      | stale next =>
        cases next with
        | none => exact ⟨true, s3, s3', proc, rfl, rfl, ht3, hfrall, hi3, hafter, hg3, hm3, hloc⟩
        | some q =>
          obtain ⟨hql, hpend⟩ := hafter
          have hq : q ∈ lt := mem_above_this hl hql
          obtain ⟨lq1, lq, hlt, hcq⟩ := hc.of_mem hq
          have hthisq : AtOrAbove s.tree.up this q := atOrAbove_of_mem hc hq
          have hprocq : AtOrAbove s3'.tree.up proc q := hup3 ▸ atOrAbove_of_mem (hc.of_cons_append hl) hql
          obtain ⟨b, s4, s4', x, hre0, hre, ht4, hfr4, hi4, hf4, hg4, hm4, hloc4⟩ := @ih q lq s3 s3' ht3
            (hI s3' s3' proc q hi3 hprocq (.refl _)) hpend
            (fun y u hy hu => hm3 y u (hup3 ▸ hthisq.trans (hup3 ▸ hy)) hu) hg3
            (fun y hy => by
              unfold Supervisor.ignores
              rw [hfrall.jobserverFifo]
              exact hig y (hthisq.trans (hup3 ▸ hy)))
            (by rw [hfrall.generation, hgen]) (hup3 ▸ hcq) (by rw [hlt] at hn; simp at hn; omega)
          refine ⟨b, s4, s4', x, hre0, hre, ht4, (hfrall.trans hfr4).mono fun f hf => ⟨hf, hf⟩, hi4, hf4, hg4,
            fun y u hy hu => ?_, fun y hy => ?_⟩
          · by_cases hyq : AtOrAbove s3'.tree.up q y
            · exact hm4 y u (hfr4.up ▸ hyq) hu
            · rw [hloc4 y hyq] at hu
              exact hm3 y u (hfr4.up ▸ hy) hu
          · exact (hloc4 y fun h => hy (hthisq.trans (hup3 ▸ h))).trans (hloc y hy)

/-- Either all processes from `this` on ignore the file, or none does. -/
def IgnoredAlike (cfg : Config) (this : Nat) (s : Supervisor) (f : FileName) : Prop :=
  ∀ q, AtOrAbove s.tree.up this q → s.ignores cfg q f = s.ignores cfg this f

theorem ignoredAlike_of_no_fifo (h : ∀ q, s.jobserverFifo q = none) : IgnoredAlike cfg this s f := by
  intro q _
  unfold Supervisor.ignores
  rw [h q, h this]

theorem Frames.ignoredAlike (h : Frames keep s s') (hs : IgnoredAlike cfg this s f) : IgnoredAlike cfg this s' f := by
  intro q hq
  unfold Supervisor.ignores
  rw [h.jobserverFifo]
  exact hs q (h.up ▸ hq)

theorem registerPlain_sim {s0 s : Supervisor} (hw : d.WellFormed) (ht : Twin s0 s) (hf : FollowsAt s name)
    (hg : GenLe s name) (hm : MeetsAbove (d.info w) this s name) (hig : IgnoredAlike cfg this s name)
    (hgen : d.generation = s.generation name) :
    ∃ b s1 s1', registerPlain true cfg w s0 this name d = some (b, s1) ∧
      registerPlain false cfg w s this name d = some (b, s1') ∧ Twin s1 s1' ∧ Frames (· ≠ name) s s1' ∧
      FollowsAt s1' name ∧ GenLe s1' name ∧ MeetsAbove (d.info w) this s1' name := by
  obtain ⟨lt, hc⟩ := ht.inv'.chain this
  cases hi : s.ignores cfg this name with
  | true =>
    have hi0 : s0.ignores cfg this name = true := (ht.ignores this name).trans hi
    exact ⟨true, s0, s, by rw [registerPlain, register, hi0, if_pos rfl], by rw [registerPlain, register, hi, if_pos rfl],
      ht, .refl s, hf, hg, hm⟩
  | false =>
    obtain ⟨b, s1, s1', _, h0, h, ht1, hfr, _, hf1, hg1, hm1, _⟩ :=
      @register_sim w d cfg name this (fun s _ => some s) (fun s _ => some s) (fun _ _ => True) (· ≠ name) hw
        (fun _ => id) (fun _ _ _ _ _ _ _ => trivial)
        (fun s0 s q ht _ => ⟨s0, s, rfl, rfl, ht, .refl s, trivial⟩) (s.tree.size + 1) lt s0 s ht trivial hf.pending hm
        hg (fun q hq => by rw [hig q hq, hi]) hgen hc (Nat.lt_succ_of_le (ht.inv'.length_le hc))
    exact ⟨b, s1, s1', by rw [registerPlain, ht.size]; exact h0, h, ht1, hfr, hf1, hg1, hm1⟩

/-- `dir` is the parent directory something is implied about. -/
def Implied (name : FileName) (d : FileUsageUpdate) (dir : FileName) : Prop :=
  d.parentType ≠ .dontKnow ∧ name.parentDir = some dir ∧ dir ≠ []

structure DirOk (cfg : Config) (type : FileType) (dir : FileName) (s : Supervisor) (p : Nat) : Prop where
  follows : FollowsAt s dir
  genLe : GenLe s dir
  meets : MeetsAbove { type } p s dir
  ignored : IgnoredAlike cfg p s dir

theorem DirOk.move (h : DirOk cfg type dir s p)
    (hq : AtOrAbove s.tree.up p q) (hfr : Frames keep s s') (hk : keep dir) : DirOk cfg type dir s' q := by
  refine ⟨hfr.follows hk h.follows, hfr.genLe hk h.genLe, hfr.meets hk fun x u hx hu => ?_,
    hfr.ignoredAlike fun x hx => ?_⟩
  · exact h.meets x u (hq.trans hx) hu
  · rw [h.ignored x (hq.trans hx), h.ignored q hq]

theorem parentDir_ne (h : name.parentDir = some dir) : dir ≠ name := by
  unfold FileName.parentDir at h
  split at h
  · cases h
  rename_i hne
  cases h
  intro he
  have := congrArg List.length he
  rw [length_dropLast] at this
  have := length_pos_of_ne_nil hne
  omega

theorem registerParents_sim {s0 s : Supervisor} {p : Nat} (ht : Twin s0 s)
    (hi : ∀ dir, Implied name d dir → DirOk cfg d.parentType dir s p) :
    ∃ s1 s1', registerParents true cfg w name d s0 p = some s1 ∧ registerParents false cfg w name d s p = some s1' ∧
      Twin s1 s1' ∧ Frames (fun f => ∀ dir, Implied name d dir → f ≠ dir) s s1' ∧
      ∀ dir, Implied name d dir → DirOk cfg d.parentType dir s1' p := by
  unfold registerParents
  split
  swap
  · exact ⟨s0, s, rfl, rfl, ht, .refl s, hi⟩
  rename_i hne
  unfold registerParentDirectory
  cases hd : name.parentDir with
  | none => exact ⟨s0, s, rfl, rfl, ht, .refl s, hi⟩
  | some dir =>
    cases dir with
    | nil => exact ⟨s0, s, rfl, rfl, ht, .refl s, hi⟩
    | cons a as =>
      have himp : Implied name d (a :: as) := ⟨hne, hd, cons_ne_nil _ _⟩
      have hok := hi _ himp
      obtain ⟨b, s1, s1', h0, h, ht1, hfr, hf, hg, hm⟩ := @registerPlain_sim w
        (.new (s.world w) (a :: as) d.parentType false false) cfg (a :: as) p s0 s (new_typeOnly _ _ _ _ _).wellFormed ht
        hok.follows hok.genLe hok.meets hok.ignored rfl
      have hnew : FileUsageUpdate.new (s0.world w) (a :: as) d.parentType false false =
          .new (s.world w) (a :: as) d.parentType false false := by
        simp [Supervisor.world, ht.generation]
      refine ⟨s1, s1', by simp only [hnew, h0, map_some], by simp only [h, map_some], ht1,
        hfr.mono fun f hf => hf _ himp, fun dir hdir => ?_⟩
      obtain rfl : dir = a :: as := Option.some.inj (hdir.2.1.symm.trans hd)
      exact ⟨hf, hg, hm, hfr.ignoredAlike hok.ignored⟩

/-- The condition on an update to be registered: unless it is ignored, it meets the usages at
    the process and above it, for the file and for the parent directory; and no process in
    that branch has one of the two as its own jobserver fifo. -/
structure Compatible (cfg : Config) (w : World) (this : Nat) (name : FileName) (d : FileUsageUpdate)
    (s : Supervisor) : Prop where
  ignored : IgnoredAlike cfg this s name
  meets : MeetsAbove (d.info w) this s name
  dirIgnored : ∀ dir, Implied name d dir → IgnoredAlike cfg this s dir
  dirMeets : ∀ dir, Implied name d dir → MeetsAbove { type := d.parentType } this s dir

theorem registerFileUsageUpdate_sim {s0 s : Supervisor} (hw : d.WellFormed) (ht : Twin s0 s)
    (hf : ∀ f, FollowsAt s f) (hg : ∀ f, GenLe s f)
    (hcomp : s.ignores cfg this name = false → Compatible cfg w this name d s)
    (hgen : d.generation = s.generation name) :
    ∃ b s1 s1', registerFileUsageUpdate true cfg w s0 this name d = some (b, s1) ∧
      registerFileUsageUpdate false cfg w s this name d = some (b, s1') ∧ Twin s1 s1' ∧
      (∀ f, FollowsAt s1' f) ∧ ∀ f, GenLe s1' f := by
  obtain ⟨lt, hc⟩ := ht.inv'.chain this
  cases hi : s.ignores cfg this name with
  | true =>
    have hi0 : s0.ignores cfg this name = true := (ht.ignores this name).trans hi
    exact ⟨true, s0, s, by rw [registerFileUsageUpdate, register, hi0, if_pos rfl],
      by rw [registerFileUsageUpdate, register, hi, if_pos rfl], ht, hf, hg⟩
  | false =>
    have hcomp := hcomp hi
    obtain ⟨b, s1, s1', q, h0, h, ht1, hfr, hdirs, hf1, hg1, _, _⟩ :=
      @register_sim w d cfg name this (registerParents true cfg w name d) (registerParents false cfg w name d)
        (fun s p => ∀ dir, Implied name d dir → DirOk cfg d.parentType dir s p)
        (fun f => f ≠ name ∧ ∀ dir, Implied name d dir → f ≠ dir) hw (fun f hf => hf.1)
        (fun s s1 p q hok hpq hfr dir hdir => (hok dir hdir).move hpq hfr (parentDir_ne hdir.2.1))
        (fun s0 s q ht hok => by
          obtain ⟨s1, s1', h0, h, ht1, hfr, hok1⟩ := @registerParents_sim w d cfg name s0 s q ht hok
          refine ⟨s1, s1', h0, h, ht1, hfr.mono fun f hf dir hdir => ?_, hok1⟩
          rcases hf with rfl | hf
          · exact (parentDir_ne hdir.2.1).symm
          · exact hf.2 dir hdir)
        (s.tree.size + 1) lt s0 s ht
        (fun dir hdir => ⟨hf dir, hg dir, hcomp.dirMeets dir hdir, hcomp.dirIgnored dir hdir⟩) (hf name).pending
        hcomp.meets (hg name) (fun q hq => by rw [hcomp.ignored q hq, hi]) hgen hc
        (Nat.lt_succ_of_le (ht.inv'.length_le hc))
    refine ⟨b, s1, s1', by rw [registerFileUsageUpdate, ht.size]; exact h0, h, ht1, fun f => ?_, fun f => ?_⟩
    all_goals
      by_cases hfn : f = name
      · subst hfn
        first | exact hf1 | exact hg1
      by_cases hdir : Implied name d f
      · first | exact (hdirs f hdir).follows | exact (hdirs f hdir).genLe
      · have hk : f ≠ name ∧ ∀ dir, Implied name d dir → f ≠ dir := ⟨hfn, fun dir hd he => hdir (he ▸ hd)⟩
        first | exact hfr.follows hk (hf f) | exact hfr.genLe hk (hg f)

end Register

/-! ## Whole runs -/

/-- The condition on an event. Opening a file for writing registers that nothing is known. -/
def MeetsAll (cfg : Config) (s : Supervisor) : Event → Prop
  | .registerFileUsageUpdate w this name d =>
    s.ignores cfg this name = false → Compatible cfg w this name d s
  | .openForWriting w proc name => Starts cfg s name = true → s.generation name ≠ 0 →
    s.ignores cfg proc name = false → Compatible cfg w proc name (.new w name .dontKnow false false) s
  | _ => True

/-- The fast runs in which every event meets the condition; newest event first. -/
inductive FastRun (cfg : Config) (ok : Supervisor → Event → Prop) : List Event → Supervisor → Prop
  | init : FastRun cfg ok [] .init
  | step {es : List Event} {s s' : Supervisor} (e : Event) : FastRun cfg ok es s → Allowed s e → ok s e →
      step true cfg s e = some s' → FastRun cfg ok (e :: es) s'

def naiveRun (cfg : Config) : List Event → Option Supervisor
  | [] => some .init
  | e :: es => (naiveRun cfg es).bind fun s => step false cfg s e

namespace Twin

variable {s0 s0' : Supervisor}

section

variable (h : Twin s0 s)
include h

theorem none_iff (q : Nat) (f : FileName) : s0.fileUsages q f = none ↔ s.fileUsages q f = none := by
  have hsome := congrArg Option.isSome (h.fileUsages q f)
  rw [Option.isSome_map, Option.isSome_map] at hsome
  rw [← Option.isNone_iff_eq_none, ← Option.isNone_iff_eq_none, ← Option.not_isSome, ← Option.not_isSome, hsome]

theorem allowed (ha : Allowed s0 e) : Allowed s e := by
  cases e with
  | exec parent fifo => exact fun q hq => h.size ▸ ha q hq
  | setParent p q =>
    obtain ⟨h1, h2, h3, h4, h5, h6⟩ := ha
    exact ⟨h.up ▸ h1, h.up ▸ h2, h.size ▸ h3, h4, h.size ▸ h5, fun f => (h.none_iff p f).mp (h6 f)⟩
  | disableShortcuttingOnlyThis this reason => exact (h.size ▸ ha : this < s.tree.size)
  | disableShortcuttingBubbleUpToExcl this stop reason => exact ⟨h.size ▸ ha.1, h.up ▸ ha.2⟩
  | registerFileUsageUpdate w this name d => exact ⟨h.size ▸ ha.1, h.generation ▸ ha.2.1, ha.2.2⟩
  | openForWriting w proc name => exact (h.size ▸ ha : proc < s.tree.size)
  | closeForWriting name => trivial

theorem meetsAbove (hm : MeetsAbove i this s0 f) : MeetsAbove i this s f := by
  intro q u hq hu
  obtain ⟨v, hv, hc⟩ := SameCore.some_left (hu ▸ h.fileUsages q f : SameCore (s0.fileUsages q f) (some u))
  exact (hm q v (h.up ▸ hq) hv).congr hc.symm

theorem ignoredAlike (hi : IgnoredAlike cfg this s0 f) : IgnoredAlike cfg this s f := by
  intro q hq
  rw [← h.ignores, ← h.ignores]
  exact hi q (h.up ▸ hq)

theorem compatible (hc : Compatible cfg w this name d s0) : Compatible cfg w this name d s :=
  ⟨h.ignoredAlike hc.ignored, h.meetsAbove hc.meets, fun dir hd => h.ignoredAlike (hc.dirIgnored dir hd),
    fun dir hd => h.meetsAbove (hc.dirMeets dir hd)⟩

/-- Both supervisors forget the calls of the event before. -/
theorem clear : Twin { s0 with uses := [] } { s with uses := [] } :=
  { h with }

theorem withTrees (hi : t.Inv) (hi' : t'.Inv) (hs : t.size = t'.size)
    (hu : t.up = t'.up) (hc : t.can = t'.can) : Twin { s0 with tree := t } { s with tree := t' } :=
  ⟨hi, hi', hs, hu, hc, h.jobserverFifo, h.generation, h.writeOfds, h.fileUsages⟩

end

end Twin

theorem Lowered.followsAt (h : Lowered s s') (hf : FollowsAt s f) : FollowsAt s' f := by
  have hfr : Frames (fun _ => True) s s' :=
    { h with fileUsages := fun _ _ _ => by rw [h.fileUsages] }
  exact hfr.follows trivial hf

theorem Placed.followsAt (h : Placed s s' p) (hs : Sound s) (hf : FollowsAt s f) : FollowsAt s' f := by
  intro c uc l a hc hl ha hcan
  rw [h.fileUsages] at hc ⊢
  have hcp : c ≠ p := by
    rintro rfl
    rw [h.idle f] at hc
    cases hc
  have hl' := (h.chain hs.inv hcp).mp hl
  exact hf c uc l a hc hl' ha (h.can a (hs.inv.mem_lt hl' ha) ▸ hcan)

theorem openedByOther_sim {proc count other : Nat} (ht : Twin s0 s)
    (h : openedByOther s0 proc count other name = some s0') :
    ∃ s', openedByOther s proc count other name = some s' ∧ Twin s0' s' := by
  obtain ⟨common, hcom⟩ := openedByOther_common h
  obtain ⟨t, he, hi, hsize, hup, hcan⟩ := openedByOther_spec ht.inv hcom
  cases h.symm.trans he
  rw [ExecTree.commonExecAncestor, ht.size, ht.up] at hcom
  obtain ⟨t', he', hi', hsize', hup', hcan'⟩ := openedByOther_spec ht.inv' hcom
  refine ⟨_, he', hi, hi', by rw [hsize, hsize', ht.size], by rw [hup, hup', ht.up], ?_, ht.jobserverFifo,
    ht.generation, ?_, ht.fileUsages⟩
  · funext q
    rw [Bool.eq_iff_iff, hcan, hcan', ht.can, ht.up]
  · simp only [ht.writeOfds]

theorem openForWriting_sim {s0' s : Supervisor} {proc : Nat} (ht : Twin s0 s) (hf : ∀ f, FollowsAt s f)
    (hg : ∀ f, GenLe s f) (hok : MeetsAll cfg s0 (.openForWriting w proc name))
    (h : openForWriting true cfg w s0 proc name = some s0') :
    ∃ s', openForWriting false cfg w s proc name = some s' ∧ Twin s0' s' ∧
      (Starts cfg s name = true → ∀ f, FollowsAt s' f) := by
  unfold openForWriting at h ⊢
  split at h
  · rename_i hi
    cases h
    exact ⟨s, by rw [if_pos hi], ht, fun _ => hf⟩
  rename_i hi
  rw [if_neg hi]
  rw [ht.writeOfds] at h
  cases hw : s.writeOfds name with
  | some x =>
    rw [hw] at h
    dsimp only at h ⊢
    rw [ht.jobserverFifo] at h
    split at h
    · cases h
    rename_i hcount
    rw [if_neg hcount]
    split at h
    · rename_i hother
      rw [if_pos hother]
      obtain ⟨s', h', ht'⟩ := openedByOther_sim ht h
      exact ⟨s', h', ht', fun hst => by simp [Starts, hw] at hst⟩
    · rename_i hother
      rw [if_neg hother]
      cases h
      exact ⟨_, rfl, { ht with jobserverFifo := rfl, writeOfds := rfl }, fun hst => by simp [Starts, hw] at hst⟩
  | none =>
    rw [hw] at h
    dsimp only at h ⊢
    have ht1 : Twin (startGeneration s0 proc name) (startGeneration s proc name) := by
      refine { ht with generation := ?_, writeOfds := ?_ }
      · simp only [startGeneration, ht.generation]
      · simp only [startGeneration, ht.writeOfds]
    rw [ht.generation, ht1.generation] at h
    split at h
    · rename_i hz
      cases h
      exact ⟨_, by rw [if_pos hz], ht1, fun _ => hf⟩
    rename_i hz
    rw [if_neg hz]
    split at h
    · cases h
    rename_i hmax
    rw [if_neg hmax]
    have hstart : Starts cfg s0 name = true := by
      unfold Starts
      rw [ht.writeOfds, hw]
      simpa using hi
    have hg1 : ∀ f, GenLe (startGeneration s proc name) f := by
      intro f q u hu
      have hle : u.generation ≤ s.generation f := hg f q u hu
      simp only [startGeneration]
      split <;> omega
    have hnew : FileUsageUpdate.new ((startGeneration s0 proc name).world w) name .dontKnow false false =
        .new ((startGeneration s proc name).world w) name .dontKnow false false := by
      simp [Supervisor.world, ht1.generation]
    rw [hnew] at h
    obtain ⟨b, s1, s1', h0, h', ht', hf', _⟩ := @registerFileUsageUpdate_sim w
      (.new ((startGeneration s proc name).world w) name .dontKnow false false) cfg name proc
      (startGeneration s0 proc name) (startGeneration s proc name)
      (new_typeOnly _ _ _ _ _).wellFormed ht1 hf hg1 (fun hig => by
        have hc := ht.compatible (hok hstart (ht.generation ▸ hz) (ht.ignores proc name ▸ hig))
        exact ⟨hc.ignored, hc.meets, fun dir hd => absurd rfl hd.1, fun dir hd => absurd rfl hd.1⟩) rfl
    rw [h0] at h
    cases h
    exact ⟨s1', by rw [h']; rfl, ht', fun _ => hf'⟩

theorem step_sim (ht : Twin s0 s) (hs : Sound s) (hf : ∀ f, FollowsAt s f)
    (ha : Allowed s0 e) (hok : MeetsAll cfg s0 e) (h : step true cfg s0 e = some s0') :
    ∃ s', step false cfg s e = some s' ∧ Twin s0' s' ∧ ∀ f, FollowsAt s' f := by
  have ha' := ht.allowed ha
  have hfollow : ∀ s', step false cfg s e = some s' → (match e with
      | .registerFileUsageUpdate .. => False
      | .openForWriting _ _ name => Starts cfg s name = false
      | _ => True) → ∀ f, FollowsAt s' f := by
    intro s' h' hother f
    cases step_effect hs ha' h' with
    | lowered hl _ => exact hl.followsAt (hf f)
    | placed p hp _ => exact hp.followsAt hs (hf f)
    | registered _ => exact hother.elim
    | started hst _ _ =>
      rw [show Starts cfg s _ = false from hother] at hst
      cases hst
  have hgen : ∀ f, GenLe s f := fun f q u hu => hs.le q f u hu
  cases e with
  | exec parent fifo =>
    obtain ⟨t, he, hi, hsz, hup, hcan⟩ := ht.inv.exec ha
    obtain ⟨t', he', hi', hsz', hup', hcan'⟩ := hs.inv.exec ha'
    simp only [step, he, map_some, Option.some.injEq] at h
    subst h
    have hrun : step false cfg s (.exec parent fifo) = some { s with
        uses := [], tree := t', jobserverFifo := fun q => if q = s.tree.size then fifo else s.jobserverFifo q } := by
      simp only [step, he', map_some]
    refine ⟨_, hrun, ⟨hi, hi', by rw [hsz, hsz', ht.size], ?_, ?_, ?_, ht.generation, ht.writeOfds, ht.fileUsages⟩,
      hfollow _ hrun trivial⟩
    · funext x
      rw [hup, hup', ht.size, ht.up]
    · funext x
      rw [hcan, hcan', ht.size, ht.can]
    · simp only [ht.size, ht.jobserverFifo]
  | setParent p q =>
    obtain ⟨_, hleaf, hq, hne, _⟩ := ha
    obtain ⟨_, hleaf', hq', _⟩ := ha'
    obtain ⟨t, he, hi, hsz, hup, hcan⟩ := ht.inv.setParent hleaf hq hne
    obtain ⟨t', he', hi', hsz', hup', hcan'⟩ := hs.inv.setParent hleaf' hq' hne
    simp only [step, he, map_some, Option.some.injEq] at h
    subst h
    have hrun : step false cfg s (.setParent p q) = some { s with uses := [], tree := t' } := by
      simp only [step, he', map_some]
    refine ⟨_, hrun, ht.clear.withTrees hi hi' (by rw [hsz, hsz', ht.size]) ?_ (by rw [hcan, hcan', ht.can]),
      hfollow _ hrun trivial⟩
    funext x
    rw [hup, hup', ht.up]
  | disableShortcuttingOnlyThis this reason =>
    simp only [step, Option.some.injEq] at h
    subst h
    have hrun : step false cfg s (.disableShortcuttingOnlyThis this reason) =
      some { s with uses := [], tree := s.tree.disableShortcuttingOnlyThis this reason none } := rfl
    refine ⟨_, hrun, ht.clear.withTrees (ht.inv.disable none) (hs.inv.disable none) (by simp [ht.size])
      (by simp [ht.up]) (by simp [ht.can]), hfollow _ hrun trivial⟩
  | disableShortcuttingBubbleUpToExcl this stop reason =>
    obtain ⟨t, t', he, he', ht', _⟩ := @Twin.bubbleUp this s0 s stop ht ha'.2 reason
    simp only [step, he, map_some, Option.some.injEq] at h
    subst h
    have hrun : step false cfg s (.disableShortcuttingBubbleUpToExcl this stop reason) =
        some { s with uses := [], tree := t' } := by
      simp only [step, he', map_some]
    exact ⟨_, hrun, ht'.clear, hfollow _ hrun trivial⟩
  | registerFileUsageUpdate w this name d =>
    obtain ⟨b, s1, s1', h0, h', ht', hf', _⟩ := @registerFileUsageUpdate_sim w d cfg name this
      { s0 with uses := [] } { s with uses := [] } ha.2.2 ht.clear hf hgen
      (fun hig => by
        have hc := ht.compatible (hok (ht.ignores this name ▸ hig))
        exact { hc with }) ha'.2.1
    simp only [step, h0, map_some, Option.some.injEq] at h
    subst h
    exact ⟨s1', by simp only [step, h', map_some], ht', hf'⟩
  | openForWriting w proc name =>
    obtain ⟨s', h', ht', hf'⟩ := @openForWriting_sim w cfg name { s0 with uses := [] } s0' { s with uses := [] } proc
      ht.clear hf hgen (fun h1 h2 h3 => by
        have hc := hok h1 h2 h3
        exact { hc with }) h
    refine ⟨s', h', ht', ?_⟩
    cases hst : Starts cfg s name with
    | true => exact hf' hst
    | false => exact hfollow s' h' hst
  | closeForWriting name =>
    simp only [step, closeForWriting] at h
    have hrun : ∃ s', step false cfg s (.closeForWriting name) = some s' ∧ Twin s0' s' := by
      simp only [step, closeForWriting]
      rw [ht.writeOfds] at h
      split at h
      · rename_i hi
        cases h
        exact ⟨{ s with uses := [] }, by rw [if_pos hi], ht.inv, ht.inv', ht.size, ht.up, ht.can, ht.jobserverFifo,
          ht.generation, rfl, ht.fileUsages⟩
      · rename_i hi
        rw [if_neg hi]
        cases hw : s.writeOfds name with
        | none => rw [hw] at h; cases h
        | some x =>
          rw [hw] at h
          dsimp only at h ⊢
          split at h
          · cases h
          rename_i hcount
          rw [if_neg hcount]
          cases h
          exact ⟨_, rfl, { ht with writeOfds := rfl }⟩
    obtain ⟨s', h', ht'⟩ := hrun
    exact ⟨s', h', ht', hfollow s' h' trivial⟩

theorem FastRun.twin (h : FastRun cfg (MeetsAll cfg) es s) :
    ∃ s', naiveRun cfg es = some s' ∧ Twin s s' ∧ Sound s' ∧ ∀ f, FollowsAt s' f := by
  induction h with
  | init =>
    exact ⟨.init, rfl, ⟨ExecTree.empty_inv, ExecTree.empty_inv, rfl, rfl, rfl, rfl, rfl, rfl, fun _ _ => rfl⟩, init_sound,
      fun f c uc l a => nofun⟩
  | step e _ ha hok hstep ih =>
    obtain ⟨s', hrun, ht, hs, hf⟩ := ih
    obtain ⟨s'', hstep', ht', hf'⟩ := step_sim ht hs hf ha hok hstep
    exact ⟨s'', by rw [naiveRun, hrun]; exact hstep', ht', step_sound hs (ht.allowed ha) hstep', hf'⟩

/-- If every update meets the usages at the process and above it, the fast supervisor has
    the flags and, up to where they came from, the usages of the naive one. -/
theorem fast_bubbling_is_naive (h : FastRun cfg (MeetsAll cfg) es s) :
    ∃ s', naiveRun cfg es = some s' ∧ ∀ p, s.tree.can p = s'.tree.can p ∧
      ∀ f, (s.fileUsages p f).map core = (s'.fileUsages p f).map core := by
  obtain ⟨s', hrun, ht, _⟩ := h.twin
  exact ⟨s', hrun, fun p => ⟨by rw [ht.can], fun f => ht.fileUsages p f⟩⟩

/-- A child looks at a symbolic link with lstat(), which tells nothing about the file. -/
def lstatLink : FileUsageUpdate := .getFromStatParams .empty ["f"] .lnk 0 0 none

def foundIt : FileUsageUpdate := .new .empty ["f"] .exist false false

/-- The child learns that the file exists after it knew nothing about it: both processes
    know it then. -/
theorem fast_bubbling_is_naive_for_a_discovery :
    ∃ es s, FastRun {} (MeetsAll {}) es s ∧ ∃ s', naiveRun {} es = some s' ∧ ∀ p, s.tree.can p = s'.tree.can p ∧
      ∀ f, (s.fileUsages p f).map core = (s'.fileUsages p f).map core := by
  have hfifo : ∀ q, (if q = 1 then none else if q = 0 then none else none : Option FileName) = none := fun q => by
    rw [ite_self, ite_self]
  have h0 : FastRun {} (MeetsAll {}) [] .init := .init
  have h1 := h0.step (.exec none none) (nofun) trivial rfl
  have h2 := h1.step (.exec (some 0) none) (fun q hq => by cases hq; decide) trivial rfl
  have h3 := h2.step (.registerFileUsageUpdate .empty 1 ["f"] lstatLink)
    ⟨by decide, rfl, getFromStatParams_wellFormed _ _ _ _ _ _⟩
    (fun _ => ⟨ignoredAlike_of_no_fifo hfifo, fun q u _ => nofun, fun _ h => absurd rfl h.1, fun _ h => absurd rfl h.1⟩) rfl
  have h4 := h3.step (.registerFileUsageUpdate .empty 1 ["f"] foundIt)
    ⟨by decide, rfl, (new_typeOnly _ _ _ _ _).wellFormed⟩
    (fun _ => ⟨ignoredAlike_of_no_fifo hfifo, (fun q u hq hu => by
      change (if q = 0 ∧ ["f"] = ["f"] then some ({ propagated := false } : FileUsage) else
        if q = 1 ∧ ["f"] = ["f"] then some ({ propagated := false } : FileUsage) else none) = some u at hu
      split at hu
      · cases hu
        exact ⟨fun _ => nofun, fun _ => nofun, fun _ => rfl⟩
      split at hu
      · cases hu
        exact ⟨fun _ => nofun, fun _ => nofun, fun _ => rfl⟩
      · cases hu), fun _ h => absurd rfl h.1, fun _ h => absurd rfl h.1⟩) rfl
  exact ⟨_, _, h4, fast_bubbling_is_naive h4⟩

/-- A child knows nothing about a file, its parent finds that it exists, and the child
    registers again that it knows nothing. Nothing changes at the child, so the code stops
    there; merged at the parent, the update would have made it forget. -/
theorem an_early_stop_misses_the_ancestor :
    ∃ es s s', FastRun {} (fun _ _ => True) es s ∧ naiveRun {} es = some s' ∧
      s.tree.can 0 = true ∧ s'.tree.can 0 = true ∧
      (s.fileUsages 0 ["f"]).map (·.initialState.type) = some .exist ∧
      (s'.fileUsages 0 ["f"]).map (·.initialState.type) = some .dontKnow := by
  have h0 : FastRun {} (fun _ _ => True) [] .init := .init
  have h1 := h0.step (.exec none none) (nofun) trivial rfl
  have h2 := h1.step (.exec (some 0) none) (fun q hq => by cases hq; decide) trivial rfl
  have h3 := h2.step (.registerFileUsageUpdate .empty 1 ["f"] lstatLink)
    ⟨by decide, rfl, getFromStatParams_wellFormed _ _ _ _ _ _⟩ trivial rfl
  have h4 := h3.step (.registerFileUsageUpdate .empty 0 ["f"] foundIt)
    ⟨by decide, rfl, (new_typeOnly _ _ _ _ _).wellFormed⟩ trivial rfl
  have h5 := h4.step (.registerFileUsageUpdate .empty 1 ["f"] lstatLink)
    ⟨by decide, rfl, getFromStatParams_wellFormed _ _ _ _ _ _⟩ trivial rfl
  exact ⟨_, _, _, h5, rfl, rfl, rfl, rfl, rfl⟩

end Firebuild
