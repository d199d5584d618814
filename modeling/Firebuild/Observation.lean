/-
  Firebuild.Observation — a process is replayed only where its calls would have answered the
  same (`process.cc`: the handlers of stat, access, mkdir, unlink, rmdir, symlink, scandir and
  truncate; `execed_process.cc`: `register_file_usage_update`).

  A process P is fixed. A run goes through the events of the supervisor and, in any order
  between them, system calls of P: each is answered by some file system and reported. The
  results so far are kept in a list.

  What P's recorded initial states should determine is every result in the list: a file system
  that satisfies them all answers each of the calls with the same success or the same error.
  That holds as long as every call is one of those in the table of `Call.determined`, made on a
  path (in a directory) P has not written yet, and no merge forgets what P knows
  (`ObservedOk`). The handlers of unlink, rmdir and symlink record nothing of most failures, and
  what others record can be satisfied by states that answer differently.

  Proved: `observed_results_are_pinned`; `a_failed_unlink_is_not_recorded`.
-/

import Firebuild.Pinning

namespace Firebuild

open Lib.Forest

/-- A call that was made: what answered it, and what the supervisor could look up then. -/
structure Made where
  call : Call
  fs : Fs
  cut : Hash → Nat → Hash
  isInReadOnlyLocation : FileName → Bool
  preOpenSent : Bool

namespace Made

def result (m : Made) : Result := m.fs.answer m.call

def world (m : Made) (s : Supervisor) : World := s.world ((m.fs.after m.cut m.call).world m.isInReadOnlyLocation)

def handling (m : Made) (s : Supervisor) : Handling := m.call.handling (m.world s) m.result m.preOpenSent

end Made

inductive Moment where
  | event (e : Event)
  | call (m : Made)

def Moment.observes : Moment → List (Call × Result)
  | event _ => []
  | call m => [(m.call, m.result)]

def observe (cfg : Config) (p : Nat) (s : Supervisor) : Moment → Option Supervisor
  | .event e => step true cfg s e
  | .call m => carryOut true cfg (m.world s) s p (m.handling s)

/-- The callers' promises; only results other than EINTR and EFAULT are reported. -/
def Promised (p : Nat) (s : Supervisor) : Moment → Prop
  | .event e => Allowed s e
  | .call m => p < s.tree.size ∧ m.result.reported = true

inductive Observed (cfg : Config) (p : Nat) (ok : Supervisor → Moment → Prop) :
    Supervisor → List (Call × Result) → Prop
  | init : Observed cfg p ok .init []
  | step {s s' : Supervisor} {obs : List (Call × Result)} (m : Moment) : Observed cfg p ok s obs → Promised p s m →
      ok s m → observe cfg p s m = some s' → Observed cfg p ok s' (m.observes ++ obs)

/-- Every file system that satisfies what `p` has recorded answers the call like this. -/
def Determined (plain : Bool) (s : Supervisor) (p : Nat) (c : Call) (r : Result) : Prop :=
  ∀ fs, Ordinary plain fs c.name →
    (∀ f u, s.fileUsages p f = some u → fs.nodes.matchesInfo f u.initialState = true) →
    (fs.answer c).error = r.error

/-! ## The condition on a step -/

/-- A merge of `i` at `p` forgets nothing about `f`. -/
def Supervisor.RetainsAt (s : Supervisor) (p : Nat) (f : FileName) (i : FileInfo) : Prop :=
  ∀ u, s.fileUsages p f = some u → Retains u i

/-- `p` watches `f` and has not written it yet, and a merge of `i` forgets nothing. -/
structure Supervisor.TakesAt (cfg : Config) (s : Supervisor) (p : Nat) (f : FileName) (i : FileInfo) : Prop where
  ignored : s.ignores cfg p f = false
  unwritten : ∀ u, s.fileUsages p f = some u → u.written = false
  retains : s.RetainsAt p f i

/-- No registration from the subtree of `p` makes it forget something. -/
def EventOk (p : Nat) (s : Supervisor) : Event → Prop
  | .registerFileUsageUpdate w this name d => AtOrAbove s.tree.up this p →
      s.RetainsAt p name (d.info w) ∧ ∀ dir, Implied name d dir → s.RetainsAt p dir { type := d.parentType }
  | .openForWriting _ proc name => AtOrAbove s.tree.up proc p → s.RetainsAt p name {}
  | _ => True

/-- The result is in the table, and the record is taken in. -/
structure CallOk (plain : Bool) (cfg : Config) (p : Nat) (s : Supervisor) (m : Made) : Prop where
  determined : m.call.determined plain (m.world s) m.result = true
  takes : ∀ name d reason next, (m.handling s).reaction = .register name d reason next →
    s.TakesAt cfg p name (d.info (m.world s)) ∧ ∀ dir, Implied name d dir → s.TakesAt cfg p dir { type := d.parentType }

/-- While `p` is shortcutable. -/
def ObservedOk (plain : Bool) (cfg : Config) (p : Nat) (s : Supervisor) (m : Moment) : Prop :=
  s.tree.can p = true →
    match m with
    | .event e => EventOk p s e
    | .call m => CallOk plain cfg p s m

/-! ## Knowledge grows -/

def Grows (p : Nat) (s s' : Supervisor) : Prop :=
  ∀ f u, s.fileUsages p f = some u → ∃ u', s'.fileUsages p f = some u' ∧ u'.initialState.Entails u.initialState

variable {plain : Bool} {cfg : Config} {p : Nat} {s s' : Supervisor} {w : World} {name : FileName} {d : FileUsageUpdate}

theorem Grows.ofEq (h : ∀ f, s'.fileUsages p f = s.fileUsages p f) : Grows p s s' :=
  fun f u hu => ⟨u, (h f).trans hu, fun _ he => he⟩

theorem Determined.grows (h : Determined plain s p c r) (hg : Grows p s s') :
    Determined plain s' p c r := by
  intro fs hfs hsat
  refine h fs hfs fun f u hu => ?_
  obtain ⟨u', hu', hent⟩ := hg f u hu
  exact Nodes.matchesInfo_of_entails hent (hsat f u' hu')

theorem Learned.grows (h : Learned w (UpdateFor g w name d) s s')
    (hname : s.RetainsAt p name (d.info w))
    (hdir : ∀ dir, Implied name d dir → s.RetainsAt p dir { type := d.parentType }) : Grows p s s' := by
  intro f u hu
  have hl := h.usage p f
  rw [hu] at hl
  by_cases hf : f = name
  · subst hf
    obtain ⟨u', hu', hent, _⟩ := Learns.entails (fun d' hd' => updateFor_name hd') (hname u hu) hl
    exact ⟨u', hu', hent⟩
  by_cases hi : Implied name d f
  · obtain ⟨u', hu', hent, _⟩ := Learns.entails
      (fun d' hd' => (updateFor_dir hf hd').2) (hdir f hi u hu) hl
    exact ⟨u', hu', hent⟩
  · refine ⟨u, ?_, fun _ he => he⟩
    rw [h.usage_eq (fun d' hd' => hi (updateFor_dir hf hd').1) p, hu]

/-- What `open_for_writing()` does to the usages: nothing, or it registers an update that
    knows nothing. -/
theorem openForWriting_learned (h : openForWriting quick cfg w s proc name = some s') :
    s'.fileUsages = s.fileUsages ∨
      ∃ d : FileUsageUpdate, d.info w = {} ∧ d.parentType = .dontKnow ∧
        Learned w (UpdateFor (startGeneration s proc name).generation w name d) (startGeneration s proc name) s' := by
  unfold openForWriting at h
  split at h
  · cases h
    exact .inl rfl
  split at h
  · split at h
    · cases h
    split at h
    · left
      unfold openedByOther at h
      split at h
      · cases h
      split at h
      · cases h
      split at h
      · split at h
        · cases h
        · cases h
          rfl
      · cases h
        rfl
    · cases h
      exact .inl rfl
  · dsimp only at h
    split at h
    · cases h
      exact .inl rfl
    split at h
    · cases h
    · obtain ⟨⟨b, s1⟩, hr, h⟩ := Option.map_eq_some_iff.mp h
      cases h
      exact .inr ⟨_, rfl, rfl, registerFileUsageUpdate_learned hr⟩

variable {e : Event}

theorem event_grows (hs : Sound s) (ha : Allowed s e) (hok : EventOk p s e)
    (h : step true cfg s e = some s') : Grows p s s' := by
  cases step_effect hs ha h with
  | lowered hl _ => exact .ofEq fun f => by rw [hl.fileUsages]
  | placed q hq _ => exact .ofEq fun f => by rw [hq.fileUsages]
  | @registered w this name d _ hreg =>
    by_cases hp : AtOrAbove s.tree.up this p
    · obtain ⟨⟨b, s1⟩, hr, h⟩ := Option.map_eq_some_iff.mp h
      cases h
      exact (registerFileUsageUpdate_learned hr).grows (hok hp).1 (hok hp).2
    · exact .ofEq fun f => hreg.outside rfl fun h => hp h.1
  | @started w proc name d _ _ _ hreg =>
    by_cases hp : AtOrAbove s.tree.up proc p
    · rcases openForWriting_learned h with he | ⟨d, hinfo, hpar, hl⟩
      · exact .ofEq fun f => by rw [he]
      · refine hl.grows ?_ fun dir hd => absurd hpar hd.1
        rw [hinfo]
        exact hok hp
    · exact .ofEq fun f => hreg.outside rfl fun h => hp h.1

/-! ## What a call does -/

/-- An update carries the generation of the path it is registered for, and it is the only
    one. -/
def Reaction.Fresh (w : World) : Reaction → Prop
  | .register name d _ next => d.generation = w.generation name ∧ next = .ignore
  | .ignore | .disable _ | .abort => True

theorem updateFromEnotdir_generation (w : World) (d : FileUsageUpdate) (f : FileName) :
    (d.updateFromEnotdir w f).generation = d.generation := by
  unfold FileUsageUpdate.updateFromEnotdir
  split
  · rfl
  · rfl
  · split <;> rfl

/-- The open() of a truncate(), without O_CREAT. -/
theorem getFromOpenParams_generation (w : World) (f : FileName) (trunc : Bool) (err : Option Errno) :
    (FileUsageUpdate.getFromOpenParams w f { write := true, trunc } 0 err false).generation = w.generation f := by
  cases err with
  | none =>
    cases trunc <;> rfl
  | some err =>
    simp only [FileUsageUpdate.getFromOpenParams, FileUsageUpdate.getFromFailedOpenForWriting, if_true]
    split <;> first | rfl | exact updateFromEnotdir_generation w _ f

theorem Call.handling_fresh (w : World) (c : Call) (r : Result) (pre : Bool) :
    (c.handling w r pre).reaction.Fresh w := by
  cases c with
  | stat name follow =>
    cases r with
    | done | status _ _ _ | failed _ =>
      refine ⟨?_, rfl⟩
      unfold FileUsageUpdate.getFromStatParams
      split <;> first | rfl | (split <;> rfl)
  | access name asked =>
    simp only [Call.handling, Process.handleFaccessat]
    split
    · exact ⟨rfl, rfl⟩
    · split
      · exact ⟨rfl, rfl⟩
      split
      · exact ⟨rfl, rfl⟩
      · split
        · trivial
        · exact ⟨rfl, rfl⟩
    · exact ⟨rfl, rfl⟩
  | mkdir name =>
    refine ⟨?_, rfl⟩
    unfold FileUsageUpdate.getFromMkdirParams
    split <;> first | rfl | (split <;> rfl)
  | unlink name | rmdir name =>
    simp only [Call.handling, Process.handleRmdir, Process.handleUnlink]
    split
    · exact ⟨rfl, rfl⟩
    · exact ⟨rfl, rfl⟩
    · trivial
  | symlink name =>
    simp only [Call.handling, Process.handleSymlink]
    split <;> trivial
  | scandir name =>
    simp only [Call.handling, Process.handleScandirat]
    split
    · trivial
    · trivial
    · exact ⟨rfl, rfl⟩
    · trivial
    · exact ⟨rfl, rfl⟩
  | truncate name length =>
    simp only [Call.handling, Process.handleTruncate]
    split
    · trivial
    · exact ⟨getFromOpenParams_generation _ _ _ _, rfl⟩

theorem Closed.sound (h : Closed s s') (hs : Sound s) : Sound s' := by
  refine ⟨by rw [h.tree]; exact hs.inv, fun p f hp => ?_, fun p f u hu => ?_, fun c f l a hc ha hcan hsome => ?_⟩
  · rw [h.fileUsages]
    exact hs.fresh p f (h.tree ▸ hp)
  · rw [h.fileUsages] at hu
    rw [h.generation]
    exact hs.le p f u hu
  · rw [h.fileUsages] at hsome ⊢
    rw [h.tree] at hc hcan
    exact hs.existsUp c f l a hc ha hcan hsome

theorem disable_sound (hs : Sound s) (h : disable p reason s = some s') :
    Sound s' ∧ s'.tree.size = s.tree.size ∧ s'.fileUsages = s.fileUsages ∧ s'.tree.can p = false := by
  obtain ⟨t, ht, h⟩ := Option.map_eq_some_iff.mp h
  cases h
  obtain ⟨t', ht', hd⟩ := @ExecTree.Inv.disabledTo s.tree p none hs.inv (fun _ hx => by cases hx) reason
  cases ht.symm.trans ht'
  refine ⟨⟨hd.inv, fun q f hq => ?_, hs.le, fun c f l a hc ha hcan hsome => ?_⟩, hd.size, rfl, ExecTree.bubbleUp_this ht⟩
  · exact hs.fresh q f (hd.size ▸ hq)
  · exact hs.existsUp c f l a (hd.up ▸ hc) ha ((hd.can a).mp hcan).1 hsome

/-- Registering an update, and disabling the process if that fails. -/
theorem react_register (hs : Sound s) (hu : s.uses = []) (hp : p < s.tree.size)
    (hg : d.generation = s.generation name) (h : react true cfg w p (.register name d reason .ignore) s = some s') :
    Sound s' ∧ s'.tree.size = s.tree.size ∧ ∃ b s1, registerFileUsageUpdate true cfg w s p name d = some (b, s1) ∧
      s'.fileUsages = s1.fileUsages ∧ (s'.tree.can p = true → s1.tree.can p = true) := by
  obtain ⟨b, s1, hr, hreg⟩ := @registerFileUsageUpdate_registered true cfg w name d s p hs.inv hs.existsUp hg
  have hs1 : Sound s1 := by
    refine hreg.sound hs fun c f hcf => ?_
    rcases hreg.mine c f hcf with hcf | ⟨hc, _⟩
    · rw [hu] at hcf
      cases hcf
    · exact atOrAbove_lt hs.inv hp hc
  rw [react, hr] at h
  cases b with
  | true =>
    cases h
    exact ⟨hs1, hreg.size, true, _, hr, rfl, id⟩
  | false =>
    cases reason with
    | none =>
      cases h
      exact ⟨hs1, hreg.size, false, _, hr, rfl, id⟩
    | some reason =>
      obtain ⟨hs', hsize, hus, hoff⟩ := disable_sound hs1 h
      exact ⟨hs', hsize.trans hreg.size, false, s1, hr, hus, fun hcan => by rw [hoff] at hcan; cases hcan⟩

variable {propagated : Bool} {fu : Option FileUsage} {u : FileUsage}

/-- A merge into an unwritten usage needs the update's type. -/
theorem mergeAt_typed (h : mergeAt w d propagated fu = .ok u) (hw : ∀ v, fu = some v → v.written = false) :
    d.getInitialType w ≠ none := by
  obtain ⟨hm, _⟩ := mergeAt_ok h
  have hnot : (fu.getD (.get .dontKnow)).written = false := by
    cases fu with
    | none => rfl
    | some v => exact hw v rfl
  obtain ⟨type, d1, _, ht, _⟩ := FileUsage.merge_typed hnot hm
  simp [ht]

/-- What is taken in is known from then on. -/
theorem takes_entails
    (ht : s.TakesAt cfg p name (d.info w)) (hm : mergeAt w d propagated (s.fileUsages p name) = .ok u)
    (hu : ∀ d', updates d' → d' = d) (hl : Learns w updates (some u) fu) :
    ∃ u', fu = some u' ∧ u'.initialState.Entails (d.info w) := by
  obtain ⟨hm, _⟩ := mergeAt_ok hm
  have hold : ((s.fileUsages p name).getD (.get .dontKnow)).written = false ∧
      Retains ((s.fileUsages p name).getD (.get .dontKnow)) (d.info w) := by
    cases hfu : s.fileUsages p name with
    | none => exact ⟨rfl, .fresh _⟩
    | some v => exact ⟨ht.unwritten v hfu, ht.retains v hfu⟩
  have hnew := ((merge_entails_iff hold.1 hm).mpr (hold.2.unwritten hold.1)).2
  obtain ⟨u', hu', hent, _⟩ := Learns.entails hu (hold.2.after hm) hl
  exact ⟨u', hu', hent.trans hnew⟩

structure CallEffect (plain : Bool) (p : Nat) (s s' : Supervisor) (c : Call) (r : Result) : Prop where
  sound : Sound s'
  size : s'.tree.size = s.tree.size
  can : s'.tree.can p = true → s.tree.can p = true
  grows : s'.tree.can p = true → Grows p s s'
  determined : s'.tree.can p = true → Determined plain s' p c r

theorem call_effect (hs : Sound s) (hp : p < s.tree.size) (hok : s.tree.can p = true → CallOk plain cfg p s m)
    (h : carryOut true cfg (m.world s) s p (m.handling s) = some s') :
    CallEffect plain p s s' m.call m.result := by
  obtain ⟨s0, hclose, h⟩ := Option.bind_eq_some_iff.mp h
  have hc := closeAll_closed hclose
  have hs0 : Sound s0 := hc.sound { hs with }
  have hfresh : (m.handling s).reaction.Fresh (m.world s) := Call.handling_fresh _ _ _ _
  have hpins := @determined_pins plain m.fs m.cut m.isInReadOnlyLocation s.generation m.call m.preOpenSent
  have htakes := fun hcan => (hok hcan).takes
  change _ → (m.handling s).reaction.Pins plain (m.world s) m.call m.result at hpins
  cases hreact : (m.handling s).reaction with
  | abort => rw [hreact] at h; cases h
  | ignore =>
    rw [hreact] at h hpins
    cases h
    refine ⟨hs0, by rw [hc.tree], fun hcan => (by rwa [hc.tree] at hcan), fun _ => .ofEq fun f => (by rw [hc.fileUsages]),
      fun hcan => ?_⟩
    rw [hc.tree] at hcan
    exact (hpins (hok hcan).determined).elim
  | disable reason =>
    rw [hreact] at h
    obtain ⟨hs', hsize, _, hoff⟩ := disable_sound hs0 h
    have hno : s'.tree.can p = true → False := fun hcan => by rw [hoff] at hcan; cases hcan
    exact ⟨hs', hsize.trans (by rw [hc.tree]), fun hcan => (hno hcan).elim, fun hcan => (hno hcan).elim,
      fun hcan => (hno hcan).elim⟩
  | register name d reason next =>
    rw [hreact] at h hfresh hpins
    simp only [hreact, Reaction.register.injEq] at htakes
    obtain ⟨hgen, rfl⟩ := hfresh
    have hg : d.generation = s0.generation name := hgen.trans (congrFun hc.generation name).symm
    obtain ⟨hs', hsize, b, s1, hr, hus, hcan1⟩ := react_register hs0 hc.uses (hc.tree ▸ hp) hg h
    have hlearned := registerFileUsageUpdate_learned hr
    have hcan0 : s'.tree.can p = true → s.tree.can p = true := by
      intro hcan
      by_contra hoff
      have hoff : s0.tree.can p = false := by simpa [hc.tree] using hoff
      rw [hlearned.can p hoff] at hcan1
      exact nomatch hcan1 hcan
    have htake : ∀ hcan : s'.tree.can p = true, s0.TakesAt cfg p name (d.info (m.world s)) ∧
        ∀ dir, Implied name d dir → s0.TakesAt cfg p dir { type := d.parentType } := by
      intro hcan
      have hmove : ∀ f i, s.TakesAt cfg p f i → s0.TakesAt cfg p f i := by
        intro f i ht
        refine ⟨?_, fun u hu => ht.unwritten u (hc.fileUsages ▸ hu), fun u hu => ht.retains u (hc.fileUsages ▸ hu)⟩
        have := ht.ignored
        unfold Supervisor.ignores at this ⊢
        rwa [hc.jobserverFifo]
      obtain ⟨hn, hd⟩ := htakes (hcan0 hcan) name d reason .ignore ⟨rfl, rfl, rfl, rfl⟩
      exact ⟨hmove _ _ hn, fun dir hdir => hmove _ _ (hd dir hdir)⟩
    refine ⟨hs', hsize.trans (by rw [hc.tree]), hcan0, fun hcan => ?_, fun hcan fs hfs hsat => ?_⟩
    · have hgrow : Grows p s0 s1 :=
        hlearned.grows (htake hcan).1.retains fun dir hdir => ((htake hcan).2 dir hdir).retains
      intro f u hu
      obtain ⟨u', hu', hent⟩ := hgrow f u (by rw [hc.fileUsages]; exact hu)
      exact ⟨u', by rw [hus]; exact hu', hent⟩
    · obtain ⟨hn, hd⟩ := htake hcan
      obtain ⟨⟨u, hm, hl⟩, hdir⟩ := registerFileUsageUpdate_here hn.ignored (by rw [hc.tree]; exact hcan0 hcan) hr
        (hcan1 hcan)
      obtain ⟨_, hpin⟩ := hpins (hok (hcan0 hcan)).determined
      refine (hpin.resolve_left (mergeAt_typed hm hn.unwritten)) fs hfs ?_ fun dir hi => ?_
      · obtain ⟨u', hu', hent⟩ := takes_entails hn hm (fun d' hd' => updateFor_name hd') hl
        exact Nodes.matchesInfo_of_entails hent (hsat name u' (by rw [hus]; exact hu'))
      obtain ⟨v, hmv, hlv⟩ := hdir dir hi (hd dir hi).ignored
      obtain ⟨v', hv', hent⟩ := takes_entails
        (hd dir hi) hmv (fun d' hd' => (updateFor_dir (parentDir_ne hi.2.1) hd').2) hlv
      exact Nodes.matchesInfo_of_entails hent (hsat dir v' (by rw [hus]; exact hv'))

/-! ## Runs -/

/-- Flags are only lowered, in every run. -/
theorem event_can_le (hs : Sound s) (ha : Allowed s e) (hp : p < s.tree.size)
    (h : step true cfg s e = some s') (hcan : s'.tree.can p = true) : s.tree.can p = true := by
  cases step_effect hs ha h with
  | lowered hl _ => exact hl.can hcan
  | placed q hq _ => rwa [← hq.can p hp]
  | registered hreg | started _ _ hreg => exact hreg.can hcan

/-- What holds in every state of a run: `p` has made calls only since it exists, and while
    it is shortcutable the results of all of them are determined. -/
structure ObsInv (plain : Bool) (p : Nat) (s : Supervisor) (obs : List (Call × Result)) : Prop where
  sound : Sound s
  born : obs ≠ [] → p < s.tree.size
  determined : s.tree.can p = true → ∀ x ∈ obs, Determined plain s p x.1 x.2

theorem step_size_le (hs : Sound s) (ha : Allowed s e) (h : step true cfg s e = some s') :
    s.tree.size ≤ s'.tree.size := by
  cases step_effect hs ha h with
  | lowered hl _ => exact Nat.le_of_eq hl.size.symm
  | placed q hq _ => exact hq.size
  | registered hreg | started _ _ hreg => exact Nat.le_of_eq hreg.size.symm

variable {obs : List (Call × Result)}

theorem observe_inv (hi : ObsInv plain p s obs) (hpr : Promised p s m)
    (hok : ObservedOk plain cfg p s m) (h : observe cfg p s m = some s') : ObsInv plain p s' (m.observes ++ obs) := by
  cases m with
  | event e =>
    refine ⟨step_sound hi.sound hpr h, fun hne => ?_, fun hcan x hx => ?_⟩
    · exact Nat.lt_of_lt_of_le (hi.born hne) (step_size_le hi.sound hpr h)
    · have hp : p < s.tree.size := hi.born (List.ne_nil_of_mem hx)
      have hcan0 := event_can_le hi.sound hpr hp h hcan
      exact (hi.determined hcan0 x hx).grows (event_grows hi.sound hpr (hok hcan0) h)
  | call m =>
    have he := call_effect hi.sound hpr.1 hok h
    refine ⟨he.sound, fun _ => he.size ▸ hpr.1, fun hcan x hx => ?_⟩
    · rcases List.mem_append.mp hx with hx | hx
      · cases List.mem_singleton.mp hx
        exact he.determined hcan
      · exact (hi.determined (he.can hcan) x hx).grows (he.grows hcan)

theorem Observed.inv (h : Observed cfg p (ObservedOk plain cfg p) s obs) : ObsInv plain p s obs := by
  induction h with
  | init => exact ⟨init_sound, fun h => absurd rfl h, fun _ _ hx => absurd hx List.not_mem_nil⟩
  | step m _ hpr hok h ih => exact observe_inv ih hpr hok h

/-- In every run whose steps meet the condition, P ends up not shortcutable or what it has
    recorded determines the results of all its calls. And for a result that the table leaves
    out, what is recorded of the call leaves room for another answer. -/
theorem observed_results_are_pinned (plain : Bool) (cfg : Config) (p : Nat) :
    (∀ (s : Supervisor) (obs : List (Call × Result)), Observed cfg p (ObservedOk plain cfg p) s obs →
      s.tree.can p = false ∨ ∀ x ∈ obs, Determined plain s p x.1 x.2) ∧
    (∀ (s : Supervisor) (m : Made), m.call.name ≠ [] → m.call.determined plain (m.world s) m.result = false →
      (m.handling s).reaction.Leaves plain (m.world s) m.call m.result) := by
  refine ⟨fun s obs h => ?_, fun s m hn hd => undetermined_leaves _ hn (m.fs.answer_fits m.call) hd⟩
  cases hcan : s.tree.can p with
  | false => exact .inl rfl
  | true => exact .inr (h.inv.determined hcan)

def madeOnDir (c : Call) : Made where
  call := c
  fs := Fs.single ["d"] (by decide) { entry := .dir 7 0o755 }
  cut _ _ := 0
  isInReadOnlyLocation _ := false
  preOpenSent := false

/-- stat("/d") and mkdir("/d") of the first process. -/
theorem observed_results_are_pinned_for_a_directory :
    ∃ s, Observed {} 0 (ObservedOk false {} 0) s
        [(.mkdir ["d"], .failed .eexist), (.stat ["d"] true, .status .dir 0o755 0)] ∧
      s.tree.can 0 = true ∧ Determined false s 0 (.mkdir ["d"]) (.failed .eexist) ∧
      Determined false s 0 (.stat ["d"] true) (.status .dir 0o755 0) := by
  have h0 : Observed {} 0 (ObservedOk false {} 0) .init [] := .init
  have h1 := h0.step (.event (.exec none none)) (fun _ hq => by cases hq) (fun _ => trivial) rfl
  have h2 := h1.step (.call (madeOnDir (.stat ["d"] true))) ⟨by decide, by decide⟩
    (fun _ => ⟨by decide, fun name d reason next hreact => by
      cases hreact
      exact ⟨⟨rfl, fun _ => nofun, fun _ => nofun⟩, fun dir hd => absurd rfl hd.1⟩⟩) rfl
  have h3 := h2.step (.call (madeOnDir (.mkdir ["d"]))) ⟨by decide, by decide⟩
    (fun _ => ⟨by decide, fun name d reason next hreact => by
      cases hreact
      refine ⟨⟨rfl, fun u hu => (by cases hu; rfl), fun u hu => ?_⟩, fun dir hd => absurd rfl hd.1⟩
      cases hu
      exact ⟨fun _ => ⟨by decide, by decide, fun _ _ _ => (by decide : _ &&& _ = (0 : Mode)), fun _ => nofun,
        fun _ => nofun, fun _ _ => .inl rfl⟩, nofun⟩⟩) rfl
  have hd := ((observed_results_are_pinned false {} 0).1 _ _ h3).resolve_left (by decide)
  exact ⟨_, h3, rfl, hd _ List.mem_cons_self, hd _ (List.mem_cons_of_mem _ List.mem_cons_self)⟩

/-- unlink("/d") fails with EISDIR, which leaves no trace; where "/d" is missing the call fails
    with ENOENT. -/
theorem a_failed_unlink_is_not_recorded :
    ∃ s, Observed {} 0 (fun _ _ => True) s [(.unlink ["d"], .failed .eisdir)] ∧ s.tree.can 0 = true ∧
      ¬Determined false s 0 (.unlink ["d"]) (.failed .eisdir) ∧
      ¬Determined true s 0 (.unlink ["d"]) (.failed .eisdir) := by
  have h0 : Observed {} 0 (fun _ _ => True) .init [] := .init
  have h1 := h0.step (.event (.exec none none)) (fun _ hq => by cases hq) trivial rfl
  have h2 := h1.step (.call (madeOnDir (.unlink ["d"]))) ⟨by decide, by decide⟩ trivial rfl
  have hother : ∀ (plain : Bool) (s : Supervisor), (∀ f, s.fileUsages 0 f = none) →
      ¬Determined plain s 0 (.unlink ["d"]) (.failed .eisdir) := by
    intro plain s hs hd
    have := hd (Fs.single ["d"] (by decide) { entry := .missing })
      (Fs.single_ordinary fun _ => ⟨rfl, fun _ => FsEntry.noConfusion⟩) (fun f u hu => by rw [hs] at hu; cases hu)
    revert this
    decide
  exact ⟨_, h2, rfl, hother false _ fun _ => rfl, hother true _ fun _ => rfl⟩

end Firebuild
