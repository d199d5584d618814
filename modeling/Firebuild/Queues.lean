/-
  Firebuild.Queues — the connections that queued entries refer to
  (`process_tree.h`: the queues; `connection_context.h`: `~ConnectionContext`).

  An entry of a queue holds the number of a connection: a fork()ed or posix_spawn()ed child
  waits there for its parent's message, or a parent for its child. The destructor of a
  connection finishes its process and does not look at the queues.

  Results:
    - `Reach.attended`: a process that runs has an open connection;
    - `queued_connections_open`: as long as no connection is closed that an entry refers to
      (`Event.Clean`), every entry refers to an open one, and the first event that is not
      clean leaves an entry without;
    - `fork_child_hangs_up` is such a run;
    - `running_iff_connected` and `orphans_bar_shortcutting`, in every reachable state.
-/

import Firebuild.Reachable

namespace Firebuild
namespace ProcessTree

open Population (Options)
open Lives (Footing)

variable {a : Scope} {w w' : Option Nat} {s s' : ProcessTree} {o : Options} {conn k p : Nat} {c : Option Connection}
  {x : ExecChildSock}

/-! ## Queued processes and running ones -/

/-- A posix_spawn() child that waits for its parent's message has its connection to itself. -/
structure Queued (s : Lives) : Prop where
  incomplete : ∀ k x, s.posixSpawnChildSock k = some x → s.conns x.sock = some .incomplete
  inj : ∀ k k' x x', s.posixSpawnChildSock k = some x → s.posixSpawnChildSock k' = some x' → x.sock = x'.sock → k = k'

def Attended (s : Lives) : Prop := ∀ p, p < s.size → (s.life p).state = .running → ∃ j, s.conns j = some (.proc p)

/-- `w` may run without. -/
def AttendedBut (w : Option Nat) (s : Lives) : Prop :=
  ∀ p, p < s.size → (s.life p).state = .running → w = some p ∨ ∃ j, s.conns j = some (.proc p)

theorem Queued.of_eq {s s' : Lives} (h : Queued s) (hconns : s'.conns = s.conns)
    (hsock : s'.posixSpawnChildSock = s.posixSpawnChildSock) : Queued s' := by
  refine ⟨fun k x hx => ?_, fun k k' x y hx hy he => ?_⟩
  · rw [hsock] at hx
    rw [hconns]
    exact h.incomplete k x hx
  · rw [hsock] at hx hy
    exact h.inj k k' x y hx hy he

theorem Queued.setConn {s : Lives} (h : Queued s) (hold : s.conns conn ≠ some .incomplete) :
    Queued (s.setConn conn c) := by
  refine ⟨fun k x hx => ?_, h.inj⟩
  have hinc := h.incomplete k x hx
  have hne : x.sock ≠ conn := fun he => hold (he ▸ hinc)
  exact (if_neg hne).trans hinc

/-- An entry leaves the queue, and its connection gets a process. -/
theorem Queued.take {s : Lives} (h : Queued s)
    (hx : s.posixSpawnChildSock k = some x) : Queued ((s.setConn x.sock c).setSock k none) := by
  have hother : ∀ {i y}, ((s.setConn x.sock c).setSock k none).posixSpawnChildSock i = some y →
      i ≠ k ∧ s.posixSpawnChildSock i = some y := by
    intro i y hy
    have hy : (if i = k then none else s.posixSpawnChildSock i) = some y := hy
    split at hy
    · cases hy
    · exact ⟨‹_›, hy⟩
  refine ⟨fun i y hy => ?_, fun i i' y y' hy hy' he => h.inj i i' y y' (hother hy).2 (hother hy').2 he⟩
  obtain ⟨hik, hy⟩ := hother hy
  have hne : y.sock ≠ x.sock := fun he => hik (h.inj i k y x hy hx he)
  exact (if_neg hne).trans (h.incomplete i y hy)

theorem Queued.put {s : Lives} (h : Queued s) (hnull : s.conns x.sock = some .null) :
    Queued ((s.setSock k (some x)).setConn x.sock (some .incomplete)) := by
  have hnew : ∀ i y, s.posixSpawnChildSock i = some y → y.sock ≠ x.sock := fun i y hy he => by
    rw [← he, h.incomplete i y hy] at hnull
    cases hnull
  have hsock : ∀ {i y}, ((s.setSock k (some x)).setConn x.sock (some .incomplete)).posixSpawnChildSock i = some y →
      (i = k ∧ y = x) ∨ s.posixSpawnChildSock i = some y := by
    intro i y hy
    have hy : (if i = k then some x else s.posixSpawnChildSock i) = some y := hy
    split at hy
    · exact .inl ⟨‹_›, (Option.some.inj hy).symm⟩
    · exact .inr hy
  refine ⟨fun i y hy => ?_, fun i i' y y' hy hy' he => ?_⟩
  · rcases hsock hy with ⟨-, rfl⟩ | hy
    · exact if_pos rfl
    · exact (if_neg (hnew i y hy)).trans (h.incomplete i y hy)
  rcases hsock hy with ⟨hi, hyx⟩ | hyi <;> rcases hsock hy' with ⟨hi', hyx'⟩ | hyi'
  · exact hi.trans hi'.symm
  · exact absurd (he.symm.trans (congrArg _ hyx)) (hnew i' y' hyi')
  · exact absurd (he.trans (congrArg _ hyx')) (hnew i y hyi)
  · exact h.inj i i' y y' hyi hyi' he

theorem Tick.queued (h : Tick a w s w' s') (hq : Queued s.toLives) : Queued s'.toLives := by
  cases h with
  | settle _ h => exact hq.of_eq h.conns h.sock
  | same hlives _ => exact hq.of_eq (congrArg Lives.conns hlives) (congrArg Lives.posixSpawnChildSock hlives)
  | execed p pid isQemu _ _ _ _ he =>
    obtain ⟨t, -, hlives, -⟩ := newExeced_eq he
    rw [withPopulation, hlives]
    exact hq.of_eq rfl rfl
  | @adopt ps p k x _ _ _ hx _ _ he =>
    obtain ⟨n, t, -, -, hlives, -⟩ := adopt_eq he
    show Queued ((ps.toLives.setConn x.sock (some (.proc s.size))).setSock k none)
    rw [hlives]
    exact (hq.take hx).of_eq rfl rfl
  | queue conn pid ppid isQemu _ hnull he =>
    obtain ⟨t, -, rfl⟩ := Option.map_eq_some_iff.mp he
    exact (Queued.put hq hnull).of_eq rfl rfl
  | attach conn p _ _ hnull _ _ _ => exact hq.setConn (by simp [hnull])
  | conn conn c _ _ _ hold _ => exact hq.setConn hold
  | _ => exact hq.of_eq rfl rfl

theorem AttendedBut.mono {s s' : Lives} (h : AttendedBut w s) (hsize : s'.size = s.size) (hconns : s'.conns = s.conns)
    (hrun : ∀ p, (s'.life p).state = .running → (s.life p).state = .running) : AttendedBut w s' := by
  intro p hp hr
  rw [hconns]
  exact h p (hsize ▸ hp) (hrun p hr)

theorem AttendedBut.setConn {s : Lives} (h : AttendedBut none s)
    (hproc : ∀ p, s.conns conn = some (.proc p) → w = some p) : AttendedBut w (s.setConn conn c) := by
  intro p hp hr
  obtain ⟨j, hj⟩ := (h p hp hr).resolve_left nofun
  by_cases hjc : j = conn
  · exact .inl (hproc p (hjc ▸ hj))
  · exact .inr ⟨j, (if_neg hjc).trans hj⟩

/-- A connection that has no process gets one. -/
theorem AttendedBut.attach {s : Lives} (h : AttendedBut w s) (hw : ∀ q, w = some q → q = p)
    (hfree : ∀ q, s.conns conn ≠ some (.proc q)) : AttendedBut none (s.setConn conn (some (.proc p))) := by
  intro q hq hr
  refine .inr ?_
  rcases h q hq hr with hwq | ⟨j, hj⟩
  · obtain rfl := hw q hwq
    exact ⟨conn, if_pos rfl⟩
  · have hjc : j ≠ conn := fun he => hfree q (he ▸ hj)
    exact ⟨j, (if_neg hjc).trans hj⟩

theorem AttendedBut.fresh {s s' : Lives} (h : AttendedBut none s) (hsize : s'.size = s.size + 1) (hconns : s'.conns = s.conns)
    (hstate : ∀ q, q < s.size → (s'.life q).state = (s.life q).state) : AttendedBut (some s.size) s' := by
  intro q hq hr
  rw [hconns]
  by_cases hlt : q < s.size
  · exact .inr ((h q hlt (hstate q hlt ▸ hr)).resolve_left nofun)
  · exact .inl (congrArg some (by omega))

theorem addExeced_state (s : Lives) (hq : q < s.size) :
    ((s.addExeced p node).life q).state = (s.life q).state := by
  rw [Lives.addExeced_life s p node q hq]
  split <;> rfl

theorem Tick.attended (h : Tick a w s w' s') (hq : Queued s.toLives) (hat : AttendedBut w s.toLives) :
    AttendedBut w' s'.toLives := by
  cases h with
  | settle _ h =>
    refine hat.mono h.size h.conns fun p hr => ?_
    rcases h.state p with hst | ⟨-, hst, -⟩
    · exact hst.symm.trans hr
    · cases hst.symm.trans hr
  | same hlives _ =>
    exact hat.mono (congrArg Lives.size hlives) (congrArg Lives.conns hlives) fun p hr => by
      rw [← hlives]
      exact hr
  | flags p f hf _ _ =>
    refine hat.mono rfl rfl fun q hr => ?_
    have hstate : ∀ l, (f l).state = l.state := fun l => by rw [hf l]
    exact (Population.modifyLife_proj Life.state (hstate _) q).symm.trans hr
  | terminate p hw _ _ _ _ =>
    intro q hq hr
    have hr : (if q = p then { s.life q with state := .terminated } else s.life q : Life).state = .running := hr
    split at hr
    · cases hr
    next hqp =>
    refine .inr ((hat q hq hr).resolve_left ?_)
    rw [hw]
    exact fun he => hqp (Option.some.inj he).symm
  | forked p pid fds hw _ _ _ =>
    subst hw
    refine hat.fresh rfl rfl fun q hlt => ?_
    show ((s.toLives.addForked p).life q).state = _
    rw [Lives.addForked_life s.toLives p q hlt]
    split <;> rfl
  | execed p pid isQemu hw _ _ _ he =>
    subst hw
    obtain ⟨t, -, hlives, -⟩ := newExeced_eq he
    rw [withPopulation, hlives]
    exact hat.fresh rfl rfl fun q hlt => addExeced_state s.toLives hlt
  | @adopt ps p k x _ _ _ hx _ _ he =>
    obtain ⟨n, t, -, -, hlives, -⟩ := adopt_eq he
    intro q hlt hr
    show w = some q ∨ ∃ j, (if j = x.sock then some (.proc s.size) else ps.conns j) = some (Connection.proc q)
    by_cases hqs : q = s.size
    · exact .inr ⟨x.sock, by rw [if_pos rfl, hqs]⟩
    have hlt : q < ps.size := hlt
    have hr : (ps.life q).state = .running := hr
    rw [hlives] at hlt hr
    have hlt : q < s.size + 1 := hlt
    refine (hat q (by omega) ((addExeced_state s.toLives (by omega)).symm.trans hr)).imp_right ?_
    rintro ⟨j, hj⟩
    have hne : j ≠ x.sock := by
      rintro rfl
      rw [hq.incomplete k x hx] at hj
      cases hj
    exact ⟨j, by rw [if_neg hne, hlives]; exact hj⟩
  | queue conn pid ppid isQemu _ hnull he =>
    obtain ⟨t, -, rfl⟩ := Option.map_eq_some_iff.mp he
    intro q hlt hr
    refine (hat q hlt hr).imp_right ?_
    rintro ⟨j, hj⟩
    have hne : j ≠ conn := by
      rintro rfl
      rw [hnull] at hj
      cases hj
    exact ⟨j, (if_neg hne).trans hj⟩
  | attach conn p hw _ hnull _ _ _ =>
    refine hat.attach (fun q hq => ?_) fun q => by simp [hnull]
    rw [hw] at hq
    exact (Option.some.inj hq).symm
  | conn conn c hw _ _ _ hproc =>
    subst hw
    exact hat.setConn hproc
  | drop p q _ =>
    refine hat.mono rfl rfl fun r hr => ?_
    have hstate : ((s.modifyLife q ({ · with execChild := none })).life r).state = (s.life r).state :=
      Population.modifyLife_proj Life.state rfl r
    exact hstate.symm.trans hr
  | _ => exact hat.mono rfl rfl fun _ => id

theorem Ticks.attended (h : Ticks a w s w' s') (hq : Queued s.toLives) (hat : AttendedBut w s.toLives) :
    Queued s'.toLives ∧ AttendedBut w' s'.toLives := by
  induction h with
  | refl => exact ⟨hq, hat⟩
  | tail _ ht ih => exact ⟨ht.queued ih.1, ht.attended ih.1 ih.2⟩

variable {P : ProcessTree → Event → Prop} {j : Nat}

theorem Reach.queued_attended (h : Reach o P s) : Queued s.toLives ∧ AttendedBut none s.toLives := by
  induction h with
  | init => exact ⟨⟨nofun, nofun⟩, fun _ _ => nofun⟩
  | step h _ he ih => exact (h.ticks he).attended ih.1 ih.2

theorem Reach.attended (h : Reach o P s) : Attended s.toLives := fun p hp hrun =>
  (h.queued_attended.2 p hp hrun).resolve_left nofun

/-! ## Open connections -/

inductive Refers (s : ProcessTree) (j : Nat) : Prop
  | forkChild (k : Nat) (x : ForkChildSock) (h : s.forkChildSock k = some x) (hj : x.sock = j)
  | parentAck (k : Nat) (a : PendingParentAck) (h : s.parentAck k = some a) (hj : a.sock = j)
  | popenChild (q : Nat) (x : PendingPopen) (c : Nat × Nat) (h : s.pendingPopen q = some x) (hc : x.child = some c)
      (hj : c.2 = j)
  | popenParent (q : Nat) (x : PendingPopen) (c : Nat × Nat × Nat) (h : s.pendingPopen q = some x)
      (hc : x.parent = some c) (hj : c.1 = j)
  | posixSpawnChild (k : Nat) (x : ExecChildSock) (h : s.posixSpawnChildSock k = some x) (hj : x.sock = j)

def QueuesOpen (s : ProcessTree) : Prop := ∀ j, Refers s j → s.conns j ≠ none

/-- No connection is closed that an entry refers to. -/
def Event.Clean (s : ProcessTree) (e : Event) : Prop := ∀ j ∈ e.closes, ¬Refers s j

/-- An entry was there or is for the connection that the event comes on. -/
theorem Touches.refers (h : Touches cs is js ks s s') (hr : Refers s' j) :
    Refers s j ∨ j ∈ is ∨ j ∈ js := by
  cases hr with
  | forkChild k x hx hj => exact (h.newFork k x hx).imp (.forkChild k x · hj) fun hm => .inl (hj ▸ hm)
  | parentAck k a ha hj => exact (h.newAck k a ha).imp (.parentAck k a · hj) fun hm => .inl (hj ▸ hm)
  | popenChild q x c hx hc hj =>
    exact (h.newChild q x c hx hc).imp (fun ⟨y, hy, hyc⟩ => .popenChild q y c hy hyc hj) fun hm => .inl (hj ▸ hm)
  | popenParent q x c hx hc hj =>
    exact (h.newParent q x c hx hc).imp (fun ⟨y, hy, hyc⟩ => .popenParent q y c hy hyc hj) fun hm => .inl (hj ▸ hm)
  | posixSpawnChild k x hx hj => exact (h.spares.sock k x hx).imp (.posixSpawnChild k x · hj) fun hm => .inr (hj ▸ hm)

theorem Refers.congr (hfork : s'.forkChildSock = s.forkChildSock) (hack : s'.parentAck = s.parentAck)
    (hpopen : s'.pendingPopen = s.pendingPopen) (hsock : s'.posixSpawnChildSock = s.posixSpawnChildSock) (h : Refers s j) :
    Refers s' j := by
  cases h with
  | forkChild k x hx hj => exact .forkChild k x (hfork ▸ hx) hj
  | parentAck k a ha hj => exact .parentAck k a (hack ▸ ha) hj
  | popenChild q x c hx hc hj => exact .popenChild q x c (hpopen ▸ hx) hc hj
  | popenParent q x c hx hc hj => exact .popenParent q x c (hpopen ▸ hx) hc hj
  | posixSpawnChild k x hx hj => exact .posixSpawnChild k x (hsock ▸ hx) hj

theorem refers_iff (ps : Population) (j : Nat) (hsock : ps.posixSpawnChildSock = s.posixSpawnChildSock) :
    Refers (s.withPopulation ps) j ↔ Refers s j :=
  ⟨fun h => Refers.congr (s := s.withPopulation ps) rfl rfl rfl hsock.symm h,
    fun h => Refers.congr (s := s) rfl rfl rfl hsock h⟩

/-- The destructor of a connection leaves the queues alone. -/
theorem hangUp_refers (he : s.hangUp o conn = some s') :
    (∀ j, Refers s' j ↔ Refers s j) ∧ ∀ j, s'.conns j = if j = conn then none else s.conns j := by
  rw [hangUp] at he
  split at he
  · cases he
    exact ⟨fun j => refers_iff (s.setConn conn none) j rfl, fun _ => rfl⟩
  · obtain ⟨ps, hps, rfl⟩ := Option.map_eq_some_iff.mp (alive_bind he).2
    have hsettles := Population.finish_settles hps
    have hended := (s.setConn conn none).ended_toLives
    refine ⟨fun j => refers_iff ps j ?_, fun j => ?_⟩
    · rw [hsettles.sock, hended]
      rfl
    show ps.conns j = _
    rw [hsettles.conns, hended]
    rfl
  · cases he
  · cases he

theorem step_queuesOpen (hf : Footing none s.toLives) (hk : Known s) (h : QueuesOpen s)
    (he : s.step o e = some s') : QueuesOpen s' ↔ e.Clean s := by
  constructor
  · intro hopen j hj hr
    cases e with
    | hangUp conn =>
      obtain ⟨hrefers, hconns⟩ := hangUp_refers he
      refine hopen j ((hrefers j).mpr hr) ?_
      rw [hconns, if_pos (List.mem_singleton.mp hj)]
    | _ => cases hj
  · intro hclean j hr hnone
    have htouch := step_touches hf hk he
    -- what was open is closed only by a hang-up
    have hold : s.conns j ≠ none → j ∈ e.closes := fun hj => (htouch.spares.closed j hnone).resolve_left hj
    have hopened : Refers s j ∨ s.conns j ≠ none → False := fun hj =>
      hj.elim (fun hr => hclean j (hold (h j hr)) hr) fun hj => by
        cases e with
        | hangUp conn => exact hclean j (hold hj) (((hangUp_refers he).1 j).mp hr)
        | _ => cases hold hj
    cases e with
    | connect conn =>
      rw [step] at he
      split at he
      · cases he
      cases he
      have hnone : (if j = conn then some .null else s.conns j) = none := hnone
      split at hnone
      · cases hnone
      · exact h j ((refers_iff (s.setConn conn (some .null)) j rfl).mp hr) hnone
    | scprocQuery conn pid ppid argvMatches isQemu start | forkChild conn pid ppid ack =>
      rw [step] at he
      split at he
      · next hnull =>
        rcases htouch.refers hr with hr | hj | hj
        · exact hopened (.inl hr)
        · exact hopened (.inr (by rw [List.mem_singleton.mp hj, hnull]; simp))
        · exact hopened (.inr (by rw [List.mem_singleton.mp hj, hnull]; simp))
      · cases he
    | message conn ack m =>
      rw [step, message] at he
      split at he
      · next p hconn =>
        rcases htouch.refers hr with hr | hj | hj
        · exact hopened (.inl hr)
        · exact hopened (.inr (by rw [List.mem_singleton.mp hj, hconn]; simp))
        simp only [Event.conns, hconn] at hj
        cases m with
        | forkParent =>
          obtain ⟨x, hx, rfl⟩ := Option.map_eq_some_iff.mp (Option.mem_toList.mp hj)
          exact hopened (.inl (.forkChild _ x hx rfl))
        | posixSpawnParent pid actions ops argvMatches start =>
          obtain ⟨x, hx, rfl⟩ := Option.map_eq_some_iff.mp (Option.mem_toList.mp hj)
          exact hopened (.inl (.posixSpawnChild _ x hx rfl))
        | _ => cases hj
      · cases he
    | hangUp conn => exact hopened (.inl (((hangUp_refers he).1 j).mp hr))
    | sigchild pid status | gcProcesses =>
      exact hopened (.inl ((htouch.refers hr).resolve_right fun hj => by rcases hj with hj | hj <;> cases hj))

theorem Reach.queuesOpen (h : Reach o Event.Clean s) : QueuesOpen s := by
  induction h with
  | init =>
    intro j hr
    cases hr with
    | forkChild k x hx _ | popenChild q x c hx _ _ | popenParent q x c hx _ _ | posixSpawnChild k x hx _ => cases hx
    | parentAck k a ha _ => cases ha
  | step h hc he ih => exact (step_queuesOpen h.footing h.known ih he).mpr hc

theorem queued_connections_open (h : Reach o Event.Clean s) :
    QueuesOpen s ∧ Attended s.toLives ∧ ∀ e s', s.step o e = some s' → (QueuesOpen s' ↔ e.Clean s) :=
  ⟨h.queuesOpen, h.attended, fun _ _ he => step_queuesOpen h.footing h.known h.queuesOpen he⟩

/-- A fork()ed child signs in before its parent's message. -/
def forkChildFirst : List Event :=
  [.connect 0, .scprocQuery 0 10 1 true false {}, .connect 1, .forkChild 1 11 10 2]

theorem forkChildFirst_open : ∃ s, run smallBuild forkChildFirst (init smallBuild) = some s ∧ Refers s 1 ∧
    QueuesOpen s := by
  have hs : run smallBuild forkChildFirst (init smallBuild) = some _ := rfl
  refine ⟨_, hs, .forkChild 10 ⟨1, 11, 2⟩ rfl rfl, (queued_connections_open (.of_run .init ?_ hs)).1⟩
  intro s e he j hj
  simp only [forkChildFirst, List.mem_cons, List.not_mem_nil, or_false] at he
  rcases he with rfl | rfl | rfl | rfl <;> cases hj

/-- The child is killed: the entry is left, and the parent's message finds it. -/
theorem fork_child_hangs_up : ((run smallBuild (forkChildFirst ++ [.hangUp 1]) (init smallBuild)).map fun s =>
      ((s.forkChildSock 10).map ForkChildSock.sock, (s.conns 1).isSome, (s.step smallBuild (.message 0 3 .forkParent)).isSome)) =
    some (some 1, false, false) := rfl

/-! ## Processes and their connections -/

/-- A process runs as long as a connection is its own, and a second one never is. -/
theorem running_iff_connected (h : Reach o P s) (hp : p < s.size) :
    (s.life p).state = .running ↔ ∃! j, s.conns j = some (.proc p) := by
  constructor
  · intro hrun
    obtain ⟨j, hj⟩ := h.attended p hp hrun
    exact ⟨j, hj, fun k hk => h.footing.connsInj k j p hk hj⟩
  · rintro ⟨j, hj, -⟩
    exact (h.footing.conns j p hj).2

theorem forkChildFirst_connected : ∃ s, run smallBuild forkChildFirst (init smallBuild) = some s ∧
    ∃! j, s.conns j = some (.proc 1) := by
  have hs : run smallBuild forkChildFirst (init smallBuild) = some _ := rfl
  exact ⟨_, hs, (running_iff_connected (P := fun _ _ => True) (.of_run .init (fun _ _ _ => trivial) hs) (by decide)).mp rfl⟩

/-- Nothing at or above an orphan, or a process that has left one, can be stored or shortcut. -/
theorem orphans_bar_shortcutting (h : Reach o P s) (hp : p < s.size)
    (horphan : (s.life p).orphan = true ∨ (s.life p).hasOrphanDescendant = true) (he : (s.life p).execPoint = some e) :
    ∀ a, Lib.Forest.AtOrAbove s.tree.up e a → s.tree.can a = false := by
  rcases horphan with horphan | hleft
  · exact (h.footing.orphan p e hp horphan he).resolve_right nofun
  · exact h.footing.hasOrphan p e hp hleft he

/-- The parent exits, and the child runs on. -/
theorem forkChildFirst_bars : ∃ s, run smallBuild (forkChildFirst ++ [.message 0 3 .forkParent, .hangUp 0])
    (init smallBuild) = some s ∧ (s.life 2).state = .running ∧ s.tree.can 0 = false := by
  have hs : run smallBuild (forkChildFirst ++ [.message 0 3 .forkParent, .hangUp 0]) (init smallBuild) = some _ := rfl
  exact ⟨_, hs, rfl, orphans_bar_shortcutting (P := fun _ _ => True) (p := 2) (.of_run .init (fun _ _ _ => trivial) hs)
    (by decide) (.inl rfl) rfl 0 ⟨[], .root rfl, List.mem_cons_self⟩⟩

end ProcessTree
end Firebuild
