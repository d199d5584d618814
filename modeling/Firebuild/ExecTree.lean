/-
  Firebuild.ExecTree — the tree of exec()ed processes and the cached pointer to the
  closest shortcutable ancestor (`execed_process.h`: `next_shortcutable_ancestor`,
  `closest_shortcut_point`; `execed_process.cc`: the constructor, `set_parent`,
  `common_exec_ancestor`, `disable_shortcutting_only_this`,
  `disable_shortcutting_bubble_up_to_excl`, `disable_shortcutting_bubble_up`).

  Processes are numbered in the order of their creation. `parentExecPoint` is the
  parent's `exec_point()`: forked processes in between are not nodes of this tree.
  A process is created shortcutable and can only lose that. Each process caches
  `maybe_shortcutable_ancestor_`, which is corrected when it is read; the pointer is
  good (`SkipOk`) as long as everything it jumps over is already disabled, and no
  operation breaks that (`Step.inv`). The loops of the code carry a step count, and
  `none` is a loop that has not ended: on a tree that keeps the invariant it does not
  happen.

  `setParent` is called only on processes created by posix_spawn() while they are still
  queued: they have neither a parent nor a child then.

  Proved, for every reachable tree: `next_shortcutable_ancestor_exact`, `bubbleUp_spec`,
  `common_exec_ancestor_is_the_deepest`.
-/

import Firebuild.Lib.Forest

namespace Firebuild

open Lib.Forest
open List

structure ExecedProcess where
  parentExecPoint : Option Nat := none
  maybeShortcutableAncestor : Option Nat := none
  canShortcut : Bool := true
  cantShortcutReason : Option String := none
  cantShortcutProc : Option Nat := none
  deriving DecidableEq, Repr

structure ExecTree where
  size : Nat
  proc : Nat → ExecedProcess

namespace ExecTree

def empty : ExecTree := ⟨0, fun _ => {}⟩

def up (t : ExecTree) (p : Nat) : Option Nat := (t.proc p).parentExecPoint

def can (t : ExecTree) (p : Nat) : Bool := (t.proc p).canShortcut

def maybe (t : ExecTree) (p : Nat) : Option Nat := (t.proc p).maybeShortcutableAncestor

def modify (t : ExecTree) (p : Nat) (f : ExecedProcess → ExecedProcess) : ExecTree :=
  { t with proc := fun q => if q = p then f (t.proc q) else t.proc q }

def setMaybe (t : ExecTree) (p : Nat) (m : Option Nat) : ExecTree :=
  t.modify p fun x => { x with maybeShortcutableAncestor := m }

/-- `next_shortcutable_ancestor`, with the tree after its path compression. -/
def nextShortcutableAncestor (t : ExecTree) (p : Nat) : Option (Option Nat × ExecTree) :=
  match t.maybe p with
  | none => some (none, t)
  | some m =>
    if t.can m then some (some m, t)
    else do
      let next ← climb t.can t.maybe t.size (t.maybe m)
      some (next, t.setMaybe p next)

def closestShortcutPoint (t : ExecTree) (p : Nat) : Option (Option Nat × ExecTree) :=
  if t.can p then some (some p, t) else t.nextShortcutableAncestor p

/-- `(parent && parent->exec_point()) ? parent->exec_point()->closest_shortcut_point() : nullptr` -/
def closestAbove (t : ExecTree) : Option Nat → Option (Option Nat × ExecTree)
  | none => some (none, t)
  | some q => t.closestShortcutPoint q

/-- The constructor: the new process gets the next number. `parent` is the parent's exec
    point, null for a posix_spawn() child that is still queued and for the first process. -/
def exec (t : ExecTree) (parent : Option Nat) : Option ExecTree := do
  let (maybe, t) ← t.closestAbove parent
  some ⟨t.size + 1, fun q => if q = t.size then
    { parentExecPoint := parent, maybeShortcutableAncestor := maybe } else t.proc q⟩

def setParent (t : ExecTree) (p parentExecPoint : Nat) : Option ExecTree := do
  let (maybe, t) ← t.closestAbove (some parentExecPoint)
  some (t.modify p fun x =>
    { x with parentExecPoint := some parentExecPoint, maybeShortcutableAncestor := maybe })

/-- The first reason is kept. -/
def disableShortcuttingOnlyThis (t : ExecTree) (this : Nat) (reason : String) (p : Option Nat) : ExecTree :=
  if t.can this then
    t.modify this fun x =>
      { x with canShortcut := false, cantShortcutReason := some reason, cantShortcutProc := some (p.getD this) }
  else t

/-- The arguments `shortcutable_ancestor` and `shortcutable_ancestor_is_set` as one: unset on
    the first level, then the closest shortcutable process at or above the stop. -/
def shortcutableFrom (t : ExecTree) (stop : Option Nat) : Option (Option Nat) → Option (Option Nat)
  | some sa => some sa
  | none => climb t.can t.maybe t.size stop

def bubbleUpLoop (stop : Option Nat) (reason : String) :
    Nat → ExecTree → Nat → Option Nat → Option (Option Nat) → Option ExecTree
  | 0, _, _, _, _ => none
  | n + 1, t, this, p, sa =>
    if some this = stop then some t
    else
      let p := p.getD this
      let t := t.disableShortcuttingOnlyThis this reason (some p)
      do
        let (next, t) ← t.nextShortcutableAncestor this
        if next = none then
          -- shortcutting is already disabled for all transitive exec parents
          some t
        else
          let sa ← t.shortcutableFrom stop sa
          let t := t.setMaybe this sa
          match t.up this with
          | none => some t
          | some parent => bubbleUpLoop stop reason n t parent (some p) (some sa)

def disableShortcuttingBubbleUpToExcl (t : ExecTree) (this : Nat) (stop : Option Nat) (reason : String) :
    Option ExecTree :=
  bubbleUpLoop stop reason (t.size + 2) t this none none

def disableShortcuttingBubbleUp (t : ExecTree) (this : Nat) (reason : String) : Option ExecTree :=
  t.disableShortcuttingBubbleUpToExcl this none reason

/-- The two branches take turns; each node visited is looked up among those of the other
    branch. `none` is the assertion that the walk never gets past both roots. -/
def commonLoop (up : Nat → Option Nat) : Nat → Option Nat → Option Nat → List Nat → List Nat → Option Nat
  | 0, _, _, _, _ => none
  | _ + 1, none, none, _, _ => none
  | n + 1, none, some c, mine, others => commonLoop up n (some c) none others mine
  | n + 1, some c, currOther, mine, others =>
    if c ∈ others then some c else commonLoop up n currOther (up c) others (c :: mine)

def commonExecAncestor (t : ExecTree) (this other : Nat) : Option Nat :=
  commonLoop t.up (2 * (t.size + 2)) (some this) (some other) [] []

/-! ## What the updates leave alone -/

variable {t t' : ExecTree} {p q this other : Nat} {m parent src stop : Option Nat} {reason : String}
  {l d u : List Nat} {up : Nat → Option Nat}

@[simp] theorem setMaybe_size : (t.setMaybe p m).size = t.size := rfl

@[simp] theorem setMaybe_up : (t.setMaybe p m).up = t.up := by
  funext q
  simp only [up, setMaybe, modify]
  split <;> rfl

@[simp] theorem setMaybe_can : (t.setMaybe p m).can = t.can := by
  funext q
  simp only [can, setMaybe, modify]
  split <;> rfl

theorem setMaybe_maybe : (t.setMaybe p m).maybe q = if q = p then m else t.maybe q := by
  simp only [maybe, setMaybe, modify]
  split <;> rfl

@[simp] theorem setMaybe_reason : ((t.setMaybe p m).proc q).cantShortcutReason = (t.proc q).cantShortcutReason := by
  simp only [setMaybe, modify]
  split <;> rfl

theorem setMaybe_self : t.setMaybe p (t.maybe p) = t := by
  have h : (fun q => if q = p then { t.proc q with maybeShortcutableAncestor := t.maybe p } else t.proc q) =
      t.proc := by
    funext q
    split
    · rename_i hq
      subst hq
      rfl
    · rfl
  show { t with proc := _ } = t
  rw [h]

theorem disable_proc : (t.disableShortcuttingOnlyThis p reason src).proc q = if q = p ∧ t.can p = true then
        { t.proc q with
          canShortcut := false, cantShortcutReason := some reason, cantShortcutProc := some (src.getD p) }
      else t.proc q := by
  unfold disableShortcuttingOnlyThis
  by_cases hc : t.can p = true
  · simp only [modify, hc, and_true, if_true]
  · simp only [hc, and_false, if_false, Bool.false_eq_true]

@[simp] theorem disable_size : (t.disableShortcuttingOnlyThis p reason src).size = t.size := by
  unfold disableShortcuttingOnlyThis
  split <;> rfl

@[simp] theorem disable_up : (t.disableShortcuttingOnlyThis p reason src).up = t.up := by
  funext q
  simp only [up, disable_proc]
  split <;> rfl

@[simp] theorem disable_maybe : (t.disableShortcuttingOnlyThis p reason src).maybe = t.maybe := by
  funext q
  simp only [maybe, disable_proc]
  split <;> rfl

@[simp] theorem disable_can : (t.disableShortcuttingOnlyThis p reason src).can = cleared t.can [p] := by
  funext q
  show (ExecedProcess.canShortcut _) = _
  rw [disable_proc]
  split
  · rename_i h
    rw [cleared_of_mem (mem_singleton.mpr h.1)]
  rename_i h
  by_cases hq : q = p
  · have hc : t.can q = false := by simpa [hq] using h
    rw [cleared_of_false hc]
    exact hc
  · rw [cleared_of_not_mem (by simpa using hq)]
    rfl

/-! ## The invariant -/

/-- The pointers of the processes in `l` jump over disabled processes only. -/
def SkipsOn (t : ExecTree) (l : List Nat) : Prop :=
  ∀ x ∈ l, ∀ lx, Chain t.up x lx → SkipOk t.can lx (t.maybe x)

/-- What `disable_shortcutting_only_this` asserts: a shortcutable process has no reason yet. -/
def ReasonOk (t : ExecTree) : Prop := ∀ p, t.can p = (t.proc p).cantShortcutReason.isNone

theorem ReasonOk.setMaybe (h : t.ReasonOk) : (t.setMaybe p m).ReasonOk :=
  fun q => by simpa using h q

theorem ReasonOk.disable (h : t.ReasonOk) (src : Option Nat) :
    (t.disableShortcuttingOnlyThis p reason src).ReasonOk := by
  intro q
  show (ExecedProcess.canShortcut _) = _
  rw [disable_proc]
  split
  · rfl
  · exact h q

structure Inv (t : ExecTree) : Prop where
  chain : ∀ p, ∃ l, Chain t.up p l
  lt : ∀ {p q : Nat}, t.up p = some q → q < t.size
  skip : ∀ {p : Nat} {l : List Nat}, Chain t.up p l → SkipOk t.can l (t.maybe p)
  reason : t.ReasonOk

theorem Inv.mem_lt (h : t.Inv) (hc : Chain t.up p l) (hq : q ∈ l) : q < t.size := by
  obtain ⟨x, hx⟩ := hc.mem_parent hq
  exact h.lt hx

theorem Inv.length_le (h : t.Inv) (hc : Chain t.up p l) : l.length ≤ t.size :=
  hc.length_le fun _ hx => h.mem_lt hc hx

theorem Inv.skipsOn (h : t.Inv) (l : List Nat) : t.SkipsOn l := fun _ _ _ hc => h.skip hc

theorem empty_inv : empty.Inv := by
  refine ⟨fun _ => ⟨[], .root rfl⟩, nofun, fun {p l} h => ?_, fun _ => rfl⟩
  cases h with
  | root _ => exact nofun
  | step h _ => cases h

theorem Inv.setMaybe (h : t.Inv) (hm : ∀ l, Chain t.up p l → SkipOk t.can l m) : (t.setMaybe p m).Inv := by
  refine ⟨by simpa using h.chain, fun hq => h.lt (by simpa using hq), fun {q l} hc => ?_, h.reason.setMaybe⟩
  simp only [setMaybe_up] at hc
  rw [setMaybe_can, setMaybe_maybe]
  split
  · rename_i hq
    subst hq
    exact hm l hc
  · exact h.skip hc

theorem Inv.disable (h : t.Inv) (src : Option Nat) : (t.disableShortcuttingOnlyThis p reason src).Inv := by
  refine ⟨by simpa using h.chain, fun hq => ?_, fun {q l} hc => ?_, h.reason.disable src⟩
  · rw [disable_size]
    exact h.lt (by simpa using hq)
  · rw [disable_can, disable_maybe]
    exact (h.skip (by simpa using hc)).mono fun _ _ => cleared_of_false

/-! ## Reading the cached pointer -/

/-- Good pointers at `p` and above are enough for the answer, and the compressed pointer
    is good again. -/
theorem next_spec (hc : Chain t.up p l) (hs : t.SkipsOn (p :: l)) (hn : l.length ≤ t.size) :
    ∃ m, t.nextShortcutableAncestor p = some (l.find? t.can, t.setMaybe p m) ∧ SkipOk t.can l m := by
  have hp : SkipOk t.can l (t.maybe p) := hs p mem_cons_self l hc
  unfold nextShortcutableAncestor
  cases hm : t.maybe p with
  | none =>
    rw [hm] at hp
    have hf : l.find? t.can = none := List.find?_eq_none.mpr (by simpa [SkipOk] using hp)
    refine ⟨none, ?_, hp⟩
    rw [hf, show t.setMaybe p none = t from hm ▸ setMaybe_self]
  | some a =>
    rw [hm] at hp
    by_cases ha : t.can a = true
    · refine ⟨some a, ?_, hp⟩
      simp only [ha, if_true]
      rw [hp.find?_eq ha, show t.setMaybe p (some a) = t from hm ▸ setMaybe_self]
    obtain ⟨l1, l2, rfl, hl⟩ := hp
    have hca : Chain t.up a l2 := hc.suffix
    have hin : ∀ x ∈ a :: l2, x ∈ p :: (l1 ++ a :: l2) :=
      fun x hx => mem_cons_of_mem _ (mem_append_right _ hx)
    have hfind : (l1 ++ a :: l2).find? t.can = l2.find? t.can := by
      rw [List.find?_append, List.find?_eq_none.mpr (by simpa using hl), List.find?_cons_of_neg ha]
      rfl
    simp only [length_append, length_cons] at hn
    have hclimb := climb_eq (n := t.size) hca (hs a (hin a mem_cons_self) _ hca)
      (fun x hx => hs x (hin x (mem_cons_of_mem _ hx))) (by omega)
    refine ⟨l2.find? t.can, ?_, ?_⟩
    · simp only [ha, hclimb, hfind]
      rfl
    · rw [← hfind]
      exact skipOk_find? _ _

theorem Inv.next (h : t.Inv) (hc : Chain t.up p l) :
    ∃ m, t.nextShortcutableAncestor p = some (l.find? t.can, t.setMaybe p m) ∧ (t.setMaybe p m).Inv := by
  obtain ⟨m, he, hm⟩ := next_spec hc (h.skipsOn _) (h.length_le hc)
  exact ⟨m, he, h.setMaybe fun l' hc' => hc.unique hc' ▸ hm⟩

theorem Inv.closest (h : t.Inv) (hc : Chain t.up p l) :
    ∃ m, t.closestShortcutPoint p = some ((p :: l).find? t.can, t.setMaybe p m) ∧ (t.setMaybe p m).Inv := by
  unfold closestShortcutPoint
  by_cases hp : t.can p = true
  · refine ⟨t.maybe p, ?_, by rw [setMaybe_self]; exact h⟩
    rw [if_pos hp, List.find?_cons_of_pos hp, setMaybe_self]
  · obtain ⟨m, he, hm⟩ := h.next hc
    exact ⟨m, by rw [if_neg hp, List.find?_cons_of_neg hp, he], hm⟩

/-! ## Bubbling up -/

/-- What disabling the processes of `d` leaves. -/
structure Bubbled (t t' : ExecTree) (d : List Nat) : Prop where
  size : t'.size = t.size
  up : t'.up = t.up
  can : t'.can = cleared t.can d
  skip : ∀ x lx, Chain t.up x lx → SkipOk (cleared t.can d) lx (t'.maybe x)
  reason : t'.ReasonOk

theorem Bubbled.inv (h : t.Inv) (hb : Bubbled t t' d) : t'.Inv := by
  refine ⟨by rw [hb.up]; exact h.chain, fun hq => ?_, fun {q l} hc => ?_, hb.reason⟩
  · rw [hb.size]
    exact h.lt (by rwa [hb.up] at hq)
  rw [hb.can]
  rw [hb.up] at hc
  exact hb.skip q l hc

/-- One level: the process is disabled and its own pointer brought up to date. -/
theorem bubble_level (reason : String) (src : Option Nat) (hc : Chain t.up this l) (hlen : l.length ≤ t.size)
    (hs : t.SkipsOn (this :: l)) (hr : t.ReasonOk) :
    ∃ t1 m, (t.disableShortcuttingOnlyThis this reason src).nextShortcutableAncestor this = some (l.find? t1.can, t1) ∧
      t1.size = t.size ∧ t1.up = t.up ∧ t1.can = cleared t.can [this] ∧
      (∀ x, t1.maybe x = if x = this then m else t.maybe x) ∧ SkipOk t1.can l m ∧ t1.ReasonOk := by
  have hs1 : (t.disableShortcuttingOnlyThis this reason src).SkipsOn (this :: l) := by
    intro x hx lx hcx
    rw [disable_can, disable_maybe]
    exact (hs x hx lx (by simpa using hcx)).mono fun _ _ => cleared_of_false
  obtain ⟨m, he, hm⟩ := next_spec (by simpa using hc) hs1 (by simpa using hlen)
  refine ⟨_, m, by rw [he, setMaybe_can], by simp, by simp, by simp, fun x => ?_, by simpa using hm,
    (hr.disable src).setMaybe⟩
  rw [setMaybe_maybe, disable_maybe]

/-- The pointer carried upwards: the closest shortcutable process at or above the stop. -/
theorem shortcutableFrom_eq (hc : Chain t.up p (d ++ u))
    (hs : t.SkipsOn (d ++ u)) (hlen : (d ++ u).length ≤ t.size) (hsa : ∀ s, sa = some s → s = u.find? t.can) :
    t.shortcutableFrom u.head? sa = some (u.find? t.can) := by
  cases sa with
  | some s => rw [shortcutableFrom, hsa s rfl]
  | none =>
    cases u with
    | nil => cases h : t.size <;> simp [shortcutableFrom, climb]
    | cons s u =>
      simp only [length_append, length_cons] at hlen
      exact climb_from hc.suffix (fun x hx => hs x (mem_append_right _ hx)) (by omega)

/-- The branch is `d ++ u`, and the stop is where `u` begins. Pointers above are good as
    they stand; those of the processes already passed once all of `d` is disabled. -/
theorem bubbleUpLoop_spec (hu : stop = u.head?) :
    ∀ (n : Nat) (t : ExecTree) (this : Nat) (l : List Nat) (src : Option Nat) (sa : Option (Option Nat)),
      this :: l = d ++ u → Chain t.up this l → l.length ≤ t.size → d.length < n → t.SkipsOn (this :: l) →
      (∀ x lx, Chain t.up x lx → SkipOk (cleared t.can d) lx (t.maybe x)) → t.ReasonOk →
      (∀ s, sa = some s → s = u.find? t.can) →
      ∃ t', bubbleUpLoop stop reason n t this src sa = some t' ∧ Bubbled t t' d := by
  induction d with
  | nil =>
    intro n t this l src sa hl _ _ hn _ hall hr _
    obtain ⟨n, rfl⟩ : ∃ k, n = k + 1 := ⟨n - 1, by simp at hn; omega⟩
    have hstop : some this = stop := by rw [hu, ← nil_append u, ← hl]; rfl
    refine ⟨t, by rw [bubbleUpLoop, if_pos hstop], rfl, rfl, ?_, hall, hr⟩
    funext x
    rw [cleared_of_not_mem not_mem_nil]
  | cons a d ih =>
    intro n t this l src sa hl hc hlen hn hs hall hr hsa
    obtain ⟨n, rfl⟩ : ∃ k, n = k + 1 := ⟨n - 1, by simp at hn; omega⟩
    obtain ⟨rfl, rfl⟩ : this = a ∧ l = d ++ u := by simpa using hl
    have hthis : this ∉ d ++ u := hc.self_not_mem
    have hthisu : ∀ x ∈ u, x ∉ [this] := fun x hx h =>
      hthis (mem_singleton.mp h ▸ mem_append_right _ hx)
    have hstop : some this ≠ stop := fun h =>
      hthis (mem_append_right _ (mem_of_mem_head? (hu ▸ h.symm)))
    obtain ⟨t1, m, hnext, hsize, hup, hcan, hmaybe, hm, hr1⟩ :=
      bubble_level reason (some (src.getD this)) hc hlen hs hr
    have hF : cleared t1.can d = cleared t.can (this :: d) := by rw [hcan, cleared_cons]
    have hs1 : t1.SkipsOn (d ++ u) := by
      intro x hx lx hcx
      rw [hcan, hmaybe, if_neg (fun h : x = this => hthis (h ▸ hx))]
      exact (hs x (mem_cons_of_mem _ hx) lx (hup ▸ hcx)).mono fun _ _ => cleared_of_false
    rw [bubbleUpLoop, if_neg hstop]
    simp only [hnext, Option.bind_eq_bind, Option.bind_some]
    by_cases hnone : (d ++ u).find? t1.can = none
    · -- nothing above is shortcutable any more, so the rest of `d` is disabled already
      have hoff : ∀ x ∈ d ++ u, t1.can x = false := by simpa using List.find?_eq_none.mp hnone
      have hcan' : t1.can = cleared t.can (this :: d) := by
        rw [← hF]
        funext x
        by_cases hx : x ∈ d
        · rw [cleared_of_mem hx, hoff x (mem_append_left _ hx)]
        · rw [cleared_of_not_mem hx]
      refine ⟨t1, by rw [if_pos hnone], hsize, hup, hcan', fun x lx hcx => ?_, hr1⟩
      rw [hmaybe]
      split
      · rename_i hx
        subst hx
        rw [← hc.unique hcx, ← hcan']
        exact hm
      · exact hall x lx hcx
    · have hfind : u.find? t1.can = u.find? t.can := by rw [hcan]; exact find?_cleared hthisu
      have hsa1 : t1.shortcutableFrom stop sa = some (u.find? t1.can) := by
        rw [hu]
        exact shortcutableFrom_eq (hup ▸ hc) hs1 (hsize ▸ hlen) fun s h => by rw [hsa s h, hfind]
      obtain ⟨parent, l', hl'⟩ : ∃ parent l', d ++ u = parent :: l' := by
        cases h : d ++ u with
        | nil => rw [h] at hnone; exact absurd rfl hnone
        | cons a l => exact ⟨a, l, rfl⟩
      obtain ⟨hparent, hc'⟩ : t.up this = some parent ∧ Chain t.up parent l' := by
        rw [hl'] at hc
        cases hc with | step h h' => exact ⟨h, h'⟩
      simp only [if_neg hnone, hsa1, setMaybe_up, hup, hparent]
      have hmaybe2 : ∀ x, (t1.setMaybe this (u.find? t1.can)).maybe x =
          if x = this then u.find? t1.can else t.maybe x := by
        intro x
        rw [setMaybe_maybe, hmaybe]
        split <;> rfl
      have hall2 : ∀ x lx, Chain t.up x lx →
          SkipOk (cleared t1.can d) lx ((t1.setMaybe this (u.find? t1.can)).maybe x) := by
        intro x lx hcx
        rw [hmaybe2]
        split
        · rename_i hx
          subst hx
          rw [← hc.unique hcx]
          exact ((skipOk_find? t1.can u).mono fun _ _ => cleared_of_false).prepend fun _ => cleared_of_mem
        · rw [hF]
          exact hall x lx hcx
      rw [hl'] at hs1 hthis hlen
      obtain ⟨t', he, hb⟩ := ih n (t1.setMaybe this (u.find? t1.can)) parent l'
        (some (src.getD this)) (some (u.find? t1.can)) hl'.symm (by rwa [setMaybe_up, hup])
        (by rw [setMaybe_size]; simp at hlen; omega) (by simp at hn; omega)
        (fun x hx lx hcx => by
          rw [setMaybe_maybe, if_neg (fun h : x = this => hthis (h ▸ hx)), setMaybe_can]
          exact hs1 x hx lx (by simpa using hcx))
        (fun x lx hcx => by
          rw [setMaybe_can]
          exact hall2 x lx (by rwa [setMaybe_up, hup] at hcx))
        hr1.setMaybe (fun s h => by cases h; rw [setMaybe_can])
      have hskip := hb.skip
      rw [setMaybe_up, setMaybe_can, hup, hF] at hskip
      refine ⟨t', he, hb.size.trans hsize, by rw [hb.up, setMaybe_up, hup], ?_, hskip, hb.reason⟩
      rw [hb.can, setMaybe_can, hF]

/-- Bubbling up ends, and disables exactly the processes below the stop. -/
theorem Inv.bubbleUp (h : t.Inv) (hc : Chain t.up this l)
    (hl : this :: l = d ++ u) (hu : stop = u.head?) (reason : String) :
    ∃ t', t.disableShortcuttingBubbleUpToExcl this stop reason = some t' ∧ Bubbled t t' d := by
  have hlen := h.length_le hc
  have hd := congrArg List.length hl
  simp only [length_cons, length_append] at hd
  exact bubbleUpLoop_spec hu _ _ _ _ _ _ hl hc hlen (by omega) (h.skipsOn _)
    (fun x lx hcx => (h.skip hcx).mono fun _ _ => cleared_of_false) h.reason fun _ => nofun

/-! ## New processes -/

/-- `l` lists `parent` and its ancestors. -/
def Above (t : ExecTree) (parent : Option Nat) (l : List Nat) : Prop :=
  match parent with
  | none => l = []
  | some q => ∃ lq, Chain t.up q lq ∧ l = q :: lq

theorem Inv.closestAbove (h : t.Inv) (parent : Option Nat) :
    ∃ l t1, t.closestAbove parent = some (l.find? t.can, t1) ∧ t1.Above parent l ∧ t1.Inv ∧
      t1.size = t.size ∧ t1.up = t.up ∧ t1.can = t.can := by
  cases parent with
  | none => exact ⟨[], t, rfl, rfl, h, rfl, rfl, rfl⟩
  | some q =>
    obtain ⟨lq, hc⟩ := h.chain q
    obtain ⟨m, he, h1⟩ := h.closest hc
    exact ⟨q :: lq, _, he, ⟨lq, by simpa using hc, rfl⟩, h1, by simp, by simp, by simp⟩

/-- A process without children is put below its parent, with the pointer that is read there. -/
theorem Inv.link (t' : ExecTree) (x : ExecedProcess) (p : Nat) (h : t.Inv) (hleaf : ∀ y, t.up y ≠ some p)
    (hpar : ∀ q ∈ x.parentExecPoint, q ≠ p ∧ q < t'.size) (hl : t.Above x.parentExecPoint l)
    (hsize : t.size ≤ t'.size) (hproc : ∀ y, t'.proc y = if y = p then x else t.proc y)
    (hm : x.maybeShortcutableAncestor = l.find? t.can) (hr : x.canShortcut = x.cantShortcutReason.isNone) :
    t'.Inv ∧ (∀ y, t'.up y = if y = p then x.parentExecPoint else t.up y) ∧
      ∀ y, t'.can y = if y = p then x.canShortcut else t.can y := by
  have hup : ∀ y, t'.up y = if y = p then x.parentExecPoint else t.up y := by
    intro y; simp only [up, hproc]; split <;> rfl
  have hcan : ∀ y, t'.can y = if y = p then x.canShortcut else t.can y := by
    intro y; simp only [can, hproc]; split <;> rfl
  have hmaybe : ∀ y, t'.maybe y = if y = p then l.find? t.can else t.maybe y := by
    intro y; rw [← hm]; simp only [maybe, hproc]; split <;> rfl
  have hnot : ∀ {y ly}, Chain t.up y ly → p ∉ ly := by
    intro y ly hc hp
    obtain ⟨z, hz⟩ := hc.mem_parent hp
    exact hleaf z hz
  have hkeep : ∀ {y ly}, Chain t.up y ly → y ≠ p → Chain t'.up y ly := by
    intro y ly hc hy
    refine hc.congr fun z hz => ?_
    rw [hup, if_neg]
    rintro rfl
    rcases mem_cons.mp hz with hz | hz
    · exact hy hz.symm
    · exact hnot hc hz
  have hnew : Chain t'.up p l ∧ p ∉ l := by
    have hp : t'.up p = x.parentExecPoint := by rw [hup, if_pos rfl]
    cases hx : x.parentExecPoint with
    | none =>
      rw [hx] at hl hp
      exact ⟨by rw [hl]; exact .root hp, by rw [hl]; exact not_mem_nil⟩
    | some q =>
      rw [hx] at hl hp
      obtain ⟨lq, hq, rfl⟩ := hl
      have hne := (hpar q hx).1
      refine ⟨.step hp (hkeep hq hne), fun hmem => ?_⟩
      rcases mem_cons.mp hmem with hmem | hmem
      · exact hne hmem.symm
      · exact hnot hq hmem
  refine ⟨⟨fun y => ?_, fun {y q} hy => ?_, fun {y ly} hc => ?_, fun y => ?_⟩, hup, hcan⟩
  · by_cases hy : y = p
    · exact ⟨l, hy ▸ hnew.1⟩
    · obtain ⟨ly, hc⟩ := h.chain y
      exact ⟨ly, hkeep hc hy⟩
  · rw [hup] at hy
    split at hy
    · exact (hpar q hy).2
    · exact Nat.lt_of_lt_of_le (h.lt hy) hsize
  · rw [hmaybe]
    split
    · rename_i hy
      subst hy
      rw [hc.unique hnew.1]
      exact (skipOk_find? t.can l).mono fun z hz hoff => by
        rw [hcan, if_neg fun hzy : z = y => hnew.2 (hzy ▸ hz)]; exact hoff
    · rename_i hy
      obtain ⟨ly', hc'⟩ := h.chain y
      obtain rfl := hc.unique (hkeep hc' hy)
      exact (h.skip hc').mono fun z hz hoff => by
        rw [hcan, if_neg fun hzp : z = p => hnot hc' (hzp ▸ hz)]; exact hoff
  · rw [hcan, hproc]
    split
    · exact hr
    · exact h.reason y

/-- The constructor ends; the new process is shortcutable and below `parent`. -/
theorem Inv.exec (h : t.Inv) (hp : ∀ q ∈ parent, q < t.size) :
    ∃ t', t.exec parent = some t' ∧ t'.Inv ∧ t'.size = t.size + 1 ∧
      (∀ x, t'.up x = if x = t.size then parent else t.up x) ∧
      (∀ x, t'.can x = if x = t.size then true else t.can x) := by
  obtain ⟨l, t1, he, hl, h1, hsize, hup, hcan⟩ := h.closestAbove parent
  obtain ⟨hinv, hup', hcan'⟩ := h1.link ⟨t1.size + 1, _⟩
    { parentExecPoint := parent, maybeShortcutableAncestor := l.find? t.can } t1.size
    (fun x hx => Nat.lt_irrefl _ (h1.lt hx)) (fun q hq => by have := hp q hq; simp only; omega)
    hl (Nat.le_succ _) (fun _ => rfl) (by rw [hcan]) rfl
  exact ⟨_, by rw [ExecTree.exec, he]; rfl, hinv, congrArg (· + 1) hsize, hsize ▸ hup ▸ hup', hsize ▸ hcan ▸ hcan'⟩

/-- A queued posix_spawn() child, without parent or children, is put below its parent. -/
theorem Inv.setParent (h : t.Inv) (hleaf : ∀ x, t.up x ≠ some p) (hq : q < t.size) (hne : q ≠ p) :
    ∃ t', t.setParent p q = some t' ∧ t'.Inv ∧ t'.size = t.size ∧
      (∀ x, t'.up x = if x = p then some q else t.up x) ∧ t'.can = t.can := by
  obtain ⟨l, t1, he, hl, h1, hsize, hup, hcan⟩ := h.closestAbove (some q)
  let f : ExecedProcess → ExecedProcess := fun x =>
    { x with parentExecPoint := some q, maybeShortcutableAncestor := l.find? t.can }
  obtain ⟨hinv, hup', hcan'⟩ := h1.link (t1.modify p f) (f (t1.proc p)) p (by rwa [hup])
    (fun q' hq' => by cases hq'; exact ⟨hne, hsize ▸ hq⟩) hl (Nat.le_refl _)
    (fun y => by simp only [modify]; split <;> simp_all) (by rw [hcan]) (h1.reason p)
  refine ⟨_, by rw [ExecTree.setParent, he]; rfl, hinv, hsize, hup ▸ hup', funext fun y => ?_⟩
  rw [hcan', ← hcan]
  split
  · rename_i hy
    rw [hy]
    rfl
  · rfl

/-! ## Every reachable tree -/

inductive Step (t : ExecTree) : ExecTree → Prop
  | exec {parent : Option Nat} {t' : ExecTree} : (∀ q ∈ parent, q < t.size) → t.exec parent = some t' → Step t t'
  | setParent {p q : Nat} {t' : ExecTree} : t.up p = none → (∀ x, t.up x ≠ some p) → q < t.size → q ≠ p →
      t.setParent p q = some t' → Step t t'
  | nextShortcutableAncestor {p : Nat} {r : Option Nat} {t' : ExecTree} :
      t.nextShortcutableAncestor p = some (r, t') → Step t t'
  | disableShortcuttingOnlyThis (this : Nat) (reason : String) (p : Option Nat) :
      Step t (t.disableShortcuttingOnlyThis this reason p)
  | disableShortcuttingBubbleUpToExcl {this : Nat} {stop : Option Nat} {reason : String} {t' : ExecTree} :
      (∀ s ∈ stop, AtOrAbove t.up this s) → t.disableShortcuttingBubbleUpToExcl this stop reason = some t' →
      Step t t'

inductive Reach : ExecTree → Prop
  | empty : Reach empty
  | step {t t' : ExecTree} : Reach t → Step t t' → Reach t'

/-- Below the stop, and from the stop on. -/
theorem split_at_stop (hc : Chain up this l)
    (hs : ∀ s ∈ stop, AtOrAbove up this s) : ∃ d u, this :: l = d ++ u ∧ stop = u.head? := by
  cases stop with
  | none => exact ⟨this :: l, [], by simp, rfl⟩
  | some s =>
    obtain ⟨l', hc', hm⟩ := hs s rfl
    rw [← hc.unique hc'] at hm
    obtain ⟨d, u, h⟩ := append_of_mem hm
    exact ⟨d, s :: u, h, rfl⟩

/-- What is disabled from the process up to the stop, exclusively. -/
structure DisabledTo (t t' : ExecTree) (this : Nat) (stop : Option Nat) : Prop where
  inv : t'.Inv
  size : t'.size = t.size
  up : t'.up = t.up
  can : ∀ q, t'.can q = true ↔ t.can q = true ∧ (AtOrAbove t.up this q → ∃ x ∈ stop, AtOrAbove t.up x q)

theorem Inv.disabledTo (h : t.Inv) (hs : ∀ x ∈ stop, AtOrAbove t.up this x) (reason : String) :
    ∃ t', t.disableShortcuttingBubbleUpToExcl this stop reason = some t' ∧ DisabledTo t t' this stop := by
  obtain ⟨l, hc⟩ := h.chain this
  obtain ⟨d, u, hl, hu⟩ := split_at_stop hc hs
  obtain ⟨t', he, hb⟩ := h.bubbleUp hc hl hu reason
  refine ⟨t', he, hb.inv h, hb.size, hb.up, fun q => ?_⟩
  rw [hb.can]
  by_cases hq : q ∈ d
  · rw [cleared_of_mem hq]
    refine iff_of_false (by simp) fun ⟨_, hbelow⟩ => ?_
    obtain ⟨x, hx, l', hc', hql'⟩ := hbelow ⟨l, hc, hl ▸ mem_append_left u hq⟩
    obtain ⟨v, rfl⟩ := List.head?_eq_some_iff.mp (hu.symm.trans hx)
    -- nobody is both below the stop and from the stop on
    rw [hc'.unique (hc.of_cons_append hl)] at hql'
    exact disjoint_of_nodup_append (hl ▸ hc.nodup) hq hql'
  · rw [cleared_of_not_mem hq]
    refine (and_iff_left ?_).symm
    rintro ⟨l', hc', hm⟩
    rw [hc'.unique hc, hl] at hm
    have hqu := (mem_append.mp hm).resolve_left hq
    cases u with
    | nil => cases hqu
    | cons x v => exact ⟨x, hu, v, hc.of_cons_append hl, hqu⟩

theorem Step.inv (h : t.Inv) (hs : Step t t') : t'.Inv := by
  cases hs with
  | exec hp he =>
    obtain ⟨t1, he1, h1, _⟩ := h.exec hp
    rw [he] at he1
    cases he1
    exact h1
  | setParent _ hleaf hq hne he =>
    obtain ⟨t1, he1, h1, _⟩ := h.setParent hleaf hq hne
    rw [he] at he1
    cases he1
    exact h1
  | nextShortcutableAncestor he =>
    rename_i p r
    obtain ⟨l, hc⟩ := h.chain p
    obtain ⟨m, he1, h1⟩ := h.next hc
    rw [he] at he1
    cases he1
    exact h1
  | disableShortcuttingOnlyThis this reason src => exact h.disable src
  | disableShortcuttingBubbleUpToExcl hstop he =>
    rename_i this stop reason
    obtain ⟨t1, he1, hd⟩ := h.disabledTo hstop reason
    rw [he] at he1
    cases he1
    exact hd.inv

theorem Reach.inv (h : Reach t) : t.Inv := by
  induction h with
  | empty => exact empty_inv
  | step _ hs ih => exact hs.inv ih

theorem Reach.exec (h : Reach t) (hp : ∀ q ∈ parent, q < t.size) :
    ∃ t', Reach t' ∧ t'.size = t.size + 1 ∧ (∀ x, t'.up x = if x = t.size then parent else t.up x) := by
  obtain ⟨t', he, _, hsize, hup, _⟩ := h.inv.exec hp
  exact ⟨t', .step h (.exec hp he), hsize, hup⟩

/-- In every reachable tree, `next_shortcutable_ancestor()` ends and returns the closest
    proper exec ancestor that is still shortcutable, or null if there is none. -/
theorem next_shortcutable_ancestor_exact (h : Reach t) (p : Nat) :
    ∃ l t', Chain t.up p l ∧ t.nextShortcutableAncestor p = some (l.find? t.can, t') := by
  obtain ⟨l, hc⟩ := h.inv.chain p
  obtain ⟨m, he, _⟩ := h.inv.next hc
  exact ⟨l, _, hc, he⟩

/-- A grandchild of a process whose parent was disabled: the stale pointer is passed over. -/
theorem next_shortcutable_ancestor_skips_a_disabled_parent :
    ∃ t, Reach t ∧ t.up 2 = some 1 ∧ t.can 1 = false ∧
      ∃ l t', Chain t.up 2 l ∧ t.nextShortcutableAncestor 2 = some (l.find? t.can, t') := by
  obtain ⟨t1, h1, s1, -⟩ := Reach.empty.exec (fun q hq => (by cases hq) : ∀ q ∈ none, q < 0)
  obtain ⟨t2, h2, s2, -⟩ := h1.exec (fun q hq => (by cases hq; omega) : ∀ q ∈ some 0, q < t1.size)
  obtain ⟨t3, h3, -, u3⟩ := h2.exec (fun q hq => (by cases hq; omega) : ∀ q ∈ some 1, q < t2.size)
  have h4 := Reach.step h3 (.disableShortcuttingOnlyThis 1 "Executable matches skip_cache" none)
  have hsize : t2.size = 2 := by rw [s2, s1]; rfl
  refine ⟨_, h4, ?_, ?_, next_shortcutable_ancestor_exact h4 2⟩
  · rw [disable_up, u3, if_pos hsize.symm]
  · rw [disable_can, cleared_of_mem (mem_singleton.mpr rfl)]

/-! ## The common ancestor -/

/-- The walk from two nodes, of whose paths to the root `mine` and `others` are behind. Nothing
    is behind on both paths, so the first hit is the deepest common node. -/
theorem commonLoop_meet
    (hc1 : Chain up this l1) (hc2 : Chain up other l2) (h1 : this :: l1 = mine.reverse ++ v)
    (h2 : other :: l2 = others.reverse ++ w) (hd : ∀ x ∈ mine, x ∉ others)
    (hn1 : 2 * v.length ≤ n + 1) (hn2 : 2 * w.length ≤ n) :
    Meet up this other (commonLoop up n v.head? w.head? mine others) := by
  induction n generalizing this other l1 l2 mine others v w with
  | zero =>
    obtain rfl : v = [] := eq_nil_of_length_eq_zero (by omega)
    obtain rfl : w = [] := eq_nil_of_length_eq_zero (by omega)
    exact .of_disjoint hc1 hc2 (by simpa [h1, h2] using hd)
  | succ n ih =>
    have hd' : ∀ x ∈ others, x ∉ mine := fun x hx hm => hd x hm hx
    cases v with
    | nil =>
      cases w with
      | nil => exact .of_disjoint hc1 hc2 (by simpa [h1, h2] using hd)
      | cons c u => exact (ih hc2 hc1 h2 h1 hd' hn2 (by simp)).symm
    | cons c u =>
      have hcu : Chain up c u := hc1.of_cons_append h1
      simp only [head?_cons, commonLoop]
      split
      · rename_i hmem
        refine ⟨⟨l1, hc1, h1 ▸ by simp⟩, ⟨l2, hc2, h2 ▸ by simp [hmem]⟩, fun x hx1 hx2 => ?_⟩
        rw [hc1.mem_iff, h1] at hx1
        rw [hc2.mem_iff, h2] at hx2
        rcases mem_append.mp hx1 with hx1 | hx1
        · -- behind on this path, so still ahead on the other one, where the hit is behind
          have hx2 := (mem_append.mp hx2).resolve_left fun h => hd x (mem_reverse.mp hx1) (mem_reverse.mp h)
          obtain ⟨lx, hlx, hx⟩ := (pairwise_append.mp (h2 ▸ hc2.pairwise)).2.2 c (mem_reverse.mpr hmem) x hx2
          exact ⟨lx, hlx, mem_cons_of_mem _ hx⟩
        · exact ⟨u, hcu, hx1⟩
      · rename_i hmem
        have hup : up c = u.head? := by cases hcu <;> assumption
        simp only [length_cons] at hn1
        rw [hup]
        refine (ih hc2 hc1 h2 (by simpa using h1) (fun x hx hm => ?_) hn2 (by omega)).symm
        rcases mem_cons.mp hm with rfl | hm
        · exact hmem hx
        · exact hd x hm hx

theorem Inv.commonExecAncestor_meet (h : t.Inv) (this other : Nat) :
    Meet t.up this other (t.commonExecAncestor this other) := by
  obtain ⟨l1, hc1⟩ := h.chain this
  obtain ⟨l2, hc2⟩ := h.chain other
  have hn1 := h.length_le hc1
  have hn2 := h.length_le hc2
  exact commonLoop_meet (v := this :: l1) (w := other :: l2) hc1 hc2 rfl rfl nofun
    (by simp only [length_cons]; omega) (by simp only [length_cons]; omega)

/-- What `common_exec_ancestor()` returns is at or above both processes. -/
theorem Inv.commonExecAncestor_sound (h : t.Inv)
    (hr : t.commonExecAncestor this other = some r) : AtOrAbove t.up this r ∧ AtOrAbove t.up other r := by
  have hmeet := h.commonExecAncestor_meet this other
  rw [hr] at hmeet
  exact ⟨hmeet.left, hmeet.right⟩

/-- In every reachable tree, the walk from two processes of one tree, that is with somebody at or
    above both, ends at the deepest one that is. -/
theorem common_exec_ancestor_is_the_deepest {root : Nat} (h : Reach t)
    (hthis : AtOrAbove t.up this root) (hother : AtOrAbove t.up other root) :
    ∃ r, t.commonExecAncestor this other = some r ∧ DeepestCommon t.up this other r := by
  have hmeet := h.inv.commonExecAncestor_meet this other
  cases hr : t.commonExecAncestor this other with
  | none =>
    rw [hr] at hmeet
    exact absurd hother (hmeet root hthis)
  | some r => exact ⟨r, rfl, by rwa [hr] at hmeet⟩

/-- A process and its parent. -/
theorem common_exec_ancestor_of_a_child :
    ∃ t, Reach t ∧ t.up 1 = some 0 ∧ ∃ r, t.commonExecAncestor 1 0 = some r ∧ DeepestCommon t.up 1 0 r := by
  obtain ⟨t1, h1, s1, u1⟩ := Reach.empty.exec (fun q hq => (by cases hq) : ∀ q ∈ none, q < 0)
  obtain ⟨t2, h2, -, u2⟩ := h1.exec (fun q hq => (by cases hq; omega) : ∀ q ∈ some 0, q < t1.size)
  have hroot : Chain t2.up 0 [] := .root (by rw [u2, if_neg (by omega), u1]; rfl)
  have hup : t2.up 1 = some 0 := by rw [u2, s1]; rfl
  exact ⟨t2, h2, hup, common_exec_ancestor_is_the_deepest h2 ⟨_, .step hup hroot, .tail _ (.head _)⟩ ⟨_, hroot, .head _⟩⟩

end ExecTree
end Firebuild
