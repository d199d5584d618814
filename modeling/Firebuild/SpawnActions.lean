/-
  Firebuild.SpawnActions — the registry of posix_spawn file actions (`psfa_*` in `intercept.c`,
  `tpl_posix_spawn_file_actions.c.jinja2`).

  The interceptor calls libc first and then notes what was done. An object is known by its
  bytes, which change when an action is added, and the entry of a destroyed object is filled
  with the last one. A failed call notes nothing and is left out. An assertion that fails is `none`.

  Proved: `actions_are_found`, for objects that are initialised only when they are not live and
  can be told from each other. `found_otherwise`: addtcsetpgrp_np() is not noted, a second init
  leaves an entry behind, and a destroyed object whose bytes a live one has is taken for it.
-/

import Mathlib.Data.List.Dedup
import Mathlib.Data.List.Perm.Basic
import Firebuild.Fingerprint

namespace Firebuild.SpawnActions

open List

/-- What the builders hold. -/
inductive Action where
  | open (fd : Int) (pathname : CString) (flags : Int) (mode : Nat)
  | close (fd : Int)
  | closefrom (lowfd : Int)
  | dup2 (oldfd newfd : Int)
  | chdir (pathname : CString)
  | fchdir (fd : Int)
  | inherit (fd : Int)
  | tcsetpgrp (fd : Int)
  deriving DecidableEq

/-- "Do nothing, this is not interesting from shortcutting POV." -/
def Action.noted : Action → Bool
  | tcsetpgrp _ => false
  | _ => true

/-- `psfa` -/
structure Psfa (H : Type) where
  handle : H
  actions : List Action
  deriving DecidableEq

variable {H : Type} {psfas l r : List (Psfa H)} {e : Psfa H} {p : H} {f : Psfa H → Psfa H}

def psfaInit (psfas : List (Psfa H)) (p : H) : List (Psfa H) := psfas ++ [⟨p, []⟩]

section

variable [DecidableEq H]

def psfaFind (psfas : List (Psfa H)) (p : H) : Option (List Action) :=
  (psfas.find? (·.handle = p)).map (·.actions)

/-- The first entry with the handle `p` is changed. -/
def modifyFirst (p : H) (f : Psfa H → Psfa H) : List (Psfa H) → Option (List (Psfa H))
  | [] => none
  | e :: psfas => if e.handle = p then some (f e :: psfas) else (modifyFirst p f psfas).map (e :: ·)

def psfaUpdateActions (psfas : List (Psfa H)) (old new : H) : Option (List (Psfa H)) :=
  if old ≠ new then modifyFirst old (fun e => { e with handle := new }) psfas
  else (psfaFind psfas old).map fun _ => psfas

/-- `psfa_addopen()` and the other ones. -/
def psfaAdd (psfas : List (Psfa H)) (p : H) (a : Action) : Option (List (Psfa H)) :=
  if a.noted then modifyFirst p (fun e => { e with actions := e.actions ++ [a] }) psfas else some psfas

/-- "Keep the array dense by moving the last item to this slot." -/
def psfaDestroy (psfas : List (Psfa H)) (p : H) : List (Psfa H) :=
  match psfas.findIdx? (·.handle = p), psfas.getLast? with
  | some i, some last => (if i < psfas.length - 1 then psfas.set i last else psfas).dropLast
  | _, _ => psfas

variable (hl : ∀ e ∈ l, e.handle ≠ p) (he : e.handle = p)

include hl he

theorem modifyFirst_append : modifyFirst p f (l ++ e :: r) = some (l ++ f e :: r) := by
  induction l with
  | nil => exact if_pos he
  | cons e' l ih =>
    rw [cons_append, modifyFirst, if_neg (hl e' mem_cons_self), ih fun e h => hl e (mem_cons_of_mem _ h)]
    rfl

theorem psfaFind_append : psfaFind (l ++ e :: r) p = some e.actions := by
  have hnone : l.find? (·.handle = p) = none := find?_eq_none.mpr fun e h => by simpa using hl e h
  simp [psfaFind, find?_append, hnone, he]

theorem psfaDestroy_append : (psfaDestroy (l ++ e :: r) p).Perm (l ++ r) := by
  have hidx : (l ++ e :: r).findIdx? (·.handle = p) = some l.length := by
    have hnone : l.findIdx? (·.handle = p) = none := findIdx?_eq_none_iff.mpr fun e h => by simpa using hl e h
    simp [findIdx?_append, hnone, findIdx?_cons, he]
  rcases eq_nil_or_concat' r with rfl | ⟨r, last, rfl⟩
  · simp [psfaDestroy, hidx]
  · have hlast : (l ++ e :: (r ++ [last])).getLast? = some last := by
      rw [← cons_append, ← append_assoc, getLast?_concat]
    simp only [psfaDestroy, hidx, hlast]
    rw [if_pos (by simp), set_append_right _ _ (Nat.le_refl _), Nat.sub_self, set_cons_zero, ← cons_append,
      ← append_assoc, dropLast_concat]
    exact (perm_append_singleton last r).symm.append_left l

end

/-! ## The calls of a program -/

/-- A call on an object, with the bytes that libc leaves in it. -/
inductive Call (H : Type) where
  | init (obj : Nat) (bytes : H)
  | add (obj : Nat) (action : Action) (bytes : H)
  | destroy (obj : Nat)

def Call.obj : Call H → Nat
  | init o _ | add o _ _ | destroy o => o

structure Program (H : Type) where
  objs : Nat → H
  /-- The actions that were added since the last init. -/
  live : Nat → Option (List Action) := fun _ => none

def Program.call (w : Program H) : Call H → Program H
  | .init o h => { objs := Function.update w.objs o h, live := Function.update w.live o (some []) }
  | .add o a h => {
      objs := Function.update w.objs o h, live := Function.update w.live o ((w.live o).map (· ++ [a])) }
  | .destroy o => { w with live := Function.update w.live o none }

/-- An object is initialised while it is not live, and only live ones are used. -/
def Program.Allows (w : Program H) : Call H → Prop
  | .init o _ => w.live o = none
  | .add o _ _ | .destroy o => w.live o ≠ none

/-- No two live objects have the same bytes. -/
def Program.Distinguishable (w : Program H) : Prop :=
  ∀ o o', w.live o ≠ none → w.live o' ≠ none → w.objs o = w.objs o' → o = o'

def Program.Proper (w : Program H) : List (Call H) → Prop
  | [] => True
  | c :: calls => w.Allows c ∧ (w.call c).Distinguishable ∧ (w.call c).Proper calls

/-- The entry that an object has. -/
def Program.entry (w : Program H) (o : Nat) : Option (Psfa H) :=
  (w.live o).map fun acts => ⟨w.objs o, acts.filter Action.noted⟩

/-- Those of the other objects. -/
def Program.others (w : Program H) (os : List Nat) (o : Nat) : List (Psfa H) := (os.erase o).filterMap w.entry

variable {w : Program H} {os : List Nat} {o : Nat} {c : Call H} {acts : List Action}

theorem perm_others (ho : o ∈ os) : (os.filterMap w.entry).Perm ((w.entry o).toList ++ w.others os o) := by
  refine ((perm_cons_erase ho).filterMap w.entry).trans ?_
  rw [filterMap_cons, Program.others]
  cases w.entry o <;> rfl

theorem others_call (hos : os.Nodup) : (w.call c).others os c.obj = w.others os c.obj := by
  refine filterMap_congr fun o ho => ?_
  have hne : o ≠ c.obj := (hos.mem_erase_iff.mp ho).1
  cases c <;> simp_all [Program.entry, Program.call, Call.obj]

theorem handle_of_mem_others (hos : os.Nodup) (hd : w.Distinguishable) (ho : w.live o ≠ none)
    (he : e ∈ w.others os o) : e.handle ≠ w.objs o := by
  obtain ⟨o', ho', hentry⟩ := mem_filterMap.mp he
  obtain ⟨acts, hacts, rfl⟩ := Option.map_eq_some_iff.mp hentry
  exact fun heq => (hos.mem_erase_iff.mp ho').1 (hd o' o (by simp [hacts]) ho heq)

/-- The place of an object's entry. -/
theorem split_entry (hos : os.Nodup) (ho : o ∈ os) (hd : w.Distinguishable) (hacts : w.live o = some acts)
    (hw : psfas.Perm (os.filterMap w.entry)) : ∃ l r, psfas = l ++ ⟨w.objs o, acts.filter Action.noted⟩ :: r ∧
      (l ++ r).Perm (w.others os o) ∧ ∀ e ∈ l, e.handle ≠ w.objs o := by
  have hold := hw.trans (perm_others ho)
  rw [Program.entry, hacts] at hold
  obtain ⟨l, r, rfl⟩ := append_of_mem (hold.mem_iff.mpr mem_cons_self)
  have hrest : (l ++ r).Perm (w.others os o) := (perm_middle.symm.trans hold).cons_inv
  exact ⟨l, r, rfl, hrest, fun e he =>
    handle_of_mem_others hos hd (by simp [hacts]) (hrest.mem_iff.mp (mem_append_left r he))⟩

variable [DecidableEq H]

/-- What the interceptor does after the call of libc. -/
def note (psfas : List (Psfa H)) (w : Program H) : Call H → Option (List (Psfa H))
  | .init _ h => some (psfaInit psfas h)
  | .add o a h => (psfaUpdateActions psfas (w.objs o) h).bind (psfaAdd · h a)
  | .destroy o => some (psfaDestroy psfas (w.objs o))

def run (psfas : List (Psfa H)) (w : Program H) : List (Call H) → Option (List (Psfa H))
  | [] => some psfas
  | c :: calls => (note psfas w c).bind (run · (w.call c) calls)

/-- The entries stay those of the live objects among `os`. -/
theorem note_perm (hos : os.Nodup) (ho : c.obj ∈ os) (hallow : w.Allows c) (hd : w.Distinguishable)
    (hd' : (w.call c).Distinguishable) (hw : psfas.Perm (os.filterMap w.entry)) :
    ∃ psfas', note psfas w c = some psfas' ∧ psfas'.Perm (os.filterMap (w.call c).entry) := by
  have hothers := others_call (w := w) (c := c) hos
  suffices hnew : ∃ psfas', note psfas w c = some psfas' ∧
      psfas'.Perm (((w.call c).entry c.obj).toList ++ w.others os c.obj) by
    obtain ⟨psfas', hnote, hperm⟩ := hnew
    rw [← hothers] at hperm
    exact ⟨psfas', hnote, hperm.trans (perm_others ho).symm⟩
  cases c with
  | init o h =>
    have hold := hw.trans (perm_others ho)
    have hnone : w.live o = none := hallow
    have hentry : (w.call (.init o h)).entry o = some ⟨h, []⟩ := by simp [Program.entry, Program.call]
    rw [Call.obj, Program.entry, hnone] at hold
    rw [Call.obj, hentry]
    exact ⟨_, rfl, (perm_append_singleton _ _).trans (hold.cons _)⟩
  | add o a h =>
    obtain ⟨acts, hacts⟩ := Option.ne_none_iff_exists'.mp hallow
    have hentry : (w.call (.add o a h)).entry o = some ⟨h, (acts ++ [a]).filter Action.noted⟩ := by
      simp [Program.entry, Program.call, hacts]
    obtain ⟨l, r, rfl, hrest, hl⟩ := split_entry (o := o) hos ho hd hacts hw
    -- the new bytes are those of no other object
    have hl' : ∀ e ∈ l, e.handle ≠ h := fun e he => by
      have hne := handle_of_mem_others (o := o) hos hd' (by simp [Program.call, hacts])
        (hothers ▸ hrest.mem_iff.mp (mem_append_left r he))
      simpa [Program.call] using hne
    have hupdate : psfaUpdateActions (l ++ ⟨w.objs o, acts.filter Action.noted⟩ :: r) (w.objs o) h =
        some (l ++ ⟨h, acts.filter Action.noted⟩ :: r) := by
      rw [psfaUpdateActions]
      split
      · exact modifyFirst_append hl rfl
      · rename_i heq
        rw [psfaFind_append hl rfl, ← not_not.mp heq]
        rfl
    refine ⟨l ++ ⟨h, (acts ++ [a]).filter Action.noted⟩ :: r, ?_, ?_⟩
    · rw [note, hupdate, Option.bind_some, psfaAdd]
      split
      · rename_i hnoted
        rw [modifyFirst_append hl' rfl]
        simp [hnoted]
      · rename_i hnoted
        simp [hnoted]
    · rw [Call.obj, hentry]
      exact perm_middle.trans (hrest.cons _)
  | destroy o =>
    obtain ⟨acts, hacts⟩ := Option.ne_none_iff_exists'.mp hallow
    have hentry : (w.call (.destroy o)).entry o = none := by simp [Program.entry, Program.call]
    obtain ⟨l, r, rfl, hrest, hl⟩ := split_entry (o := o) hos ho hd hacts hw
    rw [Call.obj, hentry]
    exact ⟨_, rfl, (psfaDestroy_append hl rfl).trans hrest⟩

/-! ## Every sequence of calls -/

theorem run_perm (calls : List (Call H)) (hos : os.Nodup) (ho : ∀ c ∈ calls, c.obj ∈ os) (hd : w.Distinguishable)
    (hp : w.Proper calls) (hw : psfas.Perm (os.filterMap w.entry)) :
    (calls.foldl Program.call w).Distinguishable ∧ ∃ psfas', run psfas w calls = some psfas' ∧
      psfas'.Perm (os.filterMap (calls.foldl Program.call w).entry) := by
  induction calls generalizing psfas w with
  | nil => exact ⟨hd, psfas, rfl, hw⟩
  | cons c calls ih =>
    obtain ⟨hallow, hd', hp⟩ := hp
    rw [forall_mem_cons] at ho
    obtain ⟨psfas', hnote, hw'⟩ := note_perm hos ho.1 hallow hd hd' hw
    rw [run, hnote, Option.bind_some]
    exact ih ho.2 hd' hp hw'

def Program.after (objs : Nat → H) (calls : List (Call H)) : Program H := calls.foldl Program.call { objs }

/-- After every proper sequence of calls the actions that are found for a live object are those
    that were added since its last init, in order, and none are found for bytes that no live
    object has. -/
theorem actions_are_found (objs : Nat → H) (calls : List (Call H)) (hp : Program.Proper { objs } calls) :
    ∃ psfas, run [] { objs } calls = some psfas ∧
      (∀ o acts, (Program.after objs calls).live o = some acts →
        psfaFind psfas ((Program.after objs calls).objs o) = some (acts.filter Action.noted)) ∧
      ∀ p, (∀ o, (Program.after objs calls).live o ≠ none → (Program.after objs calls).objs o ≠ p) →
        psfaFind psfas p = none := by
  have hperm (o : Nat) := run_perm calls (nodup_dedup (o :: calls.map Call.obj))
    (fun c hc => mem_dedup.mpr (mem_cons_of_mem o (mem_map_of_mem hc))) (by simp [Program.Distinguishable]) hp
    (by simp [Program.entry] : [].Perm _)
  obtain ⟨hd, psfas, hrun, hbase⟩ := hperm 0
  refine ⟨psfas, hrun, fun o acts hacts => ?_, fun p hnone => ?_⟩
  · obtain ⟨-, psfas', hrun', hw⟩ := hperm o
    obtain rfl := Option.some.inj (hrun.symm.trans hrun')
    obtain ⟨l, r, rfl, -, hl⟩ := split_entry (nodup_dedup _) (mem_dedup.mpr mem_cons_self) hd hacts hw
    exact psfaFind_append hl rfl
  · have hne : ∀ e ∈ psfas, e.handle ≠ p := fun e he => by
      obtain ⟨o, -, hentry⟩ := mem_filterMap.mp (hbase.mem_iff.mp he)
      obtain ⟨acts, hacts, rfl⟩ := Option.map_eq_some_iff.mp hentry
      exact hnone o (by simp [Program.after, hacts])
    simpa [psfaFind] using hne

def twoObjects : List (Call Nat) := [.init 0 5, .add 0 (.close 3) 6, .init 1 5, .add 1 (.dup2 1 2) 7, .destroy 0]

theorem actions_are_found_for_two_objects : ∃ psfas, run [] { objs := fun _ => 0 } twoObjects = some psfas ∧
    psfaFind psfas 7 = some [.dup2 1 2] ∧ psfaFind psfas 6 = none := by
  obtain ⟨psfas, hrun, hlive, hnone⟩ := actions_are_found (fun _ => 0) twoObjects (by
    simp only [twoObjects, Program.Proper, Program.Allows, Program.Distinguishable, Program.call, Function.update_apply]
    grind)
  refine ⟨psfas, hrun, hlive 1 _ rfl, hnone 6 ?_⟩
  simp only [twoObjects, Program.after, foldl_cons, foldl_nil, Program.call, Function.update_apply]
  grind

theorem found_otherwise :
    ((run [] { objs := fun _ => 0 } [.init 0 5, .add 0 (.tcsetpgrp 1) 6]).bind (psfaFind · 6) = some [] ∧
      (Program.after (fun _ => 0) [.init 0 5, .add 0 (.tcsetpgrp 1) 6]).live 0 = some [.tcsetpgrp 1]) ∧
    (run [] { objs := fun _ => 0 } [.init 0 5, .init 0 5, .destroy 0]).bind (psfaFind · 5) = some [] ∧
    (run [] { objs := fun _ => 0 } [.init 0 5, .destroy 0, .init 1 5]).bind (psfaFind · 5) = some [] := by
  decide

end Firebuild.SpawnActions
