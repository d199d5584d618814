/-
  Firebuild.CloseRange — close_range() and closefrom() in the interceptor
  (`tpl_close_range.c.jinja2`, `tpl_closefrom.c.jinja2`): the connection to the supervisor is
  left out of the range.

  If it is strictly inside, the two calls for what is below and above it get no flags, so fds
  are closed that should be marked, that other threads should keep, or that should be left
  alone because of an invalid flag. A negative `lowfd` makes the lower range empty
  (`a_hole_drops_the_flags`, `connection_is_spared_iff`).
-/

import Mathlib.Algebra.Ring.Int.Defs
import Mathlib.Algebra.Ring.Nat
import Mathlib.Tactic.SplitIfs

namespace Firebuild.CloseRange

/-- CLOSE_RANGE_UNSHARE, CLOSE_RANGE_CLOEXEC, and whether any other bit is set. -/
structure Flags where
  unshare : Bool := false
  cloexec : Bool := false
  unknown : Bool := false

/-- The close-on-exec flags of the open fds, for the calling thread (`true`) and for the others.
    A `shared` table is one for all of them. -/
structure Files where
  table : Bool → Nat → Option Bool
  shared : Bool

def Files.change (s : Files) (f : Nat → Option Bool → Option Bool) : Files :=
  { s with table := fun mine fd => if mine || s.shared then f fd (s.table mine fd) else s.table mine fd }

/-- The kernel's close_range(), with its return value. -/
def origCloseRange (first last : Nat) (flags : Flags) (s : Files) : Int × Files :=
  if flags.unknown || last < first then (-1, s)
  else
    (0, { s with shared := s.shared && !flags.unshare }.change fun fd x =>
      if first ≤ fd ∧ fd ≤ last then (if flags.cloexec then x.map fun _ => true else none) else x)

def origClosefrom (lowfd : Int) (s : Files) : Files := s.change fun fd x => if lowfd ≤ fd then none else x

/-- `conn` is `fb_sv_conn`. -/
def closeRange (conn first last : Nat) (flags : Flags) (s : Files) : Int × Files :=
  if first > conn ∨ last < conn then origCloseRange first last flags s
  else if first = conn ∧ last = conn then (0, s)
  else if first = conn then origCloseRange (first + 1) last flags s
  else if last = conn then origCloseRange first (last - 1) flags s
  else
    let (ret1, s) := origCloseRange first (conn - 1) {} s
    let (ret2, s) := origCloseRange (conn + 1) last {} s
    (if ret1 = 0 ∧ ret2 = 0 then 0 else -1, s)

def toUnsigned (n : Int) : Nat := (n % 2 ^ 32).toNat

def closefrom (conn : Nat) (lowfd : Int) (s : Files) : Files :=
  if lowfd > conn then origClosefrom lowfd s
  else if lowfd = conn then origClosefrom (lowfd + 1) s
  else origClosefrom (conn + 1) (origCloseRange (toUnsigned lowfd) (toUnsigned (conn - 1)) {} s).2

/-- The connection is as it was, every other fd as after the original call. -/
def Spares (conn : Nat) (s orig s' : Files) : Prop :=
  ∀ mine fd, s'.table mine fd = if fd = conn then s.table mine fd else orig.table mine fd

def allOpen : Files := ⟨fun _ _ => some false, true⟩

variable {conn first last : Nat} {flags : Flags} {lowfd : Int}

/-- An empty range is refused, and would change nothing. -/
theorem origCloseRange_table (s : Files) (mine : Bool) (fd : Nat) : (origCloseRange first last flags s).2.table mine fd =
    if flags.unknown = false ∧ (mine = true ∨ s.shared = true ∧ flags.unshare = false) ∧ first ≤ fd ∧ fd ≤ last then
      (if flags.cloexec then (s.table mine fd).map fun _ => true else none)
    else s.table mine fd := by
  simp only [origCloseRange, Files.change]
  grind

theorem origCloseRange_shared (s : Files) : (origCloseRange first last {} s).2.shared = s.shared := by
  simp only [origCloseRange, Files.change]
  grind

theorem closeRange_spares (h : first < conn ∧ conn < last → flags = {}) (s : Files) :
    Spares conn s (origCloseRange first last flags s).2 (closeRange conn first last flags s).2 := by
  intro mine fd
  unfold closeRange
  split_ifs
  all_goals simp only [origCloseRange_table, origCloseRange_shared]
  all_goals grind

theorem closefrom_spares (hlow : -2 ^ 31 ≤ lowfd) (hconn : conn < 2 ^ 31) (h : 0 ≤ lowfd ∨ conn = 0) (s : Files) :
    Spares conn s (origClosefrom lowfd s) (closefrom conn lowfd s) := by
  intro mine fd
  unfold closefrom
  split_ifs
  all_goals simp only [origClosefrom, Files.change, origCloseRange_table, origCloseRange_shared, toUnsigned]
  all_goals grind

/-- In every table the connection and nothing else is spared, if and only if a call with a flag has the connection not
strictly inside of its range, and `lowfd` is not negative unless the connection is fd 0. -/
theorem connection_is_spared_iff (hlow : -2 ^ 31 ≤ lowfd) (hconn : conn < 2 ^ 31) :
    ((∀ s, Spares conn s (origCloseRange first last flags s).2 (closeRange conn first last flags s).2) ↔
      (first < conn ∧ conn < last → flags = {})) ∧
    ((∀ s, Spares conn s (origClosefrom lowfd s) (closefrom conn lowfd s)) ↔ 0 ≤ lowfd ∨ conn = 0) := by
  refine ⟨⟨fun h hin => ?_, closeRange_spares⟩, ⟨fun h => ?_, closefrom_spares hlow hconn⟩⟩
  · -- the lowest fd of the range is closed, for all threads
    have hmine := h allOpen true first
    have hothers := h allOpen false first
    rw [closeRange, if_neg (by omega), if_neg (by omega), if_neg (by omega), if_neg (by omega)] at hmine hothers
    simp only [origCloseRange_table, allOpen] at hmine hothers
    obtain ⟨unshare, cloexec, unknown⟩ := flags
    grind
  · -- fd 0 stays open
    have hzero := h allOpen true 0
    simp only [closefrom, origClosefrom, Files.change, allOpen, toUnsigned] at hzero
    grind [origCloseRange_table]

/-- stderr and what is above it are to be marked close-on-exec, and are closed. -/
theorem a_hole_drops_the_flags :
    (closeRange 100 2 4294967295 { cloexec := true } allOpen).2.table true 2 = none ∧
    (origCloseRange 2 4294967295 { cloexec := true } allOpen).2.table true 2 = some true ∧
    (closefrom 100 (-1) allOpen).table true 0 = some false ∧ (origClosefrom (-1) allOpen).table true 0 = none := by
  decide

theorem connection_is_spared_iff_above : Spares 100 allOpen (origCloseRange 3 50 { cloexec := true } allOpen).2
    (closeRange 100 3 50 { cloexec := true } allOpen).2 ∧
      Spares 100 allOpen (origClosefrom 3 allOpen) (closefrom 100 3 allOpen) := by
  have h := @connection_is_spared_iff 100 3 50 { cloexec := true } 3 (by decide) (by decide)
  exact ⟨h.1.mpr (by omega) allOpen, h.2.mpr (.inl (by decide)) allOpen⟩

end Firebuild.CloseRange
