/-
  Firebuild.Writev — writing an array of chunks with writev() (`firebuild_common.h`:
  `FB_READV_WRITEV`; `utils.cc`: `fb_writev`).

  The loop steps over the chunks that were written and cuts the one that was written in part, in
  place. `iov` is the list of the entries from the pointer on, `iovcnt` is counted beside it as
  in the source, and looking behind the list ends in `beyond`. `out` is a ghost: what was
  written. The length of all chunks, which is to be returned, is taken to fit into an ssize_t.

  An interrupted call is repeated, so the loop ends only if the interruptions do
  (`fb_writev_writes_all`, `interrupted_for_ever`).
-/

import Mathlib.Data.List.TakeDrop
import Firebuild.BlobCache

namespace Firebuild.Writev

open List

def IOV_MAX : Nat := 1024

inductive Wrote where
  | bytes (n : Nat)
  | eintr
  | failed

def Wrote.ret : Wrote → Int
  | bytes n => n
  | eintr | failed => -1

structure Loop where
  iov : List Bytes
  iovcnt : Int
  written : Int := 0
  remaining : Int
  out : Bytes := []

inductive Outcome where
  | returned (ret : Int) (out : Bytes)
  | beyond

/-- "skip the fully written chunks" and "adjust the partially written chunk" -/
def skip : List Bytes → Int → Nat → Option (List Bytes × Int)
  | [], _, _ => none
  | chunk :: iov, iovcnt, ret =>
    if chunk.length ≤ ret then skip iov (iovcnt - 1) (ret - chunk.length)
    else some (chunk.drop ret :: iov, iovcnt)

def Loop.count (s : Loop) : Nat := (min s.iovcnt IOV_MAX).toNat

/-- One turn of the loop, by what writev() does with the chunks it is given. -/
def turn (call : List Bytes → Wrote) (s : Loop) : Loop ⊕ Outcome :=
  let chunks := s.iov.take s.count
  if s.iov.length < s.count then .inr .beyond
  else if (call chunks).ret = s.remaining then .inr (.returned (s.written + s.remaining) (s.out ++ chunks.flatten))
  else
    match call chunks with
    | .eintr => .inl s
    | .failed => .inr (.returned (-1) s.out)
    | .bytes n =>
      match skip s.iov s.iovcnt n with
      | none => .inr .beyond
      | some (iov, iovcnt) =>
        .inl { iov, iovcnt, written := s.written + n, remaining := s.remaining - n
               out := s.out ++ chunks.flatten.take n }

/-- `none` is a loop that goes on after these calls. -/
def loop : List (List Bytes → Wrote) → Loop → Option Outcome
  | [], _ => none
  | call :: calls, s =>
    match turn call s with
    | .inl s => loop calls s
    | .inr r => some r

def fbWritev (calls : List (List Bytes → Wrote)) (iov : List Bytes) : Option Outcome :=
  loop calls { iov, iovcnt := iov.length, remaining := (iov.map length).sum }

/-- A call of writev() that is interrupted, or writes some of the chunks, and something unless there
    is nothing. -/
structure Answer where
  interrupted : Bool := false
  bytes : List Bytes → Nat := fun chunks => chunks.flatten.length
  le : ∀ chunks, bytes chunks ≤ chunks.flatten.length := by exact fun _ => Nat.le_refl _
  progress : ∀ {chunks}, bytes chunks = 0 → chunks.flatten = [] := by exact eq_nil_of_length_eq_zero

def Answer.call (w : Answer) (chunks : List Bytes) : Wrote := if w.interrupted then .eintr else .bytes (w.bytes chunks)

theorem skip_spec (iov : List Bytes) (c : Int) (n : Nat) (h : n < iov.flatten.length) :
    ∃ iov', skip iov c n = some (iov', c - iov.length + iov'.length) ∧ iov'.flatten = iov.flatten.drop n ∧
      iov'.head? ≠ some [] := by
  induction iov generalizing c n with
  | nil => cases h
  | cons chunk iov ih =>
    rw [skip]
    rw [flatten_cons, length_append] at h
    by_cases hn : chunk.length ≤ n
    · obtain ⟨iov', hskip, hflat, hhead⟩ := ih (c - 1) (n - chunk.length) (by omega)
      refine ⟨iov', ?_, ?_, hhead⟩
      · rw [if_pos hn, hskip, length_cons]
        congr 2
        omega
      · rw [hflat, flatten_cons, drop_append, drop_of_length_le hn, nil_append]
    · refine ⟨chunk.drop n :: iov, ?_, ?_, ?_⟩
      · rw [if_neg hn, length_cons, length_cons, Int.sub_add_cancel]
      · rw [flatten_cons, flatten_cons, drop_append_of_le_length (by omega)]
      · simpa using hn

/-- `all` is written in part. -/
structure Inv (all : Bytes) (s : Loop) : Prop where
  bytes : s.out ++ s.iov.flatten = all
  iovcnt : s.iovcnt = s.iov.length
  written : s.written = s.out.length
  remaining : s.remaining = s.iov.flatten.length

/-- What is left to be done. Only at an empty chunk nothing may be written. -/
def Loop.left (s : Loop) : Nat := s.iov.flatten.length + if s.iov.head? = some [] then 1 else 0

variable {all : Bytes} {s : Loop}

theorem Inv.count (hs : Inv all s) : s.count ≤ s.iov.length ∧ (s.iov ≠ [] → s.count ≠ 0) := by
  rw [← length_pos_iff, Loop.count, hs.iovcnt, IOV_MAX]
  omega

/-- A call ends the loop with all written, or is interrupted, or leaves less to be done. -/
theorem turn_spec (w : Answer) (hs : Inv all s) : turn w.call s = .inr (.returned all.length all) ∨
    ∃ s', turn w.call s = .inl s' ∧ Inv all s' ∧ (if w.interrupted then s'.left = s.left else s'.left < s.left) := by
  obtain ⟨hcount, hsome⟩ := hs.count
  unfold turn
  simp only [if_neg (Nat.not_lt.mpr hcount), Answer.call, hs.remaining]
  cases w.interrupted with
  | true => exact .inr ⟨s, if_neg (show (-1 : Int) ≠ _ by omega), hs, rfl⟩
  | false =>
    have hpre : (s.iov.take s.count).flatten <+: s.iov.flatten := by
      obtain ⟨t, ht⟩ := take_prefix s.count s.iov
      exact ⟨t.flatten, by rw [← flatten_append, ht]⟩
    have hle := w.le (s.iov.take s.count)
    have hprogress := @w.progress (s.iov.take s.count)
    generalize w.bytes (s.iov.take s.count) = n at hle hprogress
    simp only [Bool.false_eq_true, if_false, Wrote.ret, Int.natCast_inj]
    by_cases hn : n = s.iov.flatten.length
    · left
      rw [if_pos hn, hpre.eq_of_length_le (by omega), hs.written, ← Int.natCast_add, ← length_append,
        hs.bytes]
    · have hlt : n < s.iov.flatten.length := by have := hpre.length_le; omega
      obtain ⟨iov, hskip, hflat, hhead⟩ := skip_spec s.iov s.iovcnt n hlt
      have htake : (s.iov.take s.count).flatten.take n = s.iov.flatten.take n := by
        obtain ⟨t, ht⟩ := hpre
        rw [← ht, take_append_of_le_length hle]
      simp only [if_neg hn, hskip, htake]
      refine .inr ⟨_, rfl, ⟨?_, ?_, ?_, ?_⟩, ?_⟩
      · simp only [hflat, append_assoc, take_append_drop, hs.bytes]
      · simp only [hs.iovcnt]
        omega
      · simp only [hs.written, length_append, length_take]
        omega
      · simp only [hflat, length_drop]
        omega
      · simp only [Loop.left, hflat, length_drop, hhead, if_false]
        rcases Nat.eq_zero_or_pos n with h0 | h0
        · -- nothing was written: the chunks that writev() was given are empty
          cases hiov : s.iov with
          | nil => simp [hiov] at hlt
          | cons chunk iov =>
            obtain ⟨k, hk⟩ := Nat.exists_eq_succ_of_ne_zero (hsome (by rw [hiov]; nofun))
            have hempty := hprogress h0
            rw [hk, hiov, take_succ_cons, flatten_cons, append_eq_nil_iff] at hempty
            rw [hempty.1, head?_cons, if_pos rfl]
            omega
        · split <;> omega

theorem loop_spec (ws : List Answer) (hs : Inv all s) :
    loop (ws.map Answer.call) s = some (.returned all.length all) ∨
      loop (ws.map Answer.call) s = none ∧ (ws.filter (!·.interrupted)).length ≤ s.left := by
  induction ws generalizing s with
  | nil => exact .inr ⟨rfl, Nat.zero_le _⟩
  | cons w ws ih =>
    rw [map_cons, loop]
    rcases turn_spec w hs with hret | ⟨s', hnext, hs', hleft⟩
    · rw [hret]
      exact .inl rfl
    · rw [hnext]
      refine (ih hs').imp_right fun ⟨hnone, hle⟩ => ⟨hnone, ?_⟩
      cases hw : w.interrupted <;> simp [hw] at hleft ⊢ <;> omega

/-- However the chunks are written in parts, no entry beyond the array is looked at and the only
    end is that all of them were written once and in order, with their length returned. If that
    is not reached, no more calls than bytes, and one, were not interrupted. -/
theorem fb_writev_writes_all (ws : List Answer) (iov : List Bytes) :
    fbWritev (ws.map Answer.call) iov = some (.returned iov.flatten.length iov.flatten) ∨
      fbWritev (ws.map Answer.call) iov = none ∧ (ws.filter (!·.interrupted)).length ≤ iov.flatten.length + 1 := by
  have hs : Inv iov.flatten { iov, iovcnt := iov.length, remaining := (iov.map length).sum } :=
    ⟨rfl, rfl, rfl, congrArg Int.ofNat length_flatten.symm⟩
  refine (loop_spec ws hs).imp_right fun ⟨hnone, hle⟩ => ⟨hnone, Nat.le_trans hle ?_⟩
  simp only [Loop.left]
  split <;> omega

theorem interrupted_for_ever :
    ¬∃ n r, fbWritev ((replicate n { interrupted := true }).map Answer.call) [[1]] = some r := by
  rintro ⟨n, r, h⟩
  induction n with
  | zero => cases h
  | succ n ih => exact ih h

end Firebuild.Writev
