/-
  Lib.Frames — cutting a stream into frames while it arrives.

  A format reads one frame off the front of the data that is there, or says that more data is
  needed. A reader drains what it has got so far and keeps the rest for the next time.

  Proved: draining what came first and then the kept rest with what came later gives what
  draining it all at once gives (`frames_append`, `rest_append`), and what was written frame
  by frame is read back (`frames_flatMap`).
-/

import Mathlib.Data.List.Basic

namespace Firebuild.Lib.Frames

/-- More data after a frame does not change the frame. -/
structure Format (α β : Type) where
  next : List β → Option (α × List β)
  length_lt : ∀ {s a r}, next s = some (a, r) → r.length < s.length
  next_append : ∀ {s a r}, next s = some (a, r) → ∀ t, next (s ++ t) = some (a, r ++ t)

namespace Format

variable {α β : Type} (F : Format α β)

def drain : Nat → List β → List α × List β
  | 0, s => ([], s)
  | fuel + 1, s =>
    match F.next s with
    | none => ([], s)
    | some (a, r) => (a :: (drain fuel r).1, (drain fuel r).2)

/-- The frames that are complete. -/
def frames (s : List β) : List α := (F.drain s.length s).1

/-- The data after the last complete frame. -/
def rest (s : List β) : List β := (F.drain s.length s).2

variable {F} {s : List β}

/-- Every frame takes some of the data, so its length is enough fuel. -/
theorem drain_enough (h : s.length ≤ n) : F.drain n s = F.drain s.length s := by
  induction n using Nat.strongRecOn generalizing s with
  | ind n ih =>
    cases n with
    | zero => rw [Nat.le_zero.mp h]
    | succ n =>
      cases hnext : F.next s with
      | none => cases hlen : s.length <;> simp [drain, hnext]
      | some p =>
        obtain ⟨a, r⟩ := p
        have hlt := F.length_lt hnext
        obtain ⟨m, hm⟩ : ∃ m, s.length = m + 1 := ⟨s.length - 1, by omega⟩
        have hn : F.drain n r = F.drain r.length r := ih n (by omega) (by omega)
        have hm' : F.drain m r = F.drain r.length r := ih m (by omega) (by omega)
        rw [hm]
        simp only [drain, hnext, hn, hm']

theorem frames_of_none (h : F.next s = none) : F.frames s = [] ∧ F.rest s = s := by
  unfold frames rest
  cases s.length <;> simp [drain, h]

theorem frames_of_some (h : F.next s = some (a, r)) :
    F.frames s = a :: F.frames r ∧ F.rest s = F.rest r := by
  have hlt := F.length_lt h
  obtain ⟨m, hm⟩ : ∃ m, s.length = m + 1 := ⟨s.length - 1, by omega⟩
  unfold frames rest
  rw [hm]
  simp only [drain, h, drain_enough (show r.length ≤ m by omega), and_self]

theorem frames_rest_append (s t : List β) :
    F.frames (s ++ t) = F.frames s ++ F.frames (F.rest s ++ t) ∧ F.rest (s ++ t) = F.rest (F.rest s ++ t) := by
  induction hlen : s.length using Nat.strongRecOn generalizing s with
  | ind n ih =>
    cases hnext : F.next s with
    | none =>
      rw [(frames_of_none hnext).1, (frames_of_none hnext).2]
      exact ⟨rfl, rfl⟩
    | some p =>
      obtain ⟨a, r⟩ := p
      obtain ⟨hframes, hrest⟩ := frames_of_some hnext
      obtain ⟨hframes', hrest'⟩ := frames_of_some (F.next_append hnext t)
      obtain ⟨ihf, ihr⟩ := ih r.length (hlen ▸ F.length_lt hnext) r rfl
      rw [hframes, hrest, hframes', hrest', ihf, ihr]
      exact ⟨rfl, rfl⟩

theorem frames_append (s t : List β) : F.frames (s ++ t) = F.frames s ++ F.frames (F.rest s ++ t) :=
  (frames_rest_append s t).1

/-- Nothing complete is left. -/
theorem frames_rest (s : List β) : F.frames (F.rest s) = [] ∧ F.rest (F.rest s) = F.rest s := by
  have h := frames_rest_append (F := F) s []
  rw [List.append_nil, List.append_nil] at h
  exact ⟨List.self_eq_append_right.mp h.1, h.2.symm⟩

theorem frames_prefix (h : s <+: t) : F.frames s <+: F.frames t := by
  obtain ⟨u, rfl⟩ := h
  rw [frames_append]
  exact List.prefix_append _ _

/-- What was written frame by frame is read back. -/
theorem frames_flatMap (h : ∀ a t, F.next (enc a ++ t) = some (a, t)) (l : List α) :
    F.frames (l.flatMap enc) = l := by
  induction l with
  | nil => rfl
  | cons a l ih => rw [List.flatMap_cons, (frames_of_some (h a _)).1, ih]

end Format
end Firebuild.Lib.Frames
