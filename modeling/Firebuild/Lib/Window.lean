/-
  Firebuild.Lib.Window — programs that fill a part of the memory.

  A memory gives the byte at every address, and `write` puts a list of bytes at an address.
  A transformer `Fills` a set of addresses if it writes exactly those: nothing else changes,
  and what it leaves there does not depend on what was there. One transformer after another
  fills what either fills (`Fills.comp`), and the later one may write over the earlier one.
-/

import Mathlib.Data.Set.Basic
import Mathlib.Order.Interval.Set.Basic

namespace Firebuild.Lib.Window

abbrev Memory := Nat → UInt8

def write (m : Memory) (a : Nat) (d : List UInt8) : Memory :=
  fun x => if x < a then m x else (d[x - a]?).getD (m x)

structure Fills (S : Set Nat) (f : Memory → Memory) : Prop where
  frame : ∀ m x, x ∉ S → f m x = m x
  fresh : ∀ m m' x, x ∈ S → f m x = f m' x

variable {S T : Set Nat} {f g : Memory → Memory}

theorem Fills.nothing : Fills ∅ fun m => m where
  frame _ _ _ := rfl
  fresh _ _ _ hx := hx.elim

theorem Fills.comp (hf : Fills S f) (hg : Fills T g) : Fills (S ∪ T) fun m => g (f m) where
  frame m x hx := by
    rw [Set.mem_union, not_or] at hx
    rw [hg.frame _ _ hx.2, hf.frame _ _ hx.1]
  fresh m m' x hx := by
    by_cases hT : x ∈ T
    · exact hg.fresh _ _ x hT
    · rw [hg.frame _ _ hT, hg.frame _ _ hT]
      exact hf.fresh _ _ x (hx.resolve_right hT)

theorem write_fills (a : Nat) (d : List UInt8) : Fills (Set.Ico a (a + d.length)) fun m => write m a d where
  frame m x hx := by
    rw [Set.mem_Ico] at hx
    by_cases hxa : x < a
    · exact if_pos hxa
    have hnone : d[x - a]? = none := List.getElem?_eq_none (by omega)
    rw [write, if_neg hxa, hnone]
    rfl
  fresh m m' x hx := by
    obtain ⟨ha, hlen⟩ := hx
    have hlt : x - a < d.length := by omega
    rw [write, write, if_neg (by omega), if_neg (by omega), List.getElem?_eq_getElem hlt]
    rfl

end Firebuild.Lib.Window
