/-
  Firebuild.Lib.WriteOnce — a store whose entries are written once: a key that is taken
  keeps its value, and a later value for it is dropped.

  `Extends` is what any number of writes does to the store, and `place_all` is how a
  property of every entry survives a write.
-/

import Mathlib.Logic.Function.Basic

namespace Firebuild.Lib.WriteOnce

variable {κ ν : Type} [DecidableEq κ] {s s' s'' : κ → Option ν} {k : κ} {v : ν}

/-- Put a value in, unless the key is taken. -/
def place (s : κ → Option ν) (k : κ) (v : ν) : κ → Option ν := Function.update s k (some ((s k).getD v))

def Extends (s s' : κ → Option ν) : Prop := ∀ k v, s k = some v → s' k = some v

omit [DecidableEq κ] in
theorem Extends.refl (s : κ → Option ν) : Extends s s := fun _ _ h => h

omit [DecidableEq κ] in
theorem Extends.trans (h : Extends s s') (h' : Extends s' s'') : Extends s s'' := fun k v hk => h' k v (h k v hk)

omit [DecidableEq κ] in
theorem Extends.isSome (h : Extends s s') (hk : (s k).isSome = true) : (s' k).isSome = true := by
  obtain ⟨v, hv⟩ := Option.isSome_iff_exists.mp hk
  rw [h k v hv]
  rfl

theorem place_isSome (s : κ → Option ν) (k : κ) (v : ν) : (place s k v k).isSome = true := by
  rw [place, Function.update_self]
  rfl

theorem place_extends (s : κ → Option ν) (k : κ) (v : ν) : Extends s (place s k v) := by
  intro j u hj
  by_cases h : j = k
  · subst h
    rw [place, Function.update_self, hj]
    rfl
  · rw [place, Function.update_of_ne h]
    exact hj

/-- What holds of every entry and of the new value holds of every entry after the write. -/
theorem place_all {P : κ → ν → Prop} (h : ∀ j u, s j = some u → P j u) (hv : P k v) :
    ∀ j u, place s k v j = some u → P j u := by
  intro j u hj
  by_cases hjk : j = k
  · subst hjk
    rw [place, Function.update_self] at hj
    cases hs : s j with
    | none =>
      rw [hs] at hj
      cases hj
      exact hv
    | some x =>
      rw [hs] at hj
      cases hj
      exact h j _ hs
  · rw [place, Function.update_of_ne hjk] at hj
    exact h j u hj

end Firebuild.Lib.WriteOnce
