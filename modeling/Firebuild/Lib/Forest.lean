/-
  Firebuild.Lib.Forest — forests given by a parent pointer, and lazily corrected
  pointers to the nearest marked ancestor.

  `Chain up a l` lists the proper ancestors of `a`, nearest first. A mark can be
  cleared but never set again, so a pointer from `a` to an ancestor stays useful as
  long as nothing it jumps over is marked (`SkipOk`); the target itself may have
  lost its mark. `climb` follows such pointers until it meets a mark, and ends at
  the nearest marked ancestor of the node it started from (`climb_eq`).
-/

import Mathlib.Data.List.Find
import Mathlib.Data.List.Nodup
import Mathlib.Data.List.Perm.Subperm

namespace Firebuild.Lib.Forest

open List

universe u

variable {α : Type u} {up up' : α → Option α} {a b : α} {l l1 l2 : List α}

/-! ## Ancestor chains -/

/-- `l` is the list of the proper ancestors of `a`, nearest first. -/
inductive Chain (up : α → Option α) : α → List α → Prop
  | root {a : α} : up a = none → Chain up a []
  | step {a b : α} {l : List α} : up a = some b → Chain up b l → Chain up a (b :: l)

theorem Chain.unique (h1 : Chain up a l1) (h2 : Chain up a l2) : l1 = l2 := by
  induction h1 generalizing l2 with
  | root h => cases h2 with
    | root _ => rfl
    | step h' _ => rw [h] at h'; cases h'
  | step h _ ih => cases h2 with
    | root h' => rw [h] at h'; cases h'
    | step h' h2 =>
      rw [h] at h'
      cases h'
      rw [ih h2]

/-- The ancestors of an ancestor are the rest of the list. -/
theorem Chain.suffix (h : Chain up a (l1 ++ b :: l2)) : Chain up b l2 := by
  induction l1 generalizing a with
  | nil => cases h with | step _ h => exact h
  | cons c l1 ih => cases h with | step _ h => exact ih h

section

variable (h : Chain up a l)
include h

theorem Chain.of_cons_append (hl : a :: l = l1 ++ b :: l2) : Chain up b l2 := by
  cases l1 with
  | nil =>
    cases hl
    exact h
  | cons c l1 =>
    cases hl
    exact h.suffix

theorem Chain.self_not_mem : a ∉ l := by
  intro ha
  obtain ⟨l1, l2, rfl⟩ := append_of_mem ha
  have hl := congrArg List.length (h.unique h.suffix)
  simp only [length_append, length_cons] at hl
  omega

theorem Chain.nodup : (a :: l).Nodup := by
  induction h with
  | root _ => exact nodup_singleton _
  | step hab h ih => exact nodup_cons.mpr ⟨(Chain.step hab h).self_not_mem, ih⟩

/-- Moving parents elsewhere in the forest keeps the chain. -/
theorem Chain.congr (hup : ∀ x ∈ a :: l, up' x = up x) : Chain up' a l := by
  induction h with
  | root h => exact .root ((hup _ mem_cons_self).trans h)
  | step h _ ih =>
    exact .step ((hup _ mem_cons_self).trans h) (ih fun x hx => hup x (mem_cons_of_mem _ hx))

/-- Every proper ancestor is somebody's parent. -/
theorem Chain.mem_parent (hb : b ∈ l) : ∃ x, up x = some b := by
  induction h with
  | root _ => cases hb
  | step h _ ih =>
    rcases mem_cons.mp hb with rfl | hb
    · exact ⟨_, h⟩
    · exact ih hb

theorem Chain.of_mem (hb : b ∈ l) : ∃ l1 l2, l = l1 ++ b :: l2 ∧ Chain up b l2 := by
  obtain ⟨l1, l2, rfl⟩ := append_of_mem hb
  exact ⟨l1, l2, rfl, h.suffix⟩

/-- Along the chain, what comes later is an ancestor of what comes earlier. -/
theorem Chain.pairwise : (a :: l).Pairwise fun x y => ∃ lx, Chain up x lx ∧ y ∈ lx := by
  induction h with
  | root _ => exact pairwise_singleton _ _
  | step hab h ih => exact pairwise_cons.mpr ⟨fun y hy => ⟨_, .step hab h, hy⟩, ih⟩

end

/-- `b` is `a` itself or one of its ancestors. -/
def AtOrAbove (up : α → Option α) (a b : α) : Prop := ∃ l, Chain up a l ∧ b ∈ a :: l

theorem Chain.mem_iff (h : Chain up a l) : AtOrAbove up a b ↔ b ∈ a :: l :=
  ⟨fun ⟨_, hc, hb⟩ => h.unique hc ▸ hb, fun hb => ⟨l, h, hb⟩⟩

/-- Of those at or above both `a` and `b`, the one that all the others are at or above. -/
structure DeepestCommon (up : α → Option α) (a b r : α) : Prop where
  left : AtOrAbove up a r
  right : AtOrAbove up b r
  below : ∀ x, AtOrAbove up a x → AtOrAbove up b x → AtOrAbove up r x

/-- What a search for the deepest common node finds. -/
def Meet (up : α → Option α) (a b : α) : Option α → Prop
  | some r => DeepestCommon up a b r
  | none => ∀ x, AtOrAbove up a x → ¬ AtOrAbove up b x

theorem Meet.of_disjoint (h1 : Chain up a l1) (h2 : Chain up b l2) (hd : ∀ x ∈ a :: l1, x ∉ b :: l2) :
    Meet up a b none :=
  fun x ha hb => hd x (h1.mem_iff.mp ha) (h2.mem_iff.mp hb)

theorem Meet.symm (h : Meet up a b r) : Meet up b a r := by
  cases r with
  | none => exact fun x hb ha => h x ha hb
  | some r => exact ⟨h.right, h.left, fun x hb ha => h.below x ha hb⟩

variable {c : α}

theorem AtOrAbove.trans (h1 : AtOrAbove up a b) (h2 : AtOrAbove up b c) : AtOrAbove up a c := by
  obtain ⟨l, hl, hb⟩ := h1
  obtain ⟨m, hm, hc⟩ := h2
  rcases mem_cons.mp hb with rfl | hb
  · exact ⟨m, hm, hc⟩
  obtain ⟨l1, l2, rfl, hl2⟩ := hl.of_mem hb
  rw [← hl2.unique hm] at hc
  exact ⟨_, hl, mem_cons_of_mem _ (mem_append_right _ hc)⟩

/-- Nobody is above what is at or above it. -/
theorem AtOrAbove.not_mem (h : AtOrAbove up a b) (hb : Chain up b l) : a ∉ l := by
  intro ha
  obtain ⟨m, hm, hbm⟩ := h
  rcases mem_cons.mp hbm with rfl | hbm
  · exact hb.self_not_mem ha
  obtain ⟨x, y, hxy, hy⟩ := hm.of_mem hbm
  rw [hy.unique hb] at hxy
  exact hm.self_not_mem (hxy ▸ mem_append_right _ (mem_cons_of_mem _ ha))

/-- What is above a node does not depend on where a leaf hangs. -/
theorem AtOrAbove.iff_of_leaf (hc : Chain up a l) (hup : ∀ x, x ≠ c → up' x = up x) (hleaf : ∀ x, up x ≠ some c)
    (ha : a ≠ c) : AtOrAbove up' a b ↔ AtOrAbove up a b := by
  have hc' : Chain up' a l := hc.congr fun x hx => hup x (by
    rintro rfl
    rcases List.mem_cons.mp hx with rfl | hx
    · exact ha rfl
    · obtain ⟨y, hy⟩ := hc.mem_parent hx
      exact hleaf y hy)
  rw [hc'.mem_iff, hc.mem_iff]

theorem AtOrAbove.parent (h : AtOrAbove up a b) (hb : up b = some c) : AtOrAbove up a c := by
  obtain ⟨l, hl, hm⟩ := h
  have hc : ∃ lb, Chain up b lb := by
    rcases mem_cons.mp hm with rfl | hm
    · exact ⟨l, hl⟩
    · obtain ⟨_, l2, _, hl2⟩ := hl.of_mem hm
      exact ⟨l2, hl2⟩
  obtain ⟨lb, hlb⟩ := hc
  refine AtOrAbove.trans ⟨l, hl, hm⟩ ⟨lb, hlb, ?_⟩
  cases hlb with
  | root h => rw [h] at hb; cases hb
  | step h _ => rw [h] at hb; cases hb; simp

theorem AtOrAbove.antisymm (h : AtOrAbove up a b) (h' : AtOrAbove up b a) : a = b := by
  obtain ⟨l, hl, ha⟩ := h'
  rcases mem_cons.mp ha with hab | ha
  · exact hab
  · exact absurd ha (h.not_mem hl)

/-- Of two that are at or above the same, one is at or above the other. -/
theorem AtOrAbove.total (hb : AtOrAbove up a b) (hc : AtOrAbove up a c) : AtOrAbove up b c ∨ AtOrAbove up c b := by
  obtain ⟨l, hl, hb⟩ := hb
  obtain ⟨l', hl', hc⟩ := hc
  rw [hl'.unique hl] at hc
  obtain ⟨l1, l2, hsplit⟩ := append_of_mem hb
  rw [hsplit] at hc
  rcases mem_append.mp hc with hc | hc
  · obtain ⟨m1, m2, rfl⟩ := append_of_mem hc
    rw [append_assoc] at hsplit
    exact .inr ⟨_, hl.of_cons_append hsplit, by simp⟩
  · exact .inl ⟨_, hl.of_cons_append hsplit, hc⟩

/-- The proper ancestors, walking up at most the given number of steps. -/
def ancestors (up : α → Option α) : Nat → α → List α
  | 0, _ => []
  | n + 1, a => match up a with
    | none => []
    | some b => b :: ancestors up n b

variable {n : Nat}

theorem Chain.ancestors_eq (h : Chain up a l) (hn : l.length ≤ n) : ancestors up n a = l := by
  induction h generalizing n with
  | root h => cases n <;> simp [ancestors, h]
  | step h _ ih =>
    obtain ⟨n, rfl⟩ : ∃ k, n = k + 1 := ⟨n - 1, by simp at hn; omega⟩
    simp only [ancestors, h]
    rw [ih (by simp at hn; omega)]

/-- A chain of numbered nodes is no longer than the numbering. -/
theorem Chain.length_le {up : Nat → Option Nat} {a : Nat} {l : List Nat} (h : Chain up a l)
    (hl : ∀ x ∈ l, x < n) : l.length ≤ n := by
  have hsub : l ⊆ List.range n := fun x hx => mem_range.mpr (hl x hx)
  have := ((nodup_cons.mp h.nodup).2.subperm hsub).length_le
  simpa using this

/-! ## Pointers that skip unmarked ancestors -/

/-- Along the ancestors `l`, the pointer `t` jumps over unmarked nodes only. -/
def SkipOk (mark : α → Bool) (l : List α) : Option α → Prop
  | none => ∀ x ∈ l, mark x = false
  | some b => ∃ l1 l2, l = l1 ++ b :: l2 ∧ ∀ x ∈ l1, mark x = false

variable {mark mark' : α → Bool} {t : Option α}

/-- Clearing marks keeps a pointer good. -/
theorem SkipOk.mono (h : SkipOk mark l t) (hm : ∀ x ∈ l, mark x = false → mark' x = false) : SkipOk mark' l t := by
  cases t with
  | none => exact fun x hx => hm x hx (h x hx)
  | some b =>
    obtain ⟨l1, l2, rfl, h⟩ := h
    exact ⟨l1, l2, rfl, fun x hx => hm x (mem_append_left _ hx) (h x hx)⟩

theorem SkipOk.mem (h : SkipOk mark l (some b)) : b ∈ l := by
  obtain ⟨l1, l2, rfl, _⟩ := h
  exact mem_append_right _ mem_cons_self

/-- The nearest marked ancestor is itself a good pointer. -/
theorem skipOk_find? (mark : α → Bool) (l : List α) : SkipOk mark l (l.find? mark) := by
  cases h : l.find? mark with
  | none => exact fun x hx => by simpa using List.find?_eq_none.mp h x hx
  | some b =>
    obtain ⟨_, l1, l2, rfl, hl⟩ := List.find?_eq_some_iff_append.mp h
    exact ⟨l1, l2, rfl, fun x hx => by simpa using hl x hx⟩

/-- A pointer that is good above an unmarked stretch is good below it. -/
theorem SkipOk.prepend (h : SkipOk mark l t) (hl : ∀ x ∈ l1, mark x = false) : SkipOk mark (l1 ++ l) t := by
  cases t with
  | none =>
    intro x hx
    rcases mem_append.mp hx with hx | hx
    · exact hl x hx
    · exact h x hx
  | some b =>
    obtain ⟨m1, m2, rfl, h⟩ := h
    refine ⟨l1 ++ m1, m2, by rw [append_assoc], fun x hx => ?_⟩
    rcases mem_append.mp hx with hx | hx
    · exact hl x hx
    · exact h x hx

/-- A pointer that already hits a mark is the nearest marked ancestor. -/
theorem SkipOk.find?_eq (h : SkipOk mark l (some b)) (hb : mark b = true) : l.find? mark = some b := by
  obtain ⟨l1, l2, rfl, h⟩ := h
  rw [List.find?_append, List.find?_eq_none.mpr (by simpa using h), List.find?_cons_of_pos hb]
  rfl

/-- Follow the pointers until a marked node. The outer `none` is a walk that has not
    ended within the given number of steps. -/
def climb (mark : α → Bool) (skip : α → Option α) : Nat → Option α → Option (Option α)
  | _, none => some none
  | 0, some _ => none
  | n + 1, some a => if mark a then some (some a) else climb mark skip n (skip a)

variable {skip : α → Option α}

/-- With good pointers at every ancestor the walk ends at the nearest marked one, in at
    most as many steps as there are ancestors. -/
theorem climb_eq (hc : Chain up a l) (ht : SkipOk mark l t)
    (hs : ∀ x ∈ l, ∀ lx, Chain up x lx → SkipOk mark lx (skip x)) (hn : l.length ≤ n) :
    climb mark skip n t = some (l.find? mark) := by
  induction n generalizing a l t with
  | zero =>
    obtain rfl : l = [] := length_eq_zero_iff.mp (by omega)
    cases t with
    | none => rfl
    | some b => exact absurd ht.mem not_mem_nil
  | succ n ih =>
    cases t with
    | none =>
      have : l.find? mark = none := List.find?_eq_none.mpr (by simpa [SkipOk] using ht)
      rw [this]
      rfl
    | some b =>
      by_cases hb : mark b = true
      · rw [ht.find?_eq hb, climb, if_pos hb]
      obtain ⟨l1, l2, rfl, hl⟩ := ht
      have hfind : (l1 ++ b :: l2).find? mark = l2.find? mark := by
        rw [List.find?_append, List.find?_eq_none.mpr (by simpa using hl), List.find?_cons_of_neg hb]
        rfl
      simp only [length_append, length_cons] at hn
      rw [climb, if_neg hb, hfind]
      exact ih hc.suffix (hs b (by simp) _ hc.suffix)
        (fun x hx => hs x (mem_append_right _ (mem_cons_of_mem _ hx))) (by omega)

/-- The same for a walk that may end where it starts. -/
theorem climb_from (hc : Chain up a l)
    (hs : ∀ x ∈ a :: l, ∀ lx, Chain up x lx → SkipOk mark lx (skip x)) (hn : l.length < n) :
    climb mark skip n (some a) = some ((a :: l).find? mark) := by
  obtain ⟨n, rfl⟩ : ∃ k, n = k + 1 := ⟨n - 1, by omega⟩
  by_cases ha : mark a = true
  · rw [climb, if_pos ha, List.find?_cons_of_pos ha]
  · rw [climb, if_neg ha, List.find?_cons_of_neg ha]
    exact climb_eq hc (hs a mem_cons_self _ hc) (fun x hx => hs x (mem_cons_of_mem _ hx)) (by omega)

/-! ## Clearing marks along a branch -/

/-- The marks after those of `d` are cleared. -/
def cleared [DecidableEq α] (mark : α → Bool) (d : List α) : α → Bool := fun x => mark x && !decide (x ∈ d)

variable [DecidableEq α] {d : List α}

theorem cleared_of_mem (h : a ∈ d) : cleared mark d a = false := by simp [cleared, h]

theorem cleared_of_not_mem (h : a ∉ d) : cleared mark d a = mark a := by simp [cleared, h]

theorem cleared_of_false (h : mark a = false) : cleared mark d a = false := by simp [cleared, h]

theorem cleared_le (h : cleared mark d a = true) : mark a = true := (Bool.and_eq_true_iff.mp h).1

theorem cleared_cons (mark : α → Bool) (a : α) (d : List α) : cleared (cleared mark [a]) d = cleared mark (a :: d) := by
  funext x
  by_cases hx : x = a <;> simp [cleared, hx]

theorem find?_cleared (h : ∀ x ∈ l, x ∉ d) : l.find? (cleared mark d) = l.find? mark :=
  find?_congr fun x hx => cleared_of_not_mem (h x hx)

end Firebuild.Lib.Forest
