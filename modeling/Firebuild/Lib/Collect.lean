/-
  Firebuild.Lib.Collect — the parts of a collector that marks what it needs while it decides
  what to keep.

  `markAll` checks a list of references and marks them on the way. It gives up at the first
  one that is missing, and what it has marked until then stays marked (`mem_markAll`).

  `keepFirst` goes through a list and keeps its first good elements, up to a limit; `looked`
  are the elements it looks at.

  `walk` visits containers one after the other. A visit sees what is left of those before,
  carries a state along and may remove its container. `walk_inv` is the invariant rule,
  `walk_find?` is about the container under a key.
-/

import Mathlib.Data.List.Basic

namespace Firebuild.Lib.Collect

open List

/-! ## Marking -/

section Marking

variable {κ : Type} [DecidableEq κ] {present : κ → Bool} {k : κ} {ks marked : List κ}

/-- Mark a reference unless it is missing. -/
def mark (present : κ → Bool) (k : κ) (marked : List κ) : Bool × List κ :=
  if marked.contains k then (true, marked)
  else if present k then (true, k :: marked)
  else (false, marked)

def markAll (present : κ → Bool) : List κ → List κ → Bool × List κ
  | [], marked => (true, marked)
  | k :: ks, marked =>
    match mark present k marked with
    | (false, marked) => (false, marked)
    | (true, marked) => markAll present ks marked

def Marked (present : κ → Bool) (marked : List κ) : Prop := ∀ k ∈ marked, present k = true

omit [DecidableEq κ] in
theorem Marked.nil : Marked present [] := fun _ h => absurd h not_mem_nil

theorem mark_missing (hm : Marked present marked) (hk : present k = false) : mark present k marked = (false, marked) := by
  have hnot : ¬ marked.contains k = true := by
    intro hc
    have := hm k (by simpa using hc)
    rw [hk] at this
    cases this
  rw [mark, if_neg hnot, hk]
  rfl

theorem mark_present (marked : List κ) (hk : present k = true) :
    ∃ marked', mark present k marked = (true, marked') ∧ ∀ j, j ∈ marked' ↔ j = k ∨ j ∈ marked := by
  by_cases hc : marked.contains k = true
  · have hmem : k ∈ marked := by simpa using hc
    refine ⟨marked, if_pos hc, fun j => ⟨.inr, ?_⟩⟩
    rintro (rfl | hj)
    · exact hmem
    · exact hj
  · refine ⟨k :: marked, ?_, fun j => mem_cons⟩
    rw [mark, if_neg hc, if_pos hk]

/-- The answer and the marks, for references of which the first missing one ends the loop. -/
theorem markAll_spec (hm : Marked present marked) : (markAll present ks marked).1 = ks.all present ∧
      (∀ j, j ∈ (markAll present ks marked).2 ↔ j ∈ marked ∨ j ∈ ks.takeWhile present) := by
  induction ks generalizing marked with
  | nil => simp [markAll]
  | cons k ks ih =>
    rw [markAll]
    cases hk : present k with
    | false => simp [mark_missing hm hk, hk]
    | true =>
      obtain ⟨marked', he, hmem⟩ := mark_present marked hk
      have hm' : Marked present marked' := by
        intro j hj
        rcases (hmem j).mp hj with rfl | hj
        · exact hk
        · exact hm j hj
      obtain ⟨hok, hmarks⟩ := ih hm'
      rw [he]
      refine ⟨by simpa [hk] using hok, fun j => ?_⟩
      rw [hmarks, hmem, takeWhile_cons_of_pos hk, mem_cons]
      tauto

end Marking

/-! ## Keeping the first good ones -/

section Keeping

variable {α : Type} {good : α → Bool} {limit n : Nat} {l : List α} {a : α}

def keepFirst (good : α → Bool) (limit : Nat) (l : List α) : List α := (l.filter good).take limit

/-- What is looked at until the limit is reached. -/
def looked (good : α → Bool) : Nat → List α → List α
  | 0, _ => []
  | _ + 1, [] => []
  | n + 1, a :: l => a :: looked good (if good a then n else n + 1) l

theorem keepFirst_sublist : (keepFirst good limit l).Sublist l :=
  (take_sublist _ _).trans filter_sublist

theorem keepFirst_length : (keepFirst good limit l).length ≤ limit := by
  rw [keepFirst, length_take]
  omega

theorem keepFirst_cons_good (h : good a = true) :
    keepFirst good (limit + 1) (a :: l) = a :: keepFirst good limit l := by
  rw [keepFirst, filter_cons_of_pos h, take_succ_cons, keepFirst]

theorem keepFirst_cons_bad (h : good a = false) : keepFirst good limit (a :: l) = keepFirst good limit l := by
  rw [keepFirst, filter_cons_of_neg (by rw [h]; decide), keepFirst]

theorem keepFirst_zero : keepFirst good 0 l = [] := take_zero

theorem looked_sublist : (looked good limit l).Sublist l := by
  induction l generalizing limit with
  | nil =>
    cases limit with
    | zero | succ n => exact List.Sublist.refl _
  | cons a l ih =>
    cases limit with
    | zero => exact nil_sublist _
    | succ n =>
      exact ih.cons_cons a

/-- The good ones of those looked at are those kept. -/
theorem filter_looked : (looked good limit l).filter good = keepFirst good limit l := by
  induction l generalizing limit with
  | nil =>
    cases limit with
    | zero | succ n => rfl
  | cons a l ih =>
    cases limit with
    | zero => rw [looked, keepFirst_zero, filter_nil]
    | succ n =>
      rw [looked]
      cases h : good a with
      | true => rw [filter_cons_of_pos h, keepFirst_cons_good h, if_pos rfl, ih]
      | false => rw [filter_cons_of_neg (by rw [h]; decide), keepFirst_cons_bad h, if_neg (by decide), ih]

/-- As many as the limit are looked at in any case. -/
theorem take_prefix_looked (n : Nat) (l : List α) : l.take n <+: looked good n l := by
  induction l generalizing n with
  | nil => simp
  | cons a l ih =>
    cases n with
    | zero => simp
    | succ n =>
      rw [looked, take_succ_cons, prefix_cons_inj]
      cases good a with
      | true => exact ih n
      | false => exact ((take_prefix_take_left (Nat.le_succ n)).trans (ih (n + 1)))

/-- And one more, if one of them does not count. -/
theorem take_succ_prefix_looked
    (h : l.length ≤ n ∨ ∃ a ∈ l.take n, good a = false) : l.take (n + 1) <+: looked good n l := by
  induction l generalizing n with
  | nil => simp
  | cons a l ih =>
    cases n with
    | zero => simp at h
    | succ n =>
      rw [looked, take_succ_cons, prefix_cons_inj]
      cases ha : good a with
      | false => exact take_prefix_looked (n + 1) l
      | true =>
        refine ih ?_
        rcases h with h | ⟨b, hb, hbad⟩
        · exact .inl (by simpa using h)
        rw [take_succ_cons, mem_cons] at hb
        rcases hb with rfl | hb
        · rw [ha] at hbad
          cases hbad
        · exact .inr ⟨b, hb, hbad⟩

/-- If all of them count it is no more than the limit. -/
theorem looked_length (h : ∀ a ∈ l.take n, good a = true) : (looked good n l).length ≤ n := by
  induction l generalizing n with
  | nil =>
    cases n with
    | zero | succ n => simp [looked]
  | cons a l ih =>
    cases n with
    | zero => simp [looked]
    | succ n =>
      have ha : good a = true := h a (by simp)
      rw [looked, if_pos ha]
      exact Nat.succ_le_succ (ih fun b hb => h b (mem_cons_of_mem _ hb))

end Keeping

/-! ## Walking -/

section Walking

variable {δ σ κ : Type} {visit : List δ → δ → σ → Option δ × σ}

def walk (visit : List δ → δ → σ → Option δ × σ) : List δ → List δ → σ → List δ × σ
  | [], done, s => (done, s)
  | d :: ds, done, s => walk visit ds (done ++ (visit done d s).1.toList) (visit done d s).2

/-- What every visit keeps, of the containers seen, of what is left of them and of the state. -/
theorem walk_inv (I : List δ → List δ → σ → Prop)
    (hstep : ∀ seen done d s, I seen done s → I (seen ++ [d]) (done ++ (visit done d s).1.toList) (visit done d s).2)
    (ds seen : List δ) (h : I seen done s) :
    I (seen ++ ds) (walk visit ds done s).1 (walk visit ds done s).2 := by
  induction ds generalizing seen done s with
  | nil => simpa [walk] using h
  | cons d ds ih =>
    have := ih _ (hstep seen done d s h)
    rwa [append_assoc] at this

/-- A visit leaves a container related to the one it got, or removes one that may go. -/
structure Visits (visit : List δ → δ → σ → Option δ × σ) (J : σ → Prop) (Rel : δ → δ → Prop) (MayGo : δ → Prop) :
    Prop where
  keeps : ∀ done d s, J s → J (visit done d s).2
  leaves : ∀ done d s d', J s → (visit done d s).1 = some d' → Rel d d'
  removes : ∀ done d s, J s → (visit done d s).1 = none → MayGo d

variable {J : σ → Prop} {Rel : δ → δ → Prop} {MayGo : δ → Prop} {ds : List δ} {s : σ} {d : δ}

/-- Where what is left comes from. -/
theorem Visits.source (h : Visits visit J Rel MayGo) (hs : J s) (hd : d' ∈ (walk visit ds [] s).1) :
    ∃ d ∈ ds, Rel d d' := by
  let I := fun (seen done : List δ) (s : σ) => J s ∧ ∀ d' ∈ done, ∃ d ∈ seen, Rel d d'
  have hstart : I [] [] s := ⟨hs, by simp⟩
  refine (walk_inv I ?_ ds [] hstart).2 d' hd
  rintro seen done d s ⟨hs, hsrc⟩
  refine ⟨h.keeps _ _ _ hs, fun d' hd' => ?_⟩
  rcases mem_append.mp hd' with hd' | hd'
  · obtain ⟨x, hx, hr⟩ := hsrc d' hd'
    exact ⟨x, mem_append_left _ hx, hr⟩
  · exact ⟨d, by simp, h.leaves _ _ _ _ hs (by simpa using hd')⟩

/-- What may not go is left. -/
theorem Visits.left (h : Visits visit J Rel MayGo) (hs : J s) (hd : d ∈ ds) (hgo : ¬ MayGo d) :
    ∃ d' ∈ (walk visit ds [] s).1, Rel d d' := by
  let I := fun (seen done : List δ) (s : σ) => J s ∧ ∀ d ∈ seen, ¬ MayGo d → ∃ d' ∈ done, Rel d d'
  have hstart : I [] [] s := ⟨hs, by simp⟩
  refine (walk_inv I ?_ ds [] hstart).2 d hd hgo
  rintro seen done d s ⟨hs, hleft⟩
  refine ⟨h.keeps _ _ _ hs, fun x hx hgo => ?_⟩
  rcases mem_append.mp hx with hx | hx
  · obtain ⟨d', hd', hr⟩ := hleft x hx hgo
    exact ⟨d', mem_append_left _ hd', hr⟩
  obtain rfl : x = d := by simpa using hx
  cases hv : (visit done x s).1 with
  | none => exact absurd (h.removes _ _ _ hs hv) hgo
  | some d' => exact ⟨d', by simp, h.leaves _ _ _ _ hs hv⟩

variable [DecidableEq κ] {key : δ → κ}

/-- The container under a key is still the one found there. -/
theorem Visits.find? (h : Visits visit J Rel MayGo) (hkey : ∀ d d', Rel d d' → key d' = key d) (hs : J s)
    (hd : ds.find? (key · = k) = some d) (hgo : ¬ MayGo d) :
    ∃ d', (walk visit ds [] s).1.find? (key · = k) = some d' ∧ Rel d d' := by
  let I := fun (seen done : List δ) (s : σ) =>
    J s ∧ (seen.find? (key · = k) = none → done.find? (key · = k) = none) ∧
      ∀ d, seen.find? (key · = k) = some d → ¬ MayGo d → ∃ d', done.find? (key · = k) = some d' ∧ Rel d d'
  have hstart : I [] [] s := ⟨hs, by simp, by simp⟩
  refine (walk_inv I ?_ ds [] hstart).2.2 d hd hgo
  rintro seen done d s ⟨hs, hnone, hsome⟩
  refine ⟨h.keeps _ _ _ hs, ?_, ?_⟩
  · intro hseen
    rw [List.find?_append, Option.or_eq_none_iff] at hseen ⊢
    refine ⟨hnone hseen.1, ?_⟩
    have hdk : key d ≠ k := by simpa using hseen.2
    cases hv : (visit done d s).1 with
    | none => rfl
    | some d' =>
      have hk' := hkey _ _ (h.leaves _ _ _ _ hs hv)
      simp [hk', hdk]
  · intro x hseen hgo
    rw [List.find?_append] at hseen
    cases hf : seen.find? (key · = k) with
    | some y =>
      rw [hf] at hseen
      obtain rfl : y = x := by simpa using hseen
      obtain ⟨d', hd', hr⟩ := hsome y hf hgo
      exact ⟨d', by rw [List.find?_append, hd']; rfl, hr⟩
    | none =>
      rw [hf] at hseen
      have hx : key x = k := by simpa using List.find?_some hseen
      obtain rfl : d = x := by
        have hmem := mem_of_find?_eq_some hseen
        exact (mem_singleton.mp hmem).symm
      cases hv : (visit done d s).1 with
      | none => exact absurd (h.removes _ _ _ hs hv) hgo
      | some d' =>
        have hr := h.leaves _ _ _ _ hs hv
        refine ⟨d', ?_, hr⟩
        rw [List.find?_append, hnone hf]
        simp [hkey _ _ hr, hx]

end Walking

end Firebuild.Lib.Collect
