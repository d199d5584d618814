/-
  Firebuild.Lib.Encoding — codes whose words can be told from what follows them.

  An encoding is self-delimiting if the end of a word can be seen from the word: two streams
  that start with a word each and are equal start with the same word and go on equally. Words
  of one length are, and words that are ended by a symbol they do not contain. A list of words
  is not: its length has to come from elsewhere (a count in front of it), or the symbol after
  it cannot be the first one of a word, or it is the end of the stream.

  A stream is read from the left, one field after the other, by these rules.
-/

import Mathlib.Algebra.Ring.Nat
import Mathlib.Data.List.Basic

namespace Firebuild.Lib.Encoding

open List

variable {α β σ : Type}

def SelfDelimiting (enc : α → List σ) : Prop := ∀ a b s t, enc a ++ s = enc b ++ t → a = b ∧ s = t

variable {enc : α → List σ}

theorem SelfDelimiting.of_length (n : Nat) (hl : ∀ a, (enc a).length = n) (hi : Function.Injective enc) :
    SelfDelimiting enc := by
  intro a b s t h
  obtain ⟨hab, hst⟩ := append_inj h ((hl a).trans (hl b).symm)
  exact ⟨hi hab, hst⟩

theorem SelfDelimiting.pair (h : SelfDelimiting enc) (h' : SelfDelimiting enc') :
    SelfDelimiting fun x : α × β => enc x.1 ++ enc' x.2 := by
  intro x y s t hst
  simp only [append_assoc] at hst
  obtain ⟨h1, hst⟩ := h _ _ _ _ hst
  obtain ⟨h2, hst⟩ := h' _ _ _ _ hst
  exact ⟨Prod.ext h1 h2, hst⟩

/-! ## Lists of words -/

variable {l l' : List α} {s t : List σ} {n x : Nat}

section

variable (h : SelfDelimiting enc)
include h

/-- As many words as one knows there are. -/
theorem SelfDelimiting.flatMap (hl : l.length = l'.length)
    (hst : l.flatMap enc ++ s = l'.flatMap enc ++ t) : l = l' ∧ s = t := by
  induction l generalizing l' with
  | nil =>
    rw [eq_nil_of_length_eq_zero hl.symm] at hst ⊢
    exact ⟨rfl, hst⟩
  | cons a l ih =>
    cases l' with
    | nil => cases hl
    | cons b l' =>
      simp only [flatMap_cons, append_assoc] at hst
      obtain ⟨hab, hst⟩ := h _ _ _ _ hst
      obtain ⟨hll, hst⟩ := ih (Nat.succ.inj hl) hst
      exact ⟨by rw [hab, hll], hst⟩

/-- A count, and as many words. -/
theorem SelfDelimiting.counted {count : Nat → List σ}
    (hc : ∀ i j s t, i < n → j < n → count i ++ s = count j ++ t → i = j ∧ s = t) (hl : l.length < n)
    (hl' : l'.length < n) (hst : count l.length ++ (l.flatMap enc ++ s) = count l'.length ++ (l'.flatMap enc ++ t)) :
    l = l' ∧ s = t := by
  obtain ⟨hlen, hst⟩ := hc _ _ _ _ hl hl' hst
  exact h.flatMap hlen hst

/-- Words up to where no word starts. -/
theorem SelfDelimiting.flatMap_before (hs : ∀ a ∈ l', ∀ r, s ≠ enc a ++ r) (ht : ∀ a ∈ l, ∀ r, t ≠ enc a ++ r)
    (hst : l.flatMap enc ++ s = l'.flatMap enc ++ t) : l = l' ∧ s = t := by
  induction l generalizing l' with
  | nil =>
    cases l' with
    | nil => exact ⟨rfl, hst⟩
    | cons b l' =>
      rw [flatMap_cons, append_assoc] at hst
      exact absurd hst (hs b mem_cons_self _)
  | cons a l ih =>
    rw [flatMap_cons, append_assoc] at hst
    cases l' with
    | nil => exact absurd hst.symm (ht a mem_cons_self _)
    | cons b l' =>
      rw [flatMap_cons, append_assoc] at hst
      obtain ⟨hab, hst⟩ := h _ _ _ _ hst
      obtain ⟨hll, hst⟩ := ih (fun c hc => hs c (mem_cons_of_mem _ hc)) (fun c hc => ht c (mem_cons_of_mem _ hc)) hst
      exact ⟨by rw [hab, hll], hst⟩

/-- Words up to one that is not among them. -/
theorem SelfDelimiting.flatMap_stop (hz : z ∉ l) (hz' : z ∉ l')
    (hst : l.flatMap enc ++ (enc z ++ s) = l'.flatMap enc ++ (enc z ++ t)) : l = l' ∧ s = t := by
  refine (h.flatMap_before (fun a ha r e => ?_) (fun a ha r e => ?_) hst).imp_right fun hst => (h _ _ _ _ hst).2
  · exact hz' ((h z a _ _ e).1 ▸ ha)
  · exact hz ((h z a _ _ e).1 ▸ ha)

omit h in
/-- Symbols up to one that is not among them. -/
theorem append_stop (hx : z ∉ xs) (hy : z ∉ ys) (h : xs ++ z :: s = ys ++ z :: t) :
    xs = ys ∧ s = t := by
  have hone : SelfDelimiting fun x : σ => [x] := .of_length 1 (fun _ => rfl) fun x y h => singleton_inj.mp h
  refine hone.flatMap_stop hx hy ?_
  simpa only [flatMap_singleton', singleton_append] using h

/-- Words up to a symbol that is not the first one of a word. -/
theorem SelfDelimiting.flatMap_until (first : σ → Prop)
    (hfirst : ∀ a, a ∈ l ∨ a ∈ l' → ∃ x xs, enc a = x :: xs ∧ first x) (hs : ∃ x xs, s = x :: xs ∧ ¬first x)
    (ht : ∃ x xs, t = x :: xs ∧ ¬first x) (hst : l.flatMap enc ++ s = l'.flatMap enc ++ t) : l = l' ∧ s = t := by
  have hno : ∀ {u}, (∃ x xs, u = x :: xs ∧ ¬first x) → ∀ a, a ∈ l ∨ a ∈ l' → ∀ r, u ≠ enc a ++ r := by
    rintro _ ⟨y, ys, rfl, hy⟩ a ha r h
    obtain ⟨x, xs, hx, hfx⟩ := hfirst a ha
    rw [hx] at h
    cases h
    exact hy hfx
  exact h.flatMap_before (fun a ha => hno hs a (.inr ha)) (fun a ha => hno ht a (.inl ha)) hst

/-- Words up to the end of the stream. -/
theorem SelfDelimiting.flatMap_end (hne : ∀ a, enc a ≠ []) (hll : l.flatMap enc = l'.flatMap enc) : l = l' := by
  have hno : ∀ a r, [] ≠ enc a ++ r := fun a r h => hne a (append_eq_nil_iff.mp h.symm).1
  refine (h.flatMap_before (fun a _ => hno a) (fun a _ => hno a) ?_).1
  rwa [append_nil, append_nil]

end

/-! ## Numbers -/

/-- The `n` lowest bytes of a number, the lowest one first. -/
def leBytes : Nat → Nat → List UInt8
  | 0, _ => []
  | n + 1, x => UInt8.ofNat x :: leBytes n (x / 256)

theorem leBytes_length (n x : Nat) : (leBytes n x).length = n := by
  induction n generalizing x with
  | zero => rfl
  | succ n ih => rw [leBytes, length_cons, ih]

theorem leBytes_inj (hx : x < 256 ^ n) (hy : y < 256 ^ n) (h : leBytes n x = leBytes n y) : x = y := by
  induction n generalizing x y with
  | zero =>
    omega
  | succ n ih =>
    rw [leBytes, leBytes, List.cons.injEq] at h
    have hlow : x % 256 = y % 256 := by
      have := congrArg UInt8.toNat h.1
      simpa [UInt8.toNat_ofNat'] using this
    have hhigh : x / 256 = y / 256 := ih (by omega) (by omega) h.2
    omega

/-- The number that is read from bytes, the lowest one first. -/
def leNat : List UInt8 → Nat
  | [] => 0
  | b :: s => b.toNat + 256 * leNat s

theorem leNat_leBytes (hx : x < 256 ^ n) : leNat (leBytes n x) = x := by
  induction n generalizing x with
  | zero =>
    exact (Nat.lt_one_iff.mp hx).symm
  | succ n ih =>
    have hlow : (UInt8.ofNat x).toNat = x % 256 := UInt8.toNat_ofNat'
    rw [leBytes, leNat, ih (by omega)]
    omega

theorem leBytes_bitVec (n : Nat) (hw : 2 ^ w = 256 ^ n) :
    SelfDelimiting fun x : BitVec w => leBytes n x.toNat := by
  refine .of_length n (fun x => leBytes_length n _) fun x y h => BitVec.eq_of_toNat_eq ?_
  exact leBytes_inj (hw ▸ x.isLt) (hw ▸ y.isLt) h

end Firebuild.Lib.Encoding
