/-
  Firebuild.Knowledge — does merging keep what was known? (`file_usage.cc`:
  `FileUsage::merge`; the meaning of a `FileInfo` is `hash_cache.cc`:
  `file_info_matches`.)

  An initial state is read as the set of the states of the path that satisfy it, and
  `i.Entails j` says that the set of `i` is within that of `j`. A merge into a usage that is
  not written yet should return a state that entails both states it was given.

  `Keeps` is the exact condition under which it does. What it leaves out:
    - "exists" merged with "don't know" becomes "don't know", although every other known
      type stays (`merging_dontKnow_forgets_exist`);
    - "missing or regular" drops everything an update says;
    - a known mode bit is overwritten by a different one, and after a chmod() what an
      update says about the mode is dropped;
    - a known size or hash is kept when the update's differs.

  Proved: `merge_keeps_knowledge`.
-/

import Firebuild.Merge

namespace Firebuild

open FileInfo (setModeBits matches_reg matches_dir matches_missing)
open FileType (allowsReg hasSize allowsDir allowsMissing)

/-! ## Entailment between initial states -/

def FileInfo.Entails (i j : FileInfo) : Prop := ∀ e, fileInfoMatches i e = true → fileInfoMatches j e = true

theorem pins_getD (x : Option Nat) : Pins x (x.getD 0) := by
  cases x
  · exact .inl rfl
  · exact .inr rfl

variable {x y : Option Nat}

/-- One known value implies another only if they are the same. -/
theorem pins_entails : (∀ v, Pins x v → Pins y v) ↔ y = none ∨ x = y := by
  constructor
  · intro h
    cases y with
    | none => exact .inl rfl
    | some b =>
      cases x with
      | none => simpa [Pins] using h (b + 1) (.inl rfl)
      | some a => simpa [Pins, eq_comm] using h a (.inr rfl)
  · rintro (rfl | rfl) v hv
    · exact .inl rfl
    · exact hv

theorem pins_or_left (x y : Option Nat) (v : Nat) (h : Pins (x.or y) v) : Pins x v := by
  cases x
  · exact .inl rfl
  · exact h

theorem pins_or_right : (∀ v, Pins (x.or y) v → Pins y v) ↔ y = none ∨ x = none ∨ x = y := by
  rw [pins_entails]
  cases x <;> cases y <;> simp

/-- All that `j` says about the mode is known to `i`, and the same there. -/
def ModeCovers (i j : FileInfo) : Prop :=
  j.modeMask &&& ~~~i.modeMask = 0 ∧ i.mode &&& j.modeMask = j.mode &&& j.modeMask

def ModeAgrees (i j : FileInfo) : Prop := (i.mode ^^^ j.mode) &&& (i.modeMask &&& j.modeMask) = 0

variable {i j own r d : FileInfo} {c : Bool} {u u' : FileUsage}

theorem mode_bit {a b : Mode} (h : a = b) (hk : k < 12) : a[k] = b[k] := by rw [h]

theorem mode_entails : (∀ m, ModePins i m → ModePins j m) ↔ ModeCovers i j := by
  unfold ModePins ModeCovers
  constructor
  · intro h
    have h1 := h i.mode rfl
    -- flip every bit that `i` does not know
    have h2 := h (i.mode ^^^ ~~~i.modeMask) (by
      ext k hk
      simp
      cases i.mode[k] <;> cases i.modeMask[k] <;> rfl)
    refine ⟨?_, h1.symm⟩
    rw [h1] at h2
    ext k hk
    have := mode_bit h2 hk
    simp at this ⊢
    revert this
    cases i.mode[k] <;> cases i.modeMask[k] <;> cases j.modeMask[k] <;> simp
  · rintro ⟨h1, h2⟩ m hm
    ext k hk
    have a := mode_bit h1 hk
    have b := mode_bit h2 hk
    have c := mode_bit hm hk
    simp at a b c ⊢
    revert a b c
    cases i.mode[k] <;> cases i.modeMask[k] <;> cases j.modeMask[k] <;> cases j.mode[k] <;> cases m[k] <;> simp

/-- The bits of an update are known after they are set, and those known before still are
    unless they were contradicted. -/
theorem setModeBits_covers_new (i j : FileInfo) : ModeCovers (i.setModeBits j.mode j.modeMask) j := by
  constructor
  · ext k hk
    simp [setModeBits]
    cases i.modeMask[k] <;> cases j.modeMask[k] <;> simp
  ext k hk
  simp [setModeBits]
  cases i.mode[k] <;> cases j.mode[k] <;> cases j.modeMask[k] <;> simp

theorem setModeBits_covers_old : ModeCovers (i.setModeBits j.mode j.modeMask) i ↔ ModeAgrees i j := by
  have hmask : i.modeMask &&& ~~~(i.setModeBits j.mode j.modeMask).modeMask = 0 := by
    ext k hk
    simp [setModeBits]
    cases i.modeMask[k] <;> simp
  refine (and_iff_right hmask).trans ?_
  constructor <;>
  · intro h
    ext k hk
    have := mode_bit h hk
    simp [setModeBits] at this ⊢
    revert this
    cases i.mode[k] <;> cases i.modeMask[k] <;> cases j.mode[k] <;> cases j.modeMask[k] <;> simp

/-- Entailment, one attribute at a time, for a state that says something. -/
theorem entails_iff (hi : i.type ≠ .dontKnow) : i.Entails j ↔
      (i.type.allowsMissing = true → j.type.allowsMissing = true) ∧
      (i.type.allowsReg = true → j.type.allowsReg = true) ∧
      (i.type.allowsDir = true → j.type.allowsDir = true) ∧
      (i.type.allowsReg = true → j.type.hasSize = true →
        ∀ v, (i.type.hasSize = true → Pins i.size v) → Pins j.size v) ∧
      (i.type ≠ .notExist → j.type = .dontKnow ∨ ModeCovers i j ∧ ∀ h, Pins i.hash h → Pins j.hash h) := by
  have hreg : i.type.allowsReg = true → ∀ s h m, (i.type.hasSize = true → Pins i.size s) → Pins i.hash h →
      ModePins i m → fileInfoMatches i (.reg s h m) = true :=
    fun ht s h m hs hh hm => (matches_reg i s h m).mpr ⟨ht, hs, .inr ⟨hm, hh⟩⟩
  have hdir : i.type.allowsDir = true → ∀ h m, Pins i.hash h → ModePins i m →
      fileInfoMatches i (.dir h m) = true :=
    fun ht h m hh hm => (matches_dir i h m).mpr ⟨ht, .inr ⟨hm, hh⟩⟩
  have hmode : ModePins i i.mode := rfl
  constructor
  · intro h
    have hrest : i.type ≠ .notExist → ∀ hash m, Pins i.hash hash → ModePins i m → j.Rest hash m := by
      intro hne hash m hh hm
      have hex : i.type.allowsReg = true ∨ i.type.allowsDir = true := by
        cases ht : i.type <;> simp_all [allowsReg, allowsDir]
      rcases hex with ht | ht
      · exact ((matches_reg _ _ _ _).mp (h _ (hreg ht _ hash m (fun _ => pins_getD _) hh hm))).2.2
      · exact ((matches_dir _ _ _).mp (h _ (hdir ht hash m hh hm))).2
    refine ⟨fun ht => ?_, fun ht => ?_, fun ht => ?_, fun ht hs v hv => ?_, fun hne => ?_⟩
    · rw [← matches_missing] at ht ⊢
      exact h _ ht
    · exact ((matches_reg _ _ _ _).mp (h _ (hreg ht _ _ _ (fun _ => pins_getD _) (pins_getD _) hmode))).1
    · exact ((matches_dir _ _ _).mp (h _ (hdir ht _ _ (pins_getD _) hmode))).1
    · exact ((matches_reg _ _ _ _).mp (h _ (hreg ht _ _ _ hv (pins_getD _) hmode))).2.1 hs
    by_cases hj : j.type = .dontKnow
    · exact .inl hj
    refine .inr ⟨mode_entails.mp fun m hm => ?_, fun hash hh => ?_⟩
    · exact ((hrest hne _ m (pins_getD _) hm).resolve_left hj).1
    · exact ((hrest hne hash _ hh hmode).resolve_left hj).2
  · rintro ⟨h1, h2, h3, h4, h5⟩ e he
    have hrest : ∀ {hash m}, i.type ≠ .notExist → i.Rest hash m → j.Rest hash m := by
      intro hash m hne hr
      rcases h5 hne with hj | ⟨hmc, hh⟩
      · exact .inl hj
      · obtain ⟨hm, hp⟩ := hr.resolve_left hi
        exact .inr ⟨mode_entails.mpr hmc m hm, hh hash hp⟩
    cases e with
    | missing =>
      rw [matches_missing] at he ⊢
      exact h1 he
    | special m =>
      rw [FileInfo.matches_special] at he ⊢
      exact h1 he
    | reg s hash m =>
      obtain ⟨ht, hs, hr⟩ := (matches_reg _ _ _ _).mp he
      have hne : i.type ≠ .notExist := by rintro h; rw [h] at ht; cases ht
      exact (matches_reg _ _ _ _).mpr ⟨h2 ht, fun hj => h4 ht hj s hs, hrest hne hr⟩
    | dir hash m =>
      obtain ⟨ht, hr⟩ := (matches_dir _ _ _).mp he
      have hne : i.type ≠ .notExist := by rintro h; rw [h] at ht; cases ht
      exact (matches_dir _ _ _).mpr ⟨h3 ht, hrest hne hr⟩

/-! ## When a merge keeps what was known -/

/-- The merged state says something about an entry that exists. -/
def SaysMore (own d : FileInfo) : Prop :=
  own.type ≠ .notExist ∧ d.type ≠ .notExist ∧ ¬(own.type = .dontKnow ∧ d.type = .dontKnow)

/-- The condition on an initial state, whether the mode was changed, and the initial state
    of an update under which merging loses nothing. -/
structure Keeps (own : FileInfo) (modeChanged : Bool) (d : FileInfo) : Prop where
  /-- An update that knows nothing is not merged into "exists". -/
  exist : own.type = .exist → d.type ≠ .dontKnow
  /-- "Missing or regular" takes in nothing that says more. -/
  notExistOrIsReg : own.type = .notExistOrIsReg → d.type = .dontKnow ∨ d.type = .notExistOrIsReg
  /-- Known mode bits are not contradicted. -/
  mode : SaysMore own d → modeChanged = false → own.type ≠ .dontKnow → ModeAgrees own d
  /-- After a chmod() nothing new is learnt about the initial mode. -/
  modeChanged : SaysMore own d → modeChanged = true → d.type ≠ .dontKnow → ModeCovers own d
  /-- A known size is not contradicted, and a new one is taken. -/
  size : SaysMore own d → d.type.hasSize = true → own.type = .exist ∧ d.type = .notExistOrIsReg ∨
    d.size = none ∨ own.size = d.size ∨ own.size = none ∧ own.type ≠ .notExistOrIsReg
  hash : SaysMore own d → d.type ≠ .dontKnow → d.hash = none ∨ own.hash = d.hash ∨
    own.hash = none ∧ own.type ≠ .notExistOrIsReg ∧ ¬(own.type = .exist ∧ d.type = .notExistOrIsReg)

/-- The merged initial state, mode bits included. -/
def mergedState (modeChanged : Bool) (r d : FileInfo) : FileInfo :=
  if modeChanged then r else r.setModeBits d.mode d.modeMask

@[simp] theorem mergedState_type (c : Bool) (r d : FileInfo) : (mergedState c r d).type = r.type := by
  cases c <;> rfl

@[simp] theorem mergedState_size (c : Bool) (r d : FileInfo) : (mergedState c r d).size = r.size := by
  cases c <;> rfl

@[simp] theorem mergedState_hash (c : Bool) (r d : FileInfo) : (mergedState c r d).hash = r.hash := by
  cases c <;> rfl

theorem mergedState_covers_new (hm : r.mode = own.mode) (hk : r.modeMask = own.modeMask) :
    ModeCovers (mergedState c r d) d ↔ (c = true → ModeCovers own d) := by
  cases c with
  | true => simp [mergedState, ModeCovers, hm, hk]
  | false => simpa [mergedState] using setModeBits_covers_new r d

theorem mergedState_covers_old (hm : r.mode = own.mode) (hk : r.modeMask = own.modeMask) :
    ModeCovers (mergedState c r d) own ↔ (c = false → ModeAgrees own d) := by
  cases c with
  | true => simp [mergedState, ModeCovers, hm, hk]
  | false =>
    have : ModeCovers (mergedState false r d) own ↔ ModeCovers (r.setModeBits d.mode d.modeMask) r := by
      simp [mergedState, ModeCovers, hm, hk]
    rw [this, setModeBits_covers_old]
    simp [ModeAgrees, hm, hk]

/-! ### What the join makes of each attribute -/

section Join

variable {own d r : FileInfo} (h : own.join d = some r)

include h

theorem join_mode : r.mode = own.mode ∧ r.modeMask = own.modeMask := by
  unfold FileInfo.join at h
  cases ho : own.type <;> cases hd : d.type <;> simp [ho, hd] at h <;> subst h <;> exact ⟨rfl, rfl⟩

/-- The merged type allows what both types allow, except in the two cases named in `Keeps`. -/
theorem join_types (he : own.type = .exist → d.type ≠ .dontKnow)
    (hn : own.type = .notExistOrIsReg → d.type = .dontKnow ∨ d.type = .notExistOrIsReg) :
    (r.type.allowsMissing = true → own.type.allowsMissing = true ∧ d.type.allowsMissing = true) ∧
    (r.type.allowsReg = true → own.type.allowsReg = true ∧ d.type.allowsReg = true) ∧
    (r.type.allowsDir = true → own.type.allowsDir = true ∧ d.type.allowsDir = true) ∧
    (r.type ≠ .notExist → r.type ≠ .dontKnow → SaysMore own d) := by
  unfold FileInfo.join at h
  cases ho : own.type <;> cases hd : d.type <;> simp [ho, hd] at h he hn <;> subst h <;>
    simp [allowsMissing, allowsReg, allowsDir, SaysMore, ho, hd]

theorem join_hash_own (v : Hash) (hv : Pins r.hash v) : Pins own.hash v := by
  unfold FileInfo.join at h
  cases ho : own.type <;> cases hd : d.type <;> simp [ho, hd] at h <;> subst h <;>
    first | exact hv | exact pins_or_left _ _ _ hv

theorem join_hash_new (hs : SaysMore own d) : (∀ v, Pins r.hash v → Pins d.hash v) ↔
    d.hash = none ∨ own.hash = d.hash ∨
      own.hash = none ∧ own.type ≠ .notExistOrIsReg ∧ ¬(own.type = .exist ∧ d.type = .notExistOrIsReg) := by
  unfold FileInfo.join at h
  cases ho : own.type <;> cases hd : d.type <;> simp [ho, hd, SaysMore] at h hs <;> subst h <;> first
      | (rw [pins_or_right]; simp [or_comm])
      | (rw [pins_entails]; simp)

theorem join_size_own (hs : own.type.hasSize = true) (v : Nat) (hv : Pins r.size v) : Pins own.size v := by
  unfold FileInfo.join at h
  cases ho : own.type <;> cases hd : d.type <;> simp [ho, hd] at h <;> rw [ho] at hs <;> subst h <;>
    first | exact hv | exact pins_or_left _ _ _ hv | cases hs

theorem join_size_new (hs : SaysMore own d) (hb : d.type.hasSize = true) : (∀ v, Pins r.size v → Pins d.size v) ↔
      own.type = .exist ∧ d.type = .notExistOrIsReg ∨ d.size = none ∨ own.size = d.size ∨
        own.size = none ∧ own.type ≠ .notExistOrIsReg := by
  unfold FileInfo.join at h
  cases ho : own.type <;> cases hd : d.type <;> simp [ho, hd, SaysMore, hasSize] at h hs hb <;> subst h <;> first
      | (rw [pins_or_right]; simp [or_comm])
      | (simp; exact pins_or_left _ _)
      | (rw [pins_entails]; simp)

theorem join_hasSize (hs : SaysMore own d) (hr : r.type.allowsReg = true) :
    (own.type.hasSize = true ∨ d.type.hasSize = true) → r.type.hasSize = true := by
  unfold FileInfo.join at h
  cases ho : own.type <;> cases hd : d.type <;> simp [ho, hd, SaysMore] at h hs <;> subst h <;> simp [hasSize, ho]

theorem join_exists (hs : SaysMore own d) : r.type ≠ .notExist ∧ (d.type.hasSize = true → r.type.allowsReg = true) := by
  unfold FileInfo.join at h
  cases ho : own.type <;> cases hd : d.type <;> simp [ho, hd, SaysMore] at h hs <;> subst h <;>
    simp [hasSize, allowsReg, ho]

end Join

theorem entails_dontKnow (hj : j.type = .dontKnow) : i.Entails j := by
  intro e _
  simp [fileInfoMatches, typeMatches, hj]

theorem keeps_iff (h : own.join d = some r) :
    (mergedState c r d).Entails own ∧ (mergedState c r d).Entails d ↔ Keeps own c d := by
  obtain ⟨hm, hk⟩ := join_mode h
  have hnew : ModeCovers (mergedState c r d) d ↔ (c = true → ModeCovers own d) := mergedState_covers_new hm hk
  have hold : ModeCovers (mergedState c r d) own ↔ (c = false → ModeAgrees own d) := mergedState_covers_old hm hk
  by_cases hr : r.type = .dontKnow
  · -- nothing is known after the merge
    have hd : d.type = .dontKnow ∧ (own.type = .dontKnow ∨ own.type = .exist) := by
      unfold FileInfo.join at h
      cases ho : own.type <;> cases hd : d.type <;> simp [ho, hd] at h <;> subst h <;> simp_all
    obtain ⟨hd, ho | ho⟩ := hd
    · refine ⟨fun _ => ?_, fun _ => ⟨entails_dontKnow ho, entails_dontKnow hd⟩⟩
      have hs : ¬SaysMore own d := fun hs => hs.2.2 ⟨ho, hd⟩
      exact ⟨by simp [ho], by simp [ho], fun h => absurd h hs, fun h => absurd h hs, fun h => absurd h hs,
        fun h => absurd h hs⟩
    · refine ⟨fun hent => ?_, fun hk => absurd hd (hk.exist ho)⟩
      have := hent.1 .missing (by rw [matches_missing]; simp [hr, allowsMissing])
      rw [matches_missing, ho] at this
      cases this
  · have hi : (mergedState c r d).type ≠ .dontKnow := by rwa [mergedState_type]
    rw [entails_iff hi, entails_iff hi, hnew, hold]
    simp only [mergedState_type, mergedState_size, mergedState_hash]
    constructor
    · rintro ⟨⟨-, -, -, -, h1⟩, ⟨t1, t2, t3, hs, h2⟩⟩
      have he : own.type = .exist → d.type ≠ .dontKnow := by
        intro ho hd
        unfold FileInfo.join at h
        simp [ho, hd] at h
        exact hr (h ▸ rfl)
      have hn : own.type = .notExistOrIsReg → d.type = .dontKnow ∨ d.type = .notExistOrIsReg := by
        intro ho
        have hrt : r.type = .notExistOrIsReg := by
          unfold FileInfo.join at h
          simp [ho] at h
          rw [← h, ho]
        cases hd : d.type <;> simp_all [allowsMissing, allowsReg]
      have hne : SaysMore own d → r.type ≠ .notExist := fun hsm => (join_exists h hsm).1
      refine ⟨he, hn, fun hsm hc ho => ?_, fun hsm hc hd => ?_, fun hsm hb => ?_, fun hsm hd => ?_⟩
      · exact ((h1 (hne hsm)).resolve_left ho).1 hc
      · exact ((h2 (hne hsm)).resolve_left hd).1 hc
      · have hreg := (join_exists h hsm).2 hb
        exact (join_size_new h hsm hb).mp fun v hv => hs hreg hb v fun _ => hv
      · exact (join_hash_new h hsm).mp ((h2 (hne hsm)).resolve_left hd).2
    · intro hk
      obtain ⟨t1, t2, t3, hsm⟩ := join_types h hk.exist hk.notExistOrIsReg
      refine ⟨⟨fun ht => (t1 ht).1, fun ht => (t2 ht).1, fun ht => (t3 ht).1, fun ht hs v hv => ?_, fun hne => ?_⟩,
        ⟨fun ht => (t1 ht).2, fun ht => (t2 ht).2, fun ht => (t3 ht).2, fun ht hs v hv => ?_, fun hne => ?_⟩⟩
      · have hsm := hsm (by rintro h; rw [h] at ht; cases ht) hr
        exact join_size_own h hs v (hv (join_hasSize h hsm ht (.inl hs)))
      · by_cases ho : own.type = .dontKnow
        · exact .inl ho
        · exact .inr ⟨fun hc => hk.mode (hsm hne hr) hc ho, join_hash_own h⟩
      · have hsm := hsm (by rintro h; rw [h] at ht; cases ht) hr
        exact (join_size_new h hsm hs).mpr (hk.size hsm hs) v (hv (join_hasSize h hsm ht (.inr hs)))
      by_cases hd : d.type = .dontKnow
      · exact .inl hd
      · exact .inr ⟨fun hc => hk.modeChanged (hsm hne hr) hc hd,
          (join_hash_new h (hsm hne hr)).mpr (hk.hash (hsm hne hr) hd)⟩

/-! ## Sequences of merges -/

/-- The updates `ds` merged one after the other into `u`, each of them before the first
    write and within `Keeps`. -/
inductive MergesKeeping : FileUsage → List (World × FileUsageUpdate) → FileUsage → Prop
  | nil (u : FileUsage) : MergesKeeping u [] u
  | cons {w : World} {u u1 u' : FileUsage} {d : FileUsageUpdate} {p : Bool} {ds : List (World × FileUsageUpdate)} :
      u.written = false → FileUsage.merge w u d p = some u1 → Keeps u.initialState u.modeChanged (d.info w) →
      MergesKeeping u1 ds u' → MergesKeeping u ((w, d) :: ds) u'

theorem FileInfo.Entails.trans (h1 : i.Entails j) (h2 : j.Entails k) : i.Entails k :=
  fun e he => h2 e (h1 e he)

theorem merge_entails_iff {d : FileUsageUpdate}
    (hu : u.written = false) (h : FileUsage.merge w u d p = some u') :
    u'.initialState.Entails u.initialState ∧ u'.initialState.Entails (d.info w) ↔
      Keeps u.initialState u.modeChanged (d.info w) := by
  obtain ⟨r, hm⟩ := FileUsage.merge_spec h
  have hj : u.initialState.join (d.info w) = some r := by simpa [hu] using hm.initial
  have hs : u'.initialState = mergedState u.modeChanged r (d.info w) := hm.state
  rw [hs]
  exact keeps_iff hj

theorem MergesKeeping.entails (h : MergesKeeping u ds u') :
    u'.initialState.Entails u.initialState ∧ ∀ x ∈ ds, u'.initialState.Entails (x.2.info x.1) := by
  induction h with
  | nil u => exact ⟨fun _ he => he, fun _ hx => absurd hx List.not_mem_nil⟩
  | cons hu hm hk _ ih =>
    obtain ⟨hold, hnew⟩ := (merge_entails_iff hu hm).mpr hk
    refine ⟨ih.1.trans hold, fun x hx => ?_⟩
    rcases List.mem_cons.mp hx with rfl | hx
    · exact ih.1.trans hnew
    · exact ih.2 x hx

/-- A merge into a usage that is not written yet keeps all that was known, from the usage
    and from the update, exactly under `Keeps`; and then so does every sequence of merges
    up to the first write. -/
theorem merge_keeps_knowledge (u : FileUsage) :
    (∀ (w : World) (u' : FileUsage) (d : FileUsageUpdate) (p : Bool), u.written = false →
      FileUsage.merge w u d p = some u' →
      (u'.initialState.Entails u.initialState ∧ u'.initialState.Entails (d.info w) ↔
        Keeps u.initialState u.modeChanged (d.info w))) ∧
    (∀ (u' : FileUsage) (ds : List (World × FileUsageUpdate)), MergesKeeping u ds u' →
      u'.initialState.Entails u.initialState ∧ ∀ x ∈ ds, u'.initialState.Entails (x.2.info x.1)) :=
  ⟨fun _ _ _ _ hu h => merge_entails_iff hu h, fun _ _ h => h.entails⟩

/-- access(F_OK), then a stat() of a regular file. -/
theorem merge_keeps_exist_then_isReg : let d := FileUsageUpdate.getFromStatParams .empty ["a"] .reg 0o644 3 none
    ∃ u', FileUsage.merge .empty (.get .exist) d false = some u' ∧
      u'.initialState.Entails (FileUsage.get .exist).initialState ∧ u'.initialState.Entails (d.info .empty) := by
  refine ⟨_, rfl, ((merge_keeps_knowledge (.get .exist)).1 .empty _ _ false rfl rfl).mpr ?_⟩
  exact ⟨by decide, by decide, fun _ _ _ => (by decide : _ &&& _ = (0 : Mode)), fun _ => nofun,
    fun _ _ => .inr (.inr (.inr (by decide))), fun _ _ => .inl rfl⟩

/-- access(F_OK), then an lstat() of a symlink: that the path exists is forgotten. -/
theorem merging_dontKnow_forgets_exist : let d := FileUsageUpdate.getFromStatParams .empty ["a"] .lnk 0 0 none
    ∃ u', FileUsage.merge .empty (.get .exist) d false = some u' ∧
      fileInfoMatches u'.initialState .missing = true ∧
      fileInfoMatches (FileUsage.get .exist).initialState .missing = false := by
  refine ⟨_, rfl, ?_, ?_⟩ <;> decide

end Firebuild
