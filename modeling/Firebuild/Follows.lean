/-
  Firebuild.Follows — what an ancestor's usage of a file knows compared with a descendant's
  (`file_usage.cc`: `FileUsage::merge`).

  The bubbling loop stops where an update changed nothing. That is right only if the usages
  above would not change either. `Follows uc ua` is the relation that makes it right: all
  that the descendant's usage `uc` knows, the ancestor's usage `ua` knows too. Merging an
  update at both (`Follows.both`) or only at the ancestor (`Follows.above`) keeps it, and what
  the descendant absorbs, the ancestor absorbs (`Follows.absorb`), as long as the update
  meets each usage it is merged into (`Meets`): it must not be one of those that make
  `merge()` forget.

  Usages are compared up to `propagated` and the source of a timestamp (`core`).
-/

import Firebuild.Knowledge
import Firebuild.Registration

namespace Firebuild

open FileUsage

/-! ## Usages up to where they came from -/

namespace FileUsage

/-- The initial state, written, mode_changed, tmp_file and the generation. -/
def core (u : FileUsage) : FileUsage := { u with propagated := true, timestampSource := none }

theorem core_eq_iff {u v : FileUsage} : u.core = v.core ↔ u.initialState = v.initialState ∧ u.written = v.written ∧
    u.modeChanged = v.modeChanged ∧ u.tmpFile = v.tmpFile ∧ u.generation = v.generation := by
  simp [core]

/-- Where a usage came from does not matter to a merge. -/
theorem merge_core (w : World) (u : FileUsage) (d : FileUsageUpdate) (p : Bool) :
    (merge w u d p).map core = (merge w u.core d true).map core := by
  cases u with | mk initialState written modeChanged tmpFile propagated generation timestampSource =>
  unfold merge mergeUnwritten
  cases written <;> cases modeChanged <;> cases d.getInitialType w with
  | none => rfl
  | some td =>
    obtain ⟨type, d1⟩ := td
    cases h : mergeInitial w initialState type d1 <;> simp [core, mergeMode, h]

end FileUsage

variable {w : World}

theorem mergeAt_core {fu fu' : Option FileUsage} (h : fu.map core = fu'.map core) :
    (∃ v v', mergeAt w d p fu = .ok v ∧ mergeAt w d p' fu' = .ok v' ∧ v.core = v'.core) ∨
      mergeAt w d p fu = .failed ∧ mergeAt w d p' fu' = .failed ∨
      mergeAt w d p fu = .stale ∧ mergeAt w d p' fu' = .stale := by
  have hmerge : ∀ u u' : FileUsage, u.core = u'.core →
      (∃ v v', Merging.ofOption (merge w u d p) = .ok v ∧ Merging.ofOption (merge w u' d p') = .ok v' ∧ v.core = v'.core) ∨
        Merging.ofOption (merge w u d p) = .failed ∧ Merging.ofOption (merge w u' d p') = .failed := by
    intro u u' hu
    have hc : (merge w u d p).map core = (merge w u' d p').map core := by rw [merge_core, hu, ← merge_core]
    cases hm : merge w u d p <;> cases hm' : merge w u' d p' <;> rw [hm, hm'] at hc
    · exact .inr ⟨rfl, rfl⟩
    · cases hc
    · cases hc
    · exact .inl ⟨_, _, rfl, rfl, Option.some.inj hc⟩
  cases fu with
  | none =>
    cases fu' with
    | some u' => cases h
    | none => exact (hmerge (get .dontKnow) _ rfl).imp_right .inl
  | some u =>
    cases fu' with
    | none => cases h
    | some u' =>
      have hu : u.core = u'.core := Option.some.inj h
      have hg : u.generation = u'.generation := (core_eq_iff.mp hu).2.2.2.2
      simp only [mergeAt, hg]
      by_cases hs : u'.generation ≠ d.generation ∧ u'.generation + 1 ≠ d.generation
      · rw [if_pos hs, if_pos hs]
        exact .inr (.inr ⟨rfl, rfl⟩)
      rw [if_neg hs, if_neg hs]
      exact (hmerge u u' hu).imp_right .inl

/-! ## The order of knowledge -/

/-- `b` allows nothing that `a` does not. -/
def FileType.AtLeast (a b : FileType) : Prop :=
  (b.allowsMissing = true → a.allowsMissing = true) ∧ (b.allowsReg = true → a.allowsReg = true) ∧
    (b.allowsDir = true → a.allowsDir = true)

instance (a b : FileType) : Decidable (FileType.AtLeast a b) := inferInstanceAs (Decidable (_ ∧ _ ∧ _))

theorem FileType.AtLeast.trans (h1 : AtLeast a b) (h2 : AtLeast b c) : AtLeast a c :=
  ⟨fun h => h1.1 (h2.1 h), fun h => h1.2.1 (h2.2.1 h), fun h => h1.2.2 (h2.2.2 h)⟩

/-- Nothing is known better than "regular file", "directory" or "does not exist". -/
theorem FileType.AtLeast.eq (h : AtLeast a b) (ha : a = .isReg ∨ a = .isDir ∨ a = .notExist) :
    b = a := by
  rcases ha with rfl | rfl | rfl <;> cases b <;> revert h <;> decide

/-- Sizes are taken into a usage of this type. -/
def FileType.takesSize : FileType → Bool
  | .dontKnow | .exist | .isReg => true
  | .notExist | .notExistOrIsReg | .isDir => false

/-- What the descendant's usage `uc` knows, the ancestor's usage `ua` knows. -/
structure Follows (uc ua : FileUsage) : Prop where
  written : uc.written = true → ua.written = true
  modeChanged : uc.modeChanged = true → ua.modeChanged = true
  tmpFile : uc.tmpFile = true → ua.tmpFile = true
  generation : uc.generation ≤ ua.generation
  type : ua.written = false → uc.initialState.type.AtLeast ua.initialState.type
  size : ua.written = false → uc.initialState.size.isSome = true →
    ua.initialState.size.isSome = true ∨ ua.initialState.type.takesSize = false
  hash : ua.written = false → uc.initialState.hash.isSome = true → ua.initialState.hash.isSome = true
  mode : ua.modeChanged = false → uc.initialState.modeMask &&& ~~~ua.initialState.modeMask = 0

/-- An update that `merge()` does not forget something for, or lets something pass for, when
    it is merged into the usage. -/
structure Meets (u : FileUsage) (d : FileInfo) : Prop where
  /-- An update that knows nothing is not merged into "exists". -/
  exist : u.written = false → u.initialState.type = .exist → d.type ≠ .dontKnow
  /-- "Missing or regular" takes in nothing that says more. -/
  notExistOrIsReg : u.written = false → u.initialState.type = .notExistOrIsReg →
    d.type = .dontKnow ∨ d.type = .notExistOrIsReg ∧ (d.size.isSome = true → u.initialState.size.isSome = true)
  /-- Known mode bits are not contradicted. -/
  mode : u.modeChanged = false → ModeAgrees u.initialState d

/-- `WellFormed` of an initial state with everything computed. -/
structure FileInfo.Ok (i : FileInfo) : Prop where
  size : i.size.isSome = true → i.type.hasSize = true
  hash : i.hash.isSome = true → i.type = .isReg ∨ i.type = .isDir

theorem FileUsageUpdate.WellFormed.typed {d d1 : FileUsageUpdate} {type : FileType} (hw : d.WellFormed)
    (h : d.getInitialType w = some (type, d1)) :
    (d1.initialState.size.isSome = true → type.hasSize = true) ∧
      (d1.initialHashKnown = true → type = .isReg ∨ type = .isDir) := by
  unfold FileUsageUpdate.getInitialType at h
  cases hc : d.typeComputer with
  | false =>
    simp only [hc, Bool.false_eq_true, if_false] at h
    split at h
    · cases h
    · cases h
      exact ⟨hw.size, fun hk => (hw.hash hk).resolve_left (by simp [hc])⟩
  | true =>
    have hnone : d.initialState.size = none := by
      by_contra hne
      have := hw.size (Option.isSome_iff_ne_none.mpr hne)
      rw [hw.typeComputer hc] at this
      cases this
    simp only [hc, if_true] at h
    unfold FileUsageUpdate.typeComputerOpenRdonly at h
    split at h
    · simp at h
    · split at h
      · cases h
      · cases h
        exact ⟨fun hs => by simp [hnone] at hs, fun _ => .inr rfl⟩
    · split at h
      · cases h
      · cases h
        exact ⟨fun _ => rfl, fun _ => .inl rfl⟩

theorem FileUsageUpdate.WellFormed.info_ok {d d1 : FileUsageUpdate} {type : FileType} (hw : d.WellFormed)
    (h : d.getInitialType w = some (type, d1)) : (d.info w).Ok := by
  obtain ⟨hc, hinfo, htype, _⟩ := FileUsageUpdate.getInitialType_spec h
  obtain ⟨hsize, hhash⟩ := hw.typed h
  obtain ⟨x, hx⟩ := FileUsageUpdate.info_typed w hc
  have htype' : (d1.info w).type = type := (FileUsageUpdate.info_type hc).trans htype
  rw [← hinfo]
  refine ⟨fun hs => ?_, fun hh => ?_⟩
  · rw [htype']
    exact hsize (by rw [hx] at hs; exact hs)
  rw [htype']
  refine hhash ?_
  by_contra hk
  rw [FileUsageUpdate.info_hash_unknown hc (by simpa using hk)] at hh
  cases hh

/-! ## What the join knows -/

section Join

variable {own d r : FileInfo} (h : own.join d = some r)

include h

/-- The merged type allows what both types allow. -/
theorem join_types_conv : (own.type.allowsMissing = true → d.type.allowsMissing = true → r.type.allowsMissing = true) ∧
    (own.type.allowsReg = true → d.type.allowsReg = true → r.type.allowsReg = true) ∧
    (own.type.allowsDir = true → d.type.allowsDir = true → r.type.allowsDir = true) := by
  unfold FileInfo.join at h
  cases ho : own.type <;> cases hd : d.type <;> simp [ho, hd] at h <;> subst h <;>
    simp [FileType.allowsMissing, FileType.allowsReg, FileType.allowsDir, ho]

theorem join_size : (own.size.isSome = true → r.size.isSome = true) ∧
    (r.size.isSome = true → own.size.isSome = true ∨ d.size.isSome = true) ∧
    (d.size.isSome = true → own.type.takesSize = true → r.size.isSome = true) ∧
    (own.type.takesSize = false → r.type = own.type) := by
  unfold FileInfo.join at h
  cases ho : own.type <;> cases hd : d.type <;> simp [ho, hd] at h <;> subst h <;>
    cases own.size <;> cases d.size <;> simp [FileType.takesSize, ho]

theorem join_hash (hok : d.Ok) (hn : own.type = .notExistOrIsReg → d.type = .dontKnow ∨ d.type = .notExistOrIsReg) :
    (own.hash.isSome = true → r.hash.isSome = true) ∧
    (r.hash.isSome = true → own.hash.isSome = true ∨ d.hash.isSome = true) ∧
    (d.hash.isSome = true → r.hash.isSome = true) := by
  have hh := hok.hash
  unfold FileInfo.join at h
  cases ho : own.type <;> cases hd : d.type <;> simp [ho, hd] at h hn hh <;> subst h <;>
    cases own.hash <;> cases hdh : d.hash <;> simp [hdh] at hh ⊢

end Join

/-- An initial state that knows more absorbs the update's. -/
theorem join_absorb {own d : FileInfo} (ht : d.type.AtLeast own.type) (he : own.type = .exist → d.type ≠ .dontKnow)
    (hs : d.size.isSome = true → own.type.takesSize = true → own.size.isSome = true)
    (hh : d.hash.isSome = true → own.hash.isSome = true) : own.join d = some own := by
  have hor : ∀ {a b : Option Nat}, (b.isSome = true → a.isSome = true) → a.or b = a := by
    intro a b hab
    cases a with
    | some _ => rfl
    | none =>
      cases b with
      | none => rfl
      | some _ => cases hab rfl
  have hhash : own.hash.or d.hash = own.hash := hor hh
  cases own with | mk type size hash mode modeMask =>
  unfold FileInfo.join
  cases type <;> cases hd : d.type <;>
    simp [hd, FileType.AtLeast, FileType.allowsMissing, FileType.allowsReg, FileType.allowsDir, FileType.takesSize]
      at ht he hs hhash ⊢ <;>
    first
      | exact ⟨hor hs, hhash⟩
      | exact hhash

/-! ## Merging at one level -/

section Merge

variable {w : World} {d d1 : FileUsageUpdate} {u u' uc uc' ua ua' : FileUsage} {p p' x y : Bool} {r own i : FileInfo}

/-- The merged state in an unwritten usage. -/
theorem FileUsage.Merged.join (h : Merged w u d p r u') (hw : u.written = false) :
    u.initialState.join (d.info w) = some r := by
  have := h.initial
  rwa [hw] at this

theorem FileUsage.Merged.type (h : Merged w u d p r u') : u'.initialState.type = r.type ∧
    u'.initialState.size = r.size ∧ u'.initialState.hash = r.hash := by
  rw [h.state]
  split <;> exact ⟨rfl, rfl, rfl⟩

/-- A regular usage before, whether or not it was written then. -/
theorem written_before (h : Merged w u d p r u') (hw : u'.written = false) : u.written = false :=
  (Bool.or_eq_false_iff.mp (h.written.symm.trans hw)).1

theorem modeChanged_before (h : Merged w u d p r u') (hm : u'.modeChanged = false) : u.modeChanged = false :=
  (Bool.or_eq_false_iff.mp (h.modeChanged.symm.trans hm)).1

/-- Mode bits known after a merge, while the mode has not been changed. -/
theorem FileUsage.Merged.modeMask (h : Merged w u d p r u') (hm : u.modeChanged = false) :
    u'.initialState.modeMask = u.initialState.modeMask ||| (d.info w).modeMask := by
  have hr : r.modeMask = u.initialState.modeMask := by
    have := h.initial
    cases hw : u.written with
    | true => rw [hw] at this; rw [this]
    | false => exact (join_mode (h.join hw)).2
  rw [h.state, hm, ← hr]
  rfl

theorem mask_le_or {a b m : Mode} (h : a &&& ~~~b = 0) : a &&& ~~~(b ||| m) = 0 := by
  ext k hk
  have := mode_bit h hk
  simp at this ⊢
  revert this
  cases a[k] <;> cases b[k] <;> cases m[k] <;> simp

theorem mask_or_le_or {a b m : Mode} (h : a &&& ~~~b = 0) : (a ||| m) &&& ~~~(b ||| m) = 0 := by
  ext k hk
  have := mode_bit h hk
  simp at this ⊢
  revert this
  cases a[k] <;> cases b[k] <;> cases m[k] <;> simp

/-- What the descendant does not have set while the ancestor has not. -/
theorem false_of_imp (h : x = true → y = true) (hy : y = false) : x = false :=
  eq_false_of_ne_true fun hx => nomatch (h hx).symm.trans hy

/-- Flags that an update sets at both. -/
theorem or_imp_or (hx : x' = (x || z)) (hy : y' = (y || z)) (h : x = true → y = true) :
    x' = true → y' = true := by
  rw [hx, hy, Bool.or_eq_true, Bool.or_eq_true]
  exact .imp_left h

theorem Follows.fresh (u : FileUsage) : Follows (.get .dontKnow) u := by
  refine ⟨nofun, nofun, nofun, Nat.zero_le _, fun _ => ?_, fun _ => nofun, fun _ => nofun, fun _ => ?_⟩
  · exact ⟨fun _ => rfl, fun _ => rfl, fun _ => rfl⟩
  · exact BitVec.zero_and

theorem meets_fresh (i : FileInfo) : Meets (.get .dontKnow) i := by
  refine ⟨fun _ => nofun, fun _ => nofun, fun _ => ?_⟩
  show (0#12 ^^^ i.mode) &&& (0#12 &&& i.modeMask) = 0#12
  rw [BitVec.zero_and, BitVec.and_zero]

theorem Meets.neor (h : Meets u i) (hw : u.written = false)
    (ht : u.initialState.type = .notExistOrIsReg) : i.type = .dontKnow ∨ i.type = .notExistOrIsReg := by
  exact (h.notExistOrIsReg hw ht).imp_right And.left

theorem Follows.above (hf : Follows uc ua) (h : merge w ua d p = some ua') (hw : d.WellFormed)
    (hm : Meets ua (d.info w)) (hg : ua.generation ≤ d.generation) : Follows uc ua' := by
  obtain ⟨r, hr⟩ := merge_spec h
  obtain ⟨htype, hsize, hhash⟩ := hr.type
  refine ⟨fun hc => ?_, fun hc => ?_, fun hc => ?_, ?_, fun hn => ?_, fun hn hs => ?_, fun hn hs => ?_, fun hn => ?_⟩
  · rw [hr.written, hf.written hc, Bool.true_or]
  · rw [hr.modeChanged, hf.modeChanged hc, Bool.true_or]
  · rw [hr.tmpFile, hf.tmpFile hc, Bool.true_or]
  · rw [hr.generation]
    exact Nat.le_trans hf.generation hg
  · have hwa := written_before hr hn
    obtain ⟨h1, h2, h3, _⟩ := join_types (hr.join hwa) (hm.exist hwa) (hm.neor hwa)
    rw [htype]
    exact (hf.type hwa).trans ⟨fun h => (h1 h).1, fun h => (h2 h).1, fun h => (h3 h).1⟩
  · have hwa := written_before hr hn
    obtain ⟨h1, _, _, h4⟩ := join_size (hr.join hwa)
    rw [hsize, htype]
    rcases hf.size hwa hs with hs | hs
    · exact .inl (h1 hs)
    · exact .inr (by rw [h4 hs]; exact hs)
  · have hwa := written_before hr hn
    obtain ⟨type, d1, _, ht, _⟩ := merge_typed hwa h
    rw [hhash]
    exact (join_hash (hr.join hwa) (hw.info_ok ht) (hm.neor hwa)).1 (hf.hash hwa hs)
  · have hma := modeChanged_before hr hn
    rw [hr.modeMask hma]
    exact mask_le_or (hf.mode hma)

theorem Follows.both (hf : Follows uc ua) (hc : merge w uc d p = some uc') (ha : merge w ua d p' = some ua')
    (hw : d.WellFormed) (hmc : Meets uc (d.info w)) (hma : Meets ua (d.info w)) : Follows uc' ua' := by
  obtain ⟨rc, hrc⟩ := merge_spec hc
  obtain ⟨ra, hra⟩ := merge_spec ha
  obtain ⟨htc, hsc, hhc⟩ := hrc.type
  obtain ⟨hta, hsa, hha⟩ := hra.type
  -- while the ancestor's usage is unwritten, so was the descendant's
  have hunw : ua'.written = false → ua.written = false ∧ uc.written = false := by
    intro hn
    have hwa := written_before hra hn
    exact ⟨hwa, false_of_imp hf.written hwa⟩
  refine ⟨or_imp_or hrc.written hra.written hf.written, or_imp_or hrc.modeChanged hra.modeChanged hf.modeChanged,
    or_imp_or hrc.tmpFile hra.tmpFile hf.tmpFile, ?_, fun hn => ?_, fun hn hs => ?_, fun hn hs => ?_, fun hn => ?_⟩
  · exact Nat.le_of_eq (hrc.generation.trans hra.generation.symm)
  · obtain ⟨hwa, hwc⟩ := hunw hn
    obtain ⟨a1, a2, a3, _⟩ := join_types (hra.join hwa) (hma.exist hwa) (hma.neor hwa)
    obtain ⟨c1, c2, c3⟩ := join_types_conv (hrc.join hwc)
    obtain ⟨f1, f2, f3⟩ := hf.type hwa
    rw [htc, hta]
    exact ⟨fun h => c1 (f1 (a1 h).1) (a1 h).2, fun h => c2 (f2 (a2 h).1) (a2 h).2, fun h => c3 (f3 (a3 h).1) (a3 h).2⟩
  · obtain ⟨hwa, hwc⟩ := hunw hn
    obtain ⟨a1, _, a3, a4⟩ := join_size (hra.join hwa)
    obtain ⟨_, c2, _, _⟩ := join_size (hrc.join hwc)
    rw [hsc] at hs
    rw [hsa, hta]
    have hkept : ua.initialState.type.takesSize = false → ra.type.takesSize = false := fun h => by rw [a4 h]; exact h
    rcases c2 hs with hs | hs
    · rcases hf.size hwa hs with hs | hs
      · exact .inl (a1 hs)
      · exact .inr (hkept hs)
    cases ht : ua.initialState.type.takesSize with
    | true => exact .inl (a3 hs ht)
    | false => exact .inr (hkept ht)
  · obtain ⟨hwa, hwc⟩ := hunw hn
    obtain ⟨type, d1, _, ht, _⟩ := merge_typed hwa ha
    obtain ⟨a1, _, a3⟩ := join_hash (hra.join hwa) (hw.info_ok ht) (hma.neor hwa)
    obtain ⟨_, c2, _⟩ := join_hash (hrc.join hwc) (hw.info_ok ht) (hmc.neor hwc)
    rw [hhc] at hs
    rw [hha]
    rcases c2 hs with hs | hs
    · exact a1 (hf.hash hwa hs)
    · exact a3 hs
  · have hna := modeChanged_before hra hn
    rw [hrc.modeMask (false_of_imp hf.modeChanged hna), hra.modeMask hna]
    exact mask_or_le_or (hf.mode hna)

/-- A level that needs no hash to be computed fails only on contradicting types. -/
theorem mergeInitial_isSome (ht : d1.typeComputer = false)
    (hj : (own.join (d1.info w)).isSome = true) (hk : d1.initialHashKnown = true → own.hash.isSome = true) :
    (mergeInitial w own d1.initialState.type d1).isSome = true := by
  have htake : ∀ tmp, (takeHash w own tmp d1).isSome = true := by
    intro tmp
    unfold takeHash
    split
    · rename_i hn
      rw [Bool.and_eq_true] at hn
      obtain ⟨x, hx⟩ := Option.isSome_iff_exists.mp (hk hn.2)
      rw [hx] at hn
      cases hn.1
    · rfl
  unfold FileInfo.join at hj
  rw [FileUsageUpdate.info_type ht] at hj
  unfold mergeInitial
  cases ho : own.type <;> cases hd : d1.initialState.type <;> simp [ho, hd] at hj ⊢ <;> exact htake _

/-- A regular file or a directory that absorbed a computed hash had one. -/
theorem hash_of_absorbed (ht : d1.typeComputer = false)
    (hm : mergeInitial w own d1.initialState.type d1 = some r) (hj : own.join (d1.info w) = some own)
    (hd : d1.initialState.type = .isReg ∨ d1.initialState.type = .isDir) (ho : own.type = d1.initialState.type)
    (hk : d1.initialHashKnown = true) : own.hash.isSome = true := by
  obtain rfl : own = r := Option.some.inj (hj.symm.trans (mergeInitial_eq ht hm))
  rcases hd with hd | hd
  · rw [hd] at hm
    exact mergeInitial_hash hk (by rw [ho, hd]; nofun) hm
  unfold mergeInitial at hm
  simp only [ho, hd] at hm
  exact takeHash_isSome hk rfl hm

theorem setModeBits_absorb (hk : j.modeMask &&& ~~~i.modeMask = 0) (ha : ModeAgrees i j) :
    i.setModeBits j.mode j.modeMask = i := by
  have hm : (i.mode &&& ~~~j.modeMask) ||| (j.mode &&& j.modeMask) = i.mode := by
    ext k hlt
    have a := mode_bit hk hlt
    have b := mode_bit ha hlt
    simp at a b ⊢
    revert a b
    cases i.mode[k] <;> cases i.modeMask[k] <;> cases j.mode[k] <;> cases j.modeMask[k] <;> simp
  have hmask : i.modeMask ||| j.modeMask = i.modeMask := by
    ext k hlt
    have a := mode_bit hk hlt
    simp at a ⊢
    revert a
    cases i.modeMask[k] <;> cases j.modeMask[k] <;> simp
  unfold FileInfo.setModeBits
  rw [hm, hmask]

/-- What the descendant's initial state absorbs, the ancestor's absorbs. -/
theorem Follows.absorb_join (hf : Follows uc ua) (hwa : ua.written = false) (hwc : uc.written = false)
    (hok : (d.info w).Ok) (hj : uc.initialState.join (d.info w) = some uc.initialState) (hmc : Meets uc (d.info w))
    (hma : Meets ua (d.info w)) : ua.initialState.join (d.info w) = some ua.initialState := by
  obtain ⟨t1, t2, t3, _⟩ := join_types hj (hmc.exist hwc) (hmc.neor hwc)
  have hdc : (d.info w).type.AtLeast uc.initialState.type := ⟨fun h => (t1 h).2, fun h => (t2 h).2, fun h => (t3 h).2⟩
  have hda := hdc.trans (hf.type hwa)
  obtain ⟨_, _, hsize, _⟩ := join_size hj
  obtain ⟨_, _, hhash⟩ := join_hash hj hok (hmc.neor hwc)
  refine join_absorb hda (hma.exist hwa) (fun hs ht => ?_) (fun hh => hf.hash hwa (hhash hh))
  have hcs : uc.initialState.size.isSome = true ∨ uc.initialState.type = .notExist := by
    have hd := hok.size hs
    cases htc : uc.initialState.type with
    | dontKnow | exist | isReg => exact .inl (hsize hs (by rw [htc]; rfl))
    | notExist => exact .inr rfl
    | notExistOrIsReg =>
      rcases hmc.notExistOrIsReg hwc htc with h | h
      · rw [h] at hd
        cases hd
      · exact .inl (h.2 hs)
    | isDir =>
      rw [htc] at hdc
      have := hdc.2.2 rfl
      cases hdt : (d.info w).type <;> simp [hdt, FileType.hasSize, FileType.allowsDir] at hd this
  rcases hcs with hcs | hcs
  · exact (hf.size hwa hcs).resolve_right (by simp [ht])
  · -- the ancestor's type is "does not exist" too, which takes no size
    rw [(hf.type hwa).eq (.inr (.inr hcs)), hcs] at ht
    cases ht

theorem Follows.absorb (hf : Follows uc ua) (hc : merge w uc d p = some uc') (hsame : uc'.core = uc.core)
    (hw : d.WellFormed) (hmc : Meets uc (d.info w)) (hma : Meets ua (d.info w)) (hg : ua.generation ≤ d.generation) :
    ∃ ua', mergeAt w d p' (some ua) = .ok ua' ∧ ua'.core = ua.core := by
  obtain ⟨rc, hrc⟩ := merge_spec hc
  obtain ⟨hstate, hwr, hmo, htm, hge⟩ := core_eq_iff.mp hsame
  have hgen : ua.generation = d.generation := by
    have h1 := hf.generation
    rw [hrc.generation] at hge
    omega
  have hor : ∀ {x y z a : Bool}, z = (x || y) → z = x → (x = true → a = true) → (a || y) = a := by
    intro x y z a h1 h2 h3
    cases a with
    | true => rfl
    | false =>
      cases y with
      | false => rfl
      | true =>
        rw [h1, Bool.or_true] at h2
        cases h3 h2.symm
  have hwritten : (ua.written || d.written) = ua.written := hor hrc.written hwr hf.written
  have hmode : (ua.modeChanged || d.modeChanged) = ua.modeChanged := hor hrc.modeChanged hmo hf.modeChanged
  have htmp : (ua.tmpFile || d.tmpFile) = ua.tmpFile := hor hrc.tmpFile htm hf.tmpFile
  -- type, size and hash
  have hfirst : (if ua.written then some ua else mergeUnwritten w ua d) = some ua := by
    cases hwa : ua.written with
    | true => rfl
    | false =>
      have hwc := false_of_imp hf.written hwa
      obtain ⟨type, d1, rd, ht, hm⟩ := merge_typed hwc hc
      obtain ⟨hc1, hinfo, htype, hw1⟩ := FileUsageUpdate.getInitialType_spec ht
      subst htype
      have hjc : uc.initialState.join (d.info w) = some uc.initialState := by
        rw [hrc.join hwc]
        have hm := (join_mode (hrc.join hwc))
        obtain ⟨h1, h2, h3⟩ := hrc.type
        cases rc
        cases hu : uc.initialState
        simp_all
      have hja := hf.absorb_join hwa hwc (hw.info_ok ht) hjc hmc hma
      have hsome : (mergeInitial w ua.initialState d1.initialState.type d1).isSome = true := by
        refine mergeInitial_isSome hc1 (by rw [hinfo, hja]; rfl) fun hk => ?_
        have hreg := (hw.typed ht).2 hk
        have hdt : (d.info w).type = d1.initialState.type := hinfo ▸ FileUsageUpdate.info_type hc1
        have htc : uc.initialState.type = d1.initialState.type := by
          obtain ⟨t1, t2, t3, _⟩ := join_types hjc (hmc.exist hwc) (hmc.neor hwc)
          rw [← hdt]
          exact FileType.AtLeast.eq ⟨fun h => (t1 h).2, fun h => (t2 h).2, fun h => (t3 h).2⟩
            (by rw [hdt]; exact hreg.imp_right .inl)
        exact hf.hash hwa (hash_of_absorbed hc1 hm (hinfo ▸ hjc) hreg htc hk)
      obtain ⟨r, hr⟩ := Option.isSome_iff_exists.mp hsome
      have hrj := mergeInitial_eq hc1 hr
      rw [hinfo, hja] at hrj
      cases hrj
      rw [if_neg (by decide), mergeUnwritten, ht]
      dsimp only
      rw [hr]
      have : d1.written = ua.written := by rw [hw1, ← hwritten, hwa, Bool.false_or]
      rw [this]
  -- the mode bits
  have hsecond : (if ua.modeChanged then ua else mergeMode ua d) = ua := by
    cases hm : ua.modeChanged with
    | true => rfl
    | false =>
      have hmask : (d.info w).modeMask &&& ~~~ua.initialState.modeMask = 0 := by
        have h1 := hrc.modeMask (false_of_imp hf.modeChanged hm)
        rw [hstate] at h1
        have h2 := hf.mode hm
        rw [h1] at h2
        ext k hk
        have := mode_bit h2 hk
        simp at this ⊢
        exact fun hb => this (.inr hb)
      obtain ⟨hmd, hmk⟩ := FileUsageUpdate.info_mode w d
      have hab := setModeBits_absorb hmask (hma.mode hm)
      rw [hmd, hmk] at hab
      have hmc0 : d.modeChanged = ua.modeChanged := by rw [← hmode, hm, Bool.false_or]
      rw [if_neg (by decide), mergeMode_eq, hab, hmc0]
  refine ⟨{ ua with
    generation := d.generation, tmpFile := ua.tmpFile || d.tmpFile, propagated := p'
    timestampSource := d.timestampSource }, ?_, ?_⟩
  · rw [mergeAt, if_neg (fun h => h.1 hgen), merge, hfirst]
    dsimp only
    rw [hsecond]
    rfl
  · exact core_eq_iff.mpr ⟨rfl, rfl, rfl, htmp, hgen.symm⟩

/-- An update meets a usage it has been merged into. -/
theorem Meets.after (h : merge w u d p = some u') (hm : Meets u (d.info w)) : Meets u' (d.info w) := by
  obtain ⟨r, hr⟩ := merge_spec h
  obtain ⟨htype, hsize, _⟩ := hr.type
  refine ⟨fun hn ht => ?_, fun hn ht => ?_, fun hn => ?_⟩
  · have hw := written_before hr hn
    have hj := hr.join hw
    have he := hm.exist hw
    rw [htype] at ht
    unfold FileInfo.join at hj
    intro hd
    cases ho : u.initialState.type <;> rw [ho] at he <;> simp [ho, hd] at hj he <;> subst hj <;> simp [ho] at ht
  · have hw := written_before hr hn
    have hj := hr.join hw
    have hne := hm.notExistOrIsReg hw
    rw [htype] at ht
    rw [hsize]
    unfold FileInfo.join at hj
    cases ho : u.initialState.type <;> rw [ho] at hne <;> cases hd : (d.info w).type <;>
      simp [ho, hd] at hj hne <;> subst hj <;> simp [ho] at ht ⊢ <;>
      first
        | exact hne
        | (intro hs; cases u.initialState.size <;> simp [hs])
  · have hmc := modeChanged_before hr hn
    rw [hr.state, hmc]
    ext k hk
    simp [FileInfo.setModeBits]
    cases r.mode[k] <;> cases r.modeMask[k] <;> cases (d.info w).mode[k] <;> cases (d.info w).modeMask[k] <;> simp

end Merge

end Firebuild
