/-
  Firebuild.Merge — what `FileUsage::merge()` computes (`file_usage.cc`), with the on-demand
  lookups and the order of the assignments gone.

  `info` is the initial state an update stands for once its type and hash are computed.
  `FileInfo.join` is the switch over the initial types as a function of two initial
  states, and `merge_spec` gives every field of a successful merge.
-/

import Firebuild.FileUsage

namespace Firebuild

/-! ## The update with everything computed -/

/-- The initial state an update stands for: what is left to be computed on demand is
    filled in, if it can be. -/
def FileUsageUpdate.info (w : World) (d : FileUsageUpdate) : FileInfo :=
  let d := if d.typeComputer then d.typeComputerOpenRdonly w else d
  let d := if d.hashComputer then d.computeHash w else d
  d.initialState

/-- What `merge()` makes of two initial states, apart from the mode bits. -/
def FileInfo.join (own d : FileInfo) : Option FileInfo :=
  let both : FileInfo := { own with type := d.type, size := own.size.or d.size, hash := own.hash.or d.hash }
  match own.type with
  | .dontKnow => some both
  | .exist =>
    match d.type with
    | .notExist => none
    | .notExistOrIsReg => some { own with type := .isReg, size := d.size.or own.size }
    | _ => some both
  | .notExist =>
    match d.type with
    | .dontKnow | .notExist | .notExistOrIsReg => some own
    | _ => none
  | .notExistOrIsReg => some own
  | .isReg =>
    match d.type with
    | .dontKnow | .exist | .notExistOrIsReg | .isReg => some { both with type := .isReg }
    | _ => none
  | .isDir =>
    match d.type with
    | .dontKnow | .exist | .isDir => some { own with hash := own.hash.or d.hash }
    | _ => none

theorem join_isReg {i j r : FileInfo} (hn : i.type ≠ .notExistOrIsReg) (hd : j.type = .isReg) (h : i.join j = some r) :
    r.type = .isReg ∧ r.size = i.size.or j.size ∧ r.hash = i.hash.or j.hash := by
  unfold FileInfo.join at h
  cases ht : i.type <;> simp [ht, hd] at h hn <;> subst h <;> exact ⟨rfl, rfl, rfl⟩

/-! ## What computing on demand changes -/

namespace FileUsageUpdate

variable {w : World} {d d1 : FileUsageUpdate} {type : FileType}

/-- Computing the hash changes nothing else of the initial state. -/
theorem computeHash_state (w : World) (d : FileUsageUpdate) :
    ∃ h, (d.computeHash w).initialState = { d.initialState with hash := h } := by
  unfold computeHash
  split
  · exact ⟨_, rfl⟩
  · exact ⟨_, rfl⟩
  · exact ⟨d.initialState.hash, rfl⟩

/-- Once the type is computed, only the hash may be missing. -/
theorem info_typed (w : World) (ht : d.typeComputer = false) : ∃ h, d.info w = { d.initialState with hash := h } := by
  unfold info
  simp only [ht, Bool.false_eq_true, if_false]
  split
  · exact computeHash_state w d
  · exact ⟨d.initialState.hash, rfl⟩

theorem info_type (ht : d.typeComputer = false) : (d.info w).type = d.initialState.type := by
  obtain ⟨x, hx⟩ := info_typed w ht
  rw [hx]

/-- What a successful `get_initial_type()` leaves. -/
theorem getInitialType_spec (h : d.getInitialType w = some (type, d1)) :
    d1.typeComputer = false ∧ d1.info w = d.info w ∧ d1.initialState.type = type ∧ d1.written = d.written := by
  unfold getInitialType at h
  cases hc : d.typeComputer with
  | false =>
    simp only [hc, Bool.false_eq_true, if_false] at h
    split at h
    · cases h
    · cases h
      exact ⟨hc, rfl, rfl, rfl⟩
  | true =>
    simp only [hc, if_true] at h
    have hinfo : d.info w = (d.typeComputerOpenRdonly w).info w ∨ (d.typeComputerOpenRdonly w).unknownErr.isSome := by
      unfold info
      simp only [hc]
      unfold typeComputerOpenRdonly
      cases w.getHash d.filename d.maxWriters with
      | error e => right; rfl
      | ok r => cases r <;> (left; rfl)
    have hfields : (d.typeComputerOpenRdonly w).unknownErr.isSome ∨
        (d.typeComputerOpenRdonly w).typeComputer = false ∧ (d.typeComputerOpenRdonly w).written = d.written := by
      unfold typeComputerOpenRdonly
      cases w.getHash d.filename d.maxWriters with
      | error e => left; rfl
      | ok r => cases r <;> exact .inr ⟨rfl, rfl⟩
    split at h
    · cases h
    rename_i he
    cases h
    have hf := hfields.resolve_left he
    exact ⟨hf.1, (hinfo.resolve_right he).symm, rfl, hf.2⟩

theorem getInitialType_typed (ht : d.typeComputer = false) (h : d.getInitialType w = some (type, d1)) :
    type = d.initialState.type ∧ d1 = d := by
  unfold getInitialType at h
  simp only [ht, Bool.false_eq_true, if_false] at h
  split at h
  · cases h
  · cases h
    exact ⟨rfl, rfl⟩

theorem getInitialType_unknownErr (h : d.unknownErr.isSome = true) : d.getInitialType w = none := by
  have he : (if d.typeComputer then d.typeComputerOpenRdonly w else d).unknownErr.isSome = true := by
    split
    · unfold typeComputerOpenRdonly
      split
      · rfl
      · exact h
      · exact h
    · exact h
  exact if_pos he

/-- A computed hash is the one the update stands for. -/
theorem getInitialHash_info (ht : d.typeComputer = false) (hk : d.initialHashKnown = true)
    (h : d.getInitialHash w = some x) : (d.info w).hash = some x := by
  unfold getInitialHash at h
  unfold info
  simp only [ht, Bool.false_eq_true, if_false]
  -- either the hash was computed without an error, or it was known before
  have hsome : (if d.hashComputer then d.computeHash w else d).unknownErr.isSome = true ∨
      (if d.hashComputer then d.computeHash w else d).initialState.hash.isSome = true := by
    split
    · unfold computeHash
      split
      · exact .inr rfl
      · exact .inr rfl
      · exact .inl rfl
    · rename_i hc
      exact .inr (by simpa [initialHashKnown, hc] using hk)
  dsimp only at h ⊢
  generalize (if d.hashComputer = true then d.computeHash w else d) = e at h hsome ⊢
  split at h
  · cases h
  rename_i he
  obtain ⟨y, hy⟩ := Option.isSome_iff_exists.mp (hsome.resolve_left he)
  rw [hy] at h ⊢
  exact h

theorem info_hash_unknown (ht : d.typeComputer = false) (hk : d.initialHashKnown = false) : (d.info w).hash = none := by
  obtain ⟨hn, hc⟩ : d.initialState.hash = none ∧ d.hashComputer = false := by
    simpa [initialHashKnown] using hk
  simp only [info, ht, hc, Bool.false_eq_true, if_false, hn]

theorem info_mode (w : World) (d : FileUsageUpdate) :
    (d.info w).mode = d.initialState.mode ∧ (d.info w).modeMask = d.initialState.modeMask := by
  have hstate : ∀ d : FileUsageUpdate, (if d.hashComputer then d.computeHash w else d).initialState.mode =
        d.initialState.mode ∧
      (if d.hashComputer then d.computeHash w else d).initialState.modeMask = d.initialState.modeMask := by
    intro d
    split
    · obtain ⟨h, e⟩ := computeHash_state w d
      rw [e]
      exact ⟨rfl, rfl⟩
    · exact ⟨rfl, rfl⟩
  have htype : ((if d.typeComputer then d.typeComputerOpenRdonly w else d).initialState.mode = d.initialState.mode ∧
      (if d.typeComputer then d.typeComputerOpenRdonly w else d).initialState.modeMask = d.initialState.modeMask) := by
    split
    · unfold typeComputerOpenRdonly
      split <;> exact ⟨rfl, rfl⟩
    · exact ⟨rfl, rfl⟩
  exact ⟨(hstate _).1.trans htype.1, (hstate _).2.trans htype.2⟩

end FileUsageUpdate

/-! ## One merge -/

namespace FileUsage

variable {w : World} {u u' : FileUsage} {d : FileUsageUpdate} {p : Bool} {own tmp r : FileInfo} {type : FileType}

theorem takeSize_eq (h : tmp.size = own.size) :
    takeSize own tmp d = { tmp with size := own.size.or d.initialState.size } := by
  cases own with | mk _ ownSize _ _ _ =>
  cases tmp with | mk _ tmpSize _ _ _ =>
  obtain rfl : tmpSize = ownSize := h
  unfold takeSize
  cases tmpSize <;> cases hd : d.initialState.size <;> rfl

/-- Without a type left to compute, the hash taken is the one the update stands for. -/
theorem takeHash_eq (ht : d.typeComputer = false) (h : tmp.hash = own.hash)
    (hr : takeHash w own tmp d = some r) : r = { tmp with hash := own.hash.or (d.info w).hash } := by
  unfold takeHash at hr
  cases ho : own.hash with
  | some x =>
    simp only [ho, Option.isNone_some, Bool.false_and, Bool.false_eq_true, if_false, Option.some.injEq] at hr
    rw [Option.some_or, ← ho, ← h, ← hr]
  | none =>
    cases hk : d.initialHashKnown with
    | false =>
      simp only [hk, Bool.and_false, Bool.false_eq_true, if_false, Option.some.injEq] at hr
      rw [FileUsageUpdate.info_hash_unknown ht hk, Option.none_or, ← ho, ← h, ← hr]
    | true =>
      simp only [ho, hk] at hr
      cases hg : d.getInitialHash w with
      | none => rw [hg] at hr; cases hr
      | some x =>
        rw [hg] at hr
        cases hr
        rw [Option.none_or, FileUsageUpdate.getInitialHash_info ht hk hg]

theorem copyOver_eq (ht : d.typeComputer = false) (hr : copyOver w own type d = some r) : r = { own with
      type := type, size := own.size.or (d.info w).size, hash := own.hash.or (d.info w).hash } := by
  obtain ⟨h, he⟩ := FileUsageUpdate.info_typed w ht
  unfold copyOver at hr
  rw [takeSize_eq (show ({ own with type := type } : FileInfo).size = own.size from rfl)] at hr
  rw [takeHash_eq ht (by rfl) hr, he]

/-- A hash that has to be known is known, or there is an error. -/
theorem takeHash_isSome (hk : d.initialHashKnown = true) (h : tmp.hash = own.hash)
    (hr : takeHash w own tmp d = some r) : r.hash.isSome = true := by
  unfold takeHash at hr
  cases ho : own.hash with
  | some x =>
    simp only [ho, Option.isNone_some, Bool.false_and, Bool.false_eq_true, if_false, Option.some.injEq] at hr
    rw [← hr, h, ho]
    rfl
  | none =>
    simp only [ho, hk] at hr
    cases hg : d.getInitialHash w with
    | none => rw [hg] at hr; cases hr
    | some x =>
      rw [hg] at hr
      cases hr
      rfl

/-- A regular file whose hash is known or computed has a hash afterwards. -/
theorem mergeInitial_hash (hk : d.initialHashKnown = true) (hn : own.type ≠ .notExistOrIsReg)
    (hr : mergeInitial w own .isReg d = some r) : r.hash.isSome = true := by
  have hsize : ∀ type, (takeSize own { own with type } d).hash = own.hash := by
    intro type
    unfold takeSize
    split <;> rfl
  unfold mergeInitial at hr
  cases ho : own.type with
  | dontKnow | exist =>
    simp only [ho] at hr
    exact takeHash_isSome hk (hsize _) hr
  | notExist | isDir => simp [ho] at hr
  | notExistOrIsReg => exact absurd ho hn
  | isReg =>
    simp [ho] at hr
    exact takeHash_isSome hk (by unfold takeSize; split <;> rfl) hr

/-- The switch computes the join of the two initial states. -/
theorem mergeInitial_eq (ht : d.typeComputer = false) (hr : mergeInitial w own d.initialState.type d = some r) :
    own.join (d.info w) = some r := by
  obtain ⟨h, he⟩ := FileUsageUpdate.info_typed w ht
  have htype : (d.info w).type = d.initialState.type := by rw [he]
  have hsize : (d.info w).size = d.initialState.size := by rw [he]
  unfold mergeInitial at hr
  unfold FileInfo.join
  rw [htype]
  cases ho : own.type with
  | dontKnow =>
    rw [ho] at hr
    rw [copyOver_eq ht hr]
  | exist =>
    rw [ho] at hr
    cases hd : d.initialState.type with
    | notExist => rw [hd] at hr; cases hr
    | notExistOrIsReg =>
      rw [hd] at hr
      cases hr
      rw [hsize]
      cases d.initialState.size <;> rfl
    | dontKnow | exist | isReg | isDir =>
      rw [hd] at hr
      rw [copyOver_eq ht hr]
  | notExist =>
    cases hd : d.initialState.type <;> simp_all
  | notExistOrIsReg =>
    rw [ho] at hr
    exact hr
  | isReg =>
    rw [ho] at hr
    cases hd : d.initialState.type with
    | notExist | isDir => simp [hd] at hr
    | dontKnow | exist | notExistOrIsReg | isReg =>
      simp only [hd, takeSize_eq] at hr
      rw [takeHash_eq ht (by rfl) hr, ← hsize]
      simp [ho]
  | isDir =>
    rw [ho] at hr
    cases hd : d.initialState.type with
    | notExist | notExistOrIsReg | isReg => simp [hd] at hr
    | dontKnow | exist | isDir =>
      simp only [hd] at hr
      rw [takeHash_eq ht (by rfl) hr, ho]

theorem mergeUnwritten_eq (h : mergeUnwritten w u d = some u') :
    ∃ r, u.initialState.join (d.info w) = some r ∧ u' = { u with initialState := r, written := d.written } := by
  unfold mergeUnwritten at h
  cases ht : d.getInitialType w with
  | none => rw [ht] at h; cases h
  | some td =>
    obtain ⟨type, d1⟩ := td
    obtain ⟨hc, hinfo, htype, hw⟩ := FileUsageUpdate.getInitialType_spec ht
    rw [ht] at h
    dsimp only at h
    cases hm : mergeInitial w u.initialState type d1 with
    | none => rw [hm] at h; cases h
    | some r =>
      rw [hm] at h
      cases h
      rw [← htype] at hm
      exact ⟨r, hinfo ▸ mergeInitial_eq hc hm, by rw [hw]⟩

/-- A merge into an unwritten usage needs the update's type. -/
theorem merge_typed (hu : u.written = false) (h : merge w u d p = some u') :
    ∃ type d1 r, d.getInitialType w = some (type, d1) ∧ mergeInitial w u.initialState type d1 = some r := by
  unfold merge mergeUnwritten at h
  rw [hu] at h
  cases ht : d.getInitialType w with
  | none => simp only [ht] at h; cases h
  | some td =>
    obtain ⟨type, d1⟩ := td
    cases hm : mergeInitial w u.initialState type d1 with
    | none => simp only [ht, hm] at h; cases h
    | some r => exact ⟨type, d1, r, rfl, hm⟩

/-- Setting the bits that are set already changes nothing, so the test before it is not seen. -/
theorem setModeBits_same (i : FileInfo) : i.setModeBits i.mode i.modeMask = i := by
  have hm : (i.mode &&& ~~~i.modeMask) ||| (i.mode &&& i.modeMask) = i.mode := by
    ext k hk
    simp
    cases i.mode[k] <;> cases i.modeMask[k] <;> rfl
  have hk : i.modeMask ||| i.modeMask = i.modeMask := BitVec.or_self
  unfold FileInfo.setModeBits
  rw [hm, hk]

theorem mergeMode_eq (u : FileUsage) (d : FileUsageUpdate) : mergeMode u d = { u with
      initialState := u.initialState.setModeBits d.initialState.mode d.initialState.modeMask
      modeChanged := d.modeChanged } := by
  unfold mergeMode
  split
  · rfl
  rename_i h
  obtain ⟨hm, hk⟩ : u.initialState.mode = d.initialState.mode ∧
      u.initialState.modeMask = d.initialState.modeMask := by simpa using h
  rw [← hm, ← hk, setModeBits_same]

structure Merged (w : World) (u : FileUsage) (d : FileUsageUpdate) (p : Bool) (r : FileInfo) (u' : FileUsage) :
    Prop where
  initial : if u.written then r = u.initialState else u.initialState.join (d.info w) = some r
  state : u'.initialState =
    if u.modeChanged then r else r.setModeBits (d.info w).mode (d.info w).modeMask
  written : u'.written = (u.written || d.written)
  modeChanged : u'.modeChanged = (u.modeChanged || d.modeChanged)
  tmpFile : u'.tmpFile = (u.tmpFile || d.tmpFile)
  propagated : u'.propagated = p
  generation : u'.generation = d.generation
  timestampSource : u'.timestampSource = d.timestampSource

theorem mergeWritten_eq (h : (if u.written then some u else mergeUnwritten w u d) = some t) :
    ∃ r, (if u.written then r = u.initialState else u.initialState.join (d.info w) = some r) ∧
      t = { u with initialState := r, written := u.written || d.written } := by
  cases hw : u.written with
  | true =>
    rw [hw] at h
    cases h
    exact ⟨u.initialState, rfl, by rw [Bool.true_or, ← hw]⟩
  | false =>
    rw [hw] at h
    obtain ⟨r, hr, hu⟩ := mergeUnwritten_eq h
    exact ⟨r, hr, by rw [hu, Bool.false_or]⟩

theorem merge_spec (h : merge w u d p = some u') : ∃ r, Merged w u d p r u' := by
  obtain ⟨hm, hk⟩ := FileUsageUpdate.info_mode w d
  unfold merge at h
  cases ht : (if u.written then some u else mergeUnwritten w u d) with
  | none => rw [ht] at h; cases h
  | some t =>
    obtain ⟨r, hr, rfl⟩ := mergeWritten_eq ht
    rw [ht] at h
    dsimp only at h
    refine ⟨r, ?_⟩
    cases hc : u.modeChanged with
    | true =>
      rw [hc] at h
      cases h
      exact ⟨hr, by simp [hc], rfl, by simp [hc], rfl, rfl, rfl, rfl⟩
    | false =>
      simp only [hc, mergeMode_eq] at h
      cases h
      exact ⟨hr, by simp [hc, hm, hk], rfl, by simp [hc], rfl, rfl, rfl, rfl⟩

end FileUsage
end Firebuild
