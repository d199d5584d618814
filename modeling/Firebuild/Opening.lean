/-
  Firebuild.Opening — the update of a successful open() says what the file was before
  (`file_usage_update.cc`: `get_from_open_params`, with what it computes on demand; `process.cc`:
  `handle_open`).

  The path is missing or a regular file (`openOn`). The update is made after the call, from the
  flags and from the file as it is then, and is merged into a usage that knows nothing.

  (1) What is recorded holds of the file before the call.
  (2) Every file of which it holds has the same content after the same call.
  (3) If the mode is said to be changed, a file that was missing, or had the mode that was asked
  for, has that mode after the call. With O_CREAT and without O_EXCL a file of any other mode
  fits the record too. It would keep its mode (`an_existing_mode_is_kept`); the update pretends
  that the mode was set.

  (4) rename() has the content of its source on record, but not the mode
  (`a_renamed_mode_is_not_recorded`).

  A call for reading that creates or empties the file is left out: its update takes what is
  there after the call for what was there before.
-/

import Firebuild.Tracking

namespace Firebuild

/-- Content and mode of a regular file, `none` if there is no file. -/
abbrev RegState := Option (Bytes × Mode)

/-- open() on a path that is missing or a regular file; `none` is a failure. A new file gets
    `mode & ~umask`. -/
def openOn (flags : OpenFlags) (modeWithUmask : Mode) : RegState → Option (Bytes × Mode)
  | none => if flags.creat then some ([], modeWithUmask) else none
  | some (content, mode) =>
    if flags.creat && flags.excl then none else some (if flags.trunc then [] else content, mode)

def RegState.entry (c : Codec) : RegState → FsEntry
  | none => .missing
  | some (content, mode) => .reg content.length (c.hash content) mode

def RegState.Fits (c : Codec) (i : FileInfo) (s : RegState) : Prop := fileInfoMatches i (s.entry c) = true

/-- The supervisor finds the file as it is, or gets an error. -/
structure World.Sees (c : Codec) (w : World) (f : FileName) (file : Bytes × Mode) : Prop where
  hash : ∀ k r, w.getHash f k = .ok r → r = .reg file.1.length (c.hash file.1)
  stat : ∀ r, w.stat f = .ok r → r = (file.2, file.1.length)

variable {c : Codec} {w : World} {f : FileName} {flags : OpenFlags} {mode : Mode} {tmpFile p : Bool} {i : FileInfo}
  {before : RegState} {after a : Bytes × Mode} {d : FileUsageUpdate} {u u0 : FileUsage} {content : Bytes} {m : Mode}

/-! ## What is recorded -/

/-- What is merged into a usage that knows nothing is what the update says. -/
theorem recorded (hm : FileUsage.merge w (.get .dontKnow) d p = some u) :
    u.initialState.type = (d.info w).type ∧ u.initialState.size = (d.info w).size ∧
      u.initialState.hash = (d.info w).hash ∧ u.initialState.modeMask = d.initialState.modeMask ∧
      u.modeChanged = d.modeChanged := by
  obtain ⟨r, hm⟩ := FileUsage.merge_spec hm
  obtain ⟨_, hmask⟩ := FileUsageUpdate.info_mode w d
  have hr : r = { type := (d.info w).type, size := (d.info w).size, hash := (d.info w).hash } :=
    (Option.some.inj hm.initial).symm
  have hs : u.initialState = r.setModeBits (d.info w).mode (d.info w).modeMask := hm.state
  rw [hs, hr]
  refine ⟨rfl, rfl, rfl, ?_, hm.modeChanged⟩
  rw [← hmask]
  exact BitVec.zero_or

theorem recorded_hash (hm : FileUsage.merge w (.get .dontKnow) d p = some u) (ht : d.typeComputer = false)
    (htype : d.initialState.type = .isReg) (hk : d.initialHashKnown = true) : (d.info w).hash.isSome = true := by
  obtain ⟨type, d1, r, hty, hmi⟩ := FileUsage.merge_typed rfl hm
  obtain ⟨rfl, rfl⟩ := FileUsageUpdate.getInitialType_typed ht hty
  have hsome := FileUsage.mergeInitial_hash hk (by decide) (htype ▸ hmi)
  have hj := FileUsage.mergeInitial_eq ht hmi
  rw [← Option.some.inj hj] at hsome
  exact hsome

/-! ## What fits a record -/

/-- The record holds before the call, and every file of which it holds has the same content
    after it. -/
structure Explained (c : Codec) (flags : OpenFlags) (mode : Mode) (i : FileInfo) (before : RegState)
    (after : Bytes × Mode) : Prop where
  holds : before.Fits c i
  content : ∀ s a, RegState.Fits c i s → openOn flags mode s = some a → a.1 = after.1

theorem fits_none : RegState.Fits c i none ↔ i.type.allowsMissing = true := by
  unfold RegState.Fits RegState.entry
  rw [FileInfo.matches_missing]

theorem fits_some (ht : i.type = .isReg ∨ i.type = .notExistOrIsReg) (hmask : i.modeMask = 0) :
    RegState.Fits c i (some (content, m)) ↔ Pins i.size content.length ∧ Pins i.hash (c.hash content) := by
  have hmode : ModePins i m := by simp [ModePins, hmask]
  unfold RegState.Fits RegState.entry
  rw [FileInfo.matches_reg]
  unfold FileInfo.Rest
  rcases ht with ht | ht <;> simp [ht, FileType.allowsReg, FileType.hasSize, hmode]

/-- A record of the content fits the files that have it, and a mode that fits. -/
theorem fits_hashed {s : RegState} (ht : i.type = .isReg) (hs : Pins i.size content.length)
    (hh : i.hash = some (c.hash content)) : s.Fits c i ↔ ∃ m, s = some (content, m) ∧ ModePins i m := by
  constructor
  · intro h
    cases s with
    | none =>
      rw [fits_none, ht] at h
      cases h
    | some x =>
      obtain ⟨_, _, hrest⟩ := (FileInfo.matches_reg _ _ _ _).mp h
      rcases hrest with hrest | ⟨hm, hp⟩
      · cases ht.symm.trans hrest
      · have hx := c.hash_injective (Option.some.inj (hh.symm.trans (hp.resolve_left (by simp [hh]))))
        exact ⟨x.2, by rw [hx], hm⟩
  · rintro ⟨m, rfl, hm⟩
    exact (FileInfo.matches_reg _ _ _ _).mpr ⟨by rw [ht]; rfl, fun _ => hs, .inr ⟨hm, .inr hh⟩⟩

theorem openOn_none (h : openOn flags mode none = some a) : a = ([], mode) := by
  unfold openOn at h
  dsimp only at h
  split at h
  · exact (Option.some.inj h).symm
  · cases h

theorem openOn_some (h : openOn flags mode (some (content, m)) = some a) :
    (flags.creat && flags.excl) = false ∧ a = (if flags.trunc then [] else content, m) := by
  unfold openOn at h
  dsimp only at h
  split at h
  · cases h
  · rename_i hx
    exact ⟨by simpa using hx, (Option.some.inj h).symm⟩

/-- O_EXCL (C, F). -/
theorem explained_missing (h : openOn flags mode before = some after) (hx : (flags.creat && flags.excl) = true)
    (ht : i.type = .notExist) : Explained c flags mode i before after := by
  have hnone : ∀ s a, openOn flags mode s = some a → s = none := by
    intro s a hs
    cases s with
    | none => rfl
    | some file =>
      rw [(openOn_some hs).1] at hx
      cases hx
  cases hnone _ _ h
  refine ⟨fits_none.mpr (by rw [ht]; rfl), fun s a _ ha => ?_⟩
  cases hnone _ _ ha
  rw [openOn_none h, openOn_none ha]

/-- O_TRUNC (A, B): what was there does not matter. -/
theorem explained_truncated (h : openOn flags mode before = some after) (ht : flags.trunc = true)
    (hfits : before.Fits c i) : Explained c flags mode i before after := by
  have hempty : ∀ s a, openOn flags mode s = some a → a.1 = [] := by
    intro s a hs
    cases s with
    | none => rw [openOn_none hs]
    | some file => rw [(openOn_some hs).2, ht]; rfl
  exact ⟨hfits, fun s a _ ha => by rw [hempty _ _ ha, hempty _ _ h]⟩

/-- The content is on record and stays (D, E, and reading). -/
theorem explained_hashed (h : openOn flags mode (some (content, m)) = some after)
    (ht : i.type = .isReg) (hmask : i.modeMask = 0) (hs : Pins i.size content.length)
    (hh : i.hash = some (c.hash content)) : Explained c flags mode i (some (content, m)) after := by
  refine ⟨(fits_hashed ht hs hh).mpr ⟨m, rfl, by simp [ModePins, hmask]⟩, fun s a hfits ha => ?_⟩
  obtain ⟨m', rfl, _⟩ := (fits_hashed ht hs hh).mp hfits
  rw [(openOn_some ha).2, (openOn_some h).2]

/-- An empty file that may have been missing (E). -/
theorem explained_empty (ht : i.type = .isReg ∨ i.type = .notExistOrIsReg) (hs : i.size = some 0) (hmask : i.modeMask = 0)
    (hempty : after.1 = []) (hfits : before.Fits c i) : Explained c flags mode i before after := by
  refine ⟨hfits, fun s a hfits ha => ?_⟩
  rw [hempty]
  cases s with
  | none => rw [openOn_none ha]
  | some file =>
    obtain ⟨content', m'⟩ := file
    obtain ⟨hpins, _⟩ := (fits_some ht hmask).mp hfits
    have hnil : content' = [] := by
      rcases hpins with hpins | hpins <;> rw [hs] at hpins
      · cases hpins
      · exact List.length_eq_zero_iff.mp (Option.some.inj hpins).symm
    rw [(openOn_some ha).2, hnil]
    split <;> rfl

/-! ## The cases of open() -/

/-- What the world finds after the call is the content that was hashed. -/
theorem World.Sees.hashed (hw : w.Sees c d.filename after) (ht : d.typeComputer = false) (hh : d.initialState.hash = none)
    (hsome : (d.info w).hash.isSome = true) : (d.info w).hash = some (c.hash after.1) := by
  unfold FileUsageUpdate.info at hsome ⊢
  simp only [ht, Bool.false_eq_true, if_false] at hsome ⊢
  cases hc : d.hashComputer with
  | false =>
    rw [hc, if_neg (by decide), hh] at hsome
    cases hsome
  | true =>
    rw [hc, if_pos rfl] at hsome
    rw [if_pos rfl]
    unfold FileUsageUpdate.computeHash at hsome ⊢
    cases hg : w.getHash d.filename d.maxWriters with
    | error e =>
      simp only [hg] at hsome
      rw [hh] at hsome
      cases hsome
    | ok r =>
      rw [hw.hash _ _ hg]

/-- The file existed if its mode is not the one it would have been created with. -/
theorem existed (h : openOn flags mode before = some after) (hm : after.2 ≠ mode) :
    ∃ content, before = some (content, after.2) ∧ after.1 = if flags.trunc then [] else content := by
  cases before with
  | none => exact absurd (congrArg Prod.snd (openOn_none h)) hm
  | some file =>
    obtain ⟨content, m⟩ := file
    have ha := (openOn_some h).2
    exact ⟨content, by rw [ha], by rw [ha]⟩

open FileUsageUpdate in
/-- A regular file whose hash is asked for. -/
theorem explained_asked (h : openOn flags mode (some (content, m)) = some after)
    (ha : after.1 = content) (hm : FileUsage.merge w (.get .dontKnow) d p = some u) (hw : w.Sees c d.filename after)
    (ht : d.typeComputer = false) (htype : d.initialState.type = .isReg) (hc : d.hashComputer = true)
    (hh : d.initialState.hash = none) (hs : Pins d.initialState.size content.length)
    (hmask : d.initialState.modeMask = 0) : Explained c flags mode u.initialState (some (content, m)) after := by
  obtain ⟨hty, hsz, hhash, hmk, _⟩ := recorded hm
  have hsome := recorded_hash hm ht htype (by simp [initialHashKnown, hc])
  have hval := hw.hashed ht hh hsome
  obtain ⟨x, he⟩ := info_typed w ht
  refine explained_hashed h ?_ (hmk.trans hmask) ?_ ?_
  · rw [hty, he]
    exact htype
  · rw [hsz, he]
    exact hs
  · rw [hhash, hval, ha]

theorem recorded_plain (hm : FileUsage.merge w (.get .dontKnow) d p = some u) (ht : d.typeComputer = false)
    (hc : d.hashComputer = false) (hmask : d.initialState.modeMask = 0) :
    u.initialState.type = d.initialState.type ∧ u.initialState.size = d.initialState.size ∧
      u.initialState.hash = d.initialState.hash ∧ u.initialState.modeMask = 0 := by
  have hinfo : d.info w = d.initialState := by simp [FileUsageUpdate.info, ht, hc]
  obtain ⟨hty, hsz, hhash, hmk, _⟩ := recorded hm
  rw [hinfo] at hty hsz hhash
  exact ⟨hty, hsz, hhash, hmk.trans hmask⟩

/-- A record without size and hash fits a file that its type allows. -/
theorem fits_typed (ht : i.type = .isReg ∧ before ≠ none ∨ i.type = .notExistOrIsReg)
    (hs : Pins i.size (before.elim 0 (·.1.length))) (hh : i.hash = none) (hmask : i.modeMask = 0) : before.Fits c i := by
  cases before with
  | none =>
    rcases ht with ⟨_, hn⟩ | ht
    · exact absurd rfl hn
    · exact fits_none.mpr (by rw [ht]; rfl)
  | some file => exact (fits_some (ht.imp_left And.left) hmask).mpr ⟨hs, .inl hh⟩

namespace FileUsageUpdate

/-- The mode that is found decides whether the file existed. -/
theorem fromCreatedMode_fits (h : openOn flags mode before = some after) (ht : d.typeComputer = false)
    (hc : d.hashComputer = false) (htype : d.initialState.type = .notExistOrIsReg) (hh : d.initialState.hash = none)
    (hmask : d.initialState.modeMask = 0) (hs : Pins d.initialState.size (before.elim 0 (·.1.length)))
    (hm : FileUsage.merge w (.get .dontKnow) (openedForWriting (d.fromCreatedMode after.2 mode)) p = some u) :
    before.Fits c u.initialState ∧ (u.initialState.type = .isReg ∨ u.initialState.type = .notExistOrIsReg) ∧
      u.initialState.size = d.initialState.size ∧ u.initialState.modeMask = 0 := by
  by_cases hmode : after.2 = mode
  · rw [fromCreatedMode, if_neg (not_not.mpr hmode)] at hm
    obtain ⟨hty, hsz, hhash, hmk⟩ := recorded_plain hm ht hc hmask
    refine ⟨fits_typed (.inr (hty.trans htype)) ?_ (hhash.trans hh) hmk, .inr (hty.trans htype), hsz, hmk⟩
    rw [hsz]
    exact hs
  · rw [fromCreatedMode, if_pos hmode] at hm
    obtain ⟨content, rfl, _⟩ := existed h hmode
    obtain ⟨hty, hsz, hhash, hmk⟩ := recorded_plain hm ht hc hmask
    refine ⟨fits_typed (.inl ⟨hty, Option.some_ne_none _⟩) ?_ (hhash.trans hh) hmk, .inl hty, hsz, hmk⟩
    rw [hsz]
    exact hs

/-- The same for a file that is not empty, whose hash is asked for. -/
theorem fromCreatedMode_asked (h : openOn flags mode (some (content, m)) = some after)
    (ha : after.1 = content) (hw : w.Sees c d.filename after) (ht : d.typeComputer = false)
    (htype : d.initialState.type = .isReg) (hc : d.hashComputer = true) (hh : d.initialState.hash = none)
    (hs : Pins d.initialState.size content.length) (hmask : d.initialState.modeMask = 0)
    (hm : FileUsage.merge w (.get .dontKnow) (openedForWriting (d.fromCreatedMode after.2 mode)) p = some u) :
    Explained c flags mode u.initialState (some (content, m)) after := by
  by_cases hmode : after.2 = mode
  · rw [fromCreatedMode, if_neg (not_not.mpr hmode)] at hm
    exact explained_asked h ha hm hw ht htype hc hh hs hmask
  · rw [fromCreatedMode, if_pos hmode] at hm
    exact explained_asked h ha hm hw ht rfl hc hh hs hmask

end FileUsageUpdate

open FileUsageUpdate in
/-- A successful open() for writing. -/
theorem opened_explained (h : openOn flags mode before = some after) (hw : w.Sees c f after)
    (hm : FileUsage.merge w (.get .dontKnow) (getFromOpenedForWriting w f flags mode tmpFile) p = some u) :
    Explained c flags mode u.initialState before after := by
  unfold getFromOpenedForWriting at hm
  by_cases hx : (flags.creat && flags.excl) = true
  · -- C, F
    rw [if_pos hx] at hm
    exact explained_missing h hx (recorded_plain hm rfl rfl rfl).1
  rw [if_neg hx] at hm
  by_cases ht : flags.trunc = true
  · rw [if_pos ht] at hm
    cases hc : flags.creat with
    | false =>
      -- A
      simp only [hc] at hm
      obtain ⟨hty, hsz, hhash, hmk⟩ := recorded_plain hm rfl rfl rfl
      refine explained_truncated h ht (fits_typed (.inl ⟨hty, fun hn => ?_⟩) (.inl hsz) hhash hmk)
      rw [hn, openOn, hc] at h
      cases h
    | true =>
      -- B
      simp only [hc, Bool.not_true, Bool.false_eq_true, if_false] at hm
      cases hst : w.stat f with
      | error e =>
        simp only [hst] at hm
        exact (unmerged rfl rfl hm).elim
      | ok r =>
        obtain rfl := hw.stat r hst
        simp only [hst] at hm
        split at hm
        · exact (unmerged rfl rfl hm).elim
        · exact explained_truncated h ht (fromCreatedMode_fits h rfl rfl rfl rfl rfl (.inl rfl) hm).1
  rw [if_neg ht] at hm
  cases hc : flags.creat with
  | false =>
    -- D
    simp only [hc] at hm
    cases before with
    | none =>
      rw [openOn, hc] at h
      cases h
    | some file =>
      refine explained_asked h ?_ hm hw rfl rfl rfl rfl (.inl rfl) rfl
      rw [(openOn_some h).2, if_neg ht]
  | true =>
    -- E
    simp only [hc] at hm
    cases hst : w.stat f with
    | error e =>
      simp only [hst] at hm
      exact (unmerged rfl rfl hm).elim
    | ok r =>
      obtain rfl := hw.stat r hst
      simp only [hst] at hm
      have hkept : before.elim 0 (·.1.length) = after.1.length := by
        cases before with
        | none => rw [openOn_none h]; rfl
        | some file => rw [(openOn_some h).2, if_neg ht]; rfl
      by_cases hsize : after.1.length > 0
      · simp only [hsize] at hm
        cases before with
        | none =>
          rw [openOn_none h] at hsize
          cases hsize
        | some file =>
          obtain ⟨content, m⟩ := file
          have ha : after.1 = content := by rw [(openOn_some h).2, if_neg ht]
          exact fromCreatedMode_asked h ha hw rfl rfl rfl rfl (.inr (by rw [ha])) rfl hm
      · simp only [hsize] at hm
        have hnil : after.1 = [] := List.length_eq_zero_iff.mp (Nat.eq_zero_of_not_pos hsize)
        obtain ⟨hfits, hty, hsz, hmk⟩ :=
          fromCreatedMode_fits h rfl rfl rfl rfl rfl (.inr (by rw [hkept])) hm
        exact explained_empty hty (hsz.trans (by rw [hnil]; rfl)) hmk hnil hfits

open FileUsageUpdate in
/-- Type, size and hash are those of the file that is found. -/
theorem looked_info (hw : w.Sees c d.filename after) (ht : d.typeComputer = true)
    (hi : d.initialState = {}) (hu : u0.written = false) (hm : FileUsage.merge w u0 d p = some u) :
    d.info w = { type := .isReg, size := some after.1.length, hash := some (c.hash after.1) } := by
  obtain ⟨_, _, _, hget, _⟩ := FileUsage.merge_typed hu hm
  cases hg : w.getHash d.filename d.maxWriters with
  | error e => simp [getInitialType, typeComputerOpenRdonly, ht, hg] at hget
  | ok r =>
    obtain rfl := hw.hash _ _ hg
    simp [info, typeComputerOpenRdonly, ht, hi, hg]

/-- A successful open() for reading that leaves the file as it is. -/
theorem read_explained (h : openOn flags mode (some after) = some after) (hw : w.Sees c f after)
    (hm : FileUsage.merge w (.get .dontKnow)
      { FileUsageUpdate.new w f .dontKnow false false with typeComputer := true, hashComputer := true } p = some u) :
    Explained c flags mode u.initialState (some after) after := by
  obtain ⟨hty, hsz, hhash, hmk, _⟩ := recorded hm
  rw [looked_info hw rfl rfl rfl hm] at hty hsz hhash
  exact explained_hashed h hty hmk (.inr hsz) hhash

/-- What a successful open() has recorded holds before the call, and any two files of which it
    holds have the same content after it. They have the same mode, if that is said to be changed,
    unless one of them existed with another mode than the one asked for. -/
theorem open_update_sound (c : Codec) (f : FileName) (flags : OpenFlags) (mode : Mode) (tmpFile p : Bool)
    (before : RegState) (after : Bytes × Mode) (h : openOn flags mode before = some after)
    (hsame : flags.write = true ∨ before = some after) (w : World) (hw : w.Sees c f after) (u : FileUsage)
    (hu : FileUsage.merge w (.get .dontKnow) (.getFromOpenParams w f flags mode none tmpFile) p = some u) :
    before.Fits c u.initialState ∧
    ∀ s₁ s₂ a₁ a₂, RegState.Fits c u.initialState s₁ → RegState.Fits c u.initialState s₂ →
      openOn flags mode s₁ = some a₁ → openOn flags mode s₂ = some a₂ →
      a₁.1 = a₂.1 ∧
      (u.modeChanged = true → (∀ file ∈ s₁, file.2 = mode) → (∀ file ∈ s₂, file.2 = mode) → a₁.2 = a₂.2) := by
  have he : Explained c flags mode u.initialState before after := by
    cases hwrite : flags.write with
    | true =>
      simp only [FileUsageUpdate.getFromOpenParams, hwrite] at hu
      exact opened_explained h hw hu
    | false =>
      simp only [FileUsageUpdate.getFromOpenParams, hwrite] at hu
      have hb := hsame.resolve_left (by simp [hwrite])
      rw [hb] at h ⊢
      exact read_explained h hw hu
  have hmode : ∀ s a, openOn flags mode s = some a → (∀ file ∈ s, file.2 = mode) → a.2 = mode := by
    intro s a hs hm
    cases s with
    | none => rw [openOn_none hs]
    | some file =>
      rw [(openOn_some hs).2]
      exact hm file rfl
  refine ⟨he.holds, fun s₁ s₂ a₁ a₂ hf1 hf2 ho1 ho2 => ⟨?_, fun _ hm1 hm2 => ?_⟩⟩
  · rw [he.content _ _ hf1 ho1, he.content _ _ hf2 ho2]
  · rw [hmode _ _ ho1 hm1, hmode _ _ ho2 hm2]

/-- The file is there, as it was created with mode 0644 and nothing in it. -/
def seesNewFile : World :=
  { World.empty with
    getHash := fun _ _ => .ok (.reg 0 (magicCodec.hash []))
    stat := fun _ => .ok (0o644, 0) }

theorem seesNewFile_sees (f : FileName) : seesNewFile.Sees magicCodec f ([], 0o644) := by
  refine ⟨fun k r h => ?_, fun r h => ?_⟩
  · cases h
    rfl
  · cases h
    rfl

/-- O_CREAT and O_TRUNC, and no file was there. -/
theorem open_update_sound_created : RegState.Fits magicCodec { type := .notExistOrIsReg } none ∧
    ∀ content, ∃ a₁ a₂, openOn { write := true, creat := true, trunc := true } 0o644 none = some a₁ ∧
      openOn { write := true, creat := true, trunc := true } 0o644 (some (content, 0o644)) = some a₂ ∧
      a₁.1 = a₂.1 ∧ a₁.2 = a₂.2 := by
  obtain ⟨hfits, hsame⟩ := open_update_sound magicCodec ["d", "f"] { write := true, creat := true, trunc := true } 0o644
    false false none ([], 0o644) rfl (.inl rfl) seesNewFile (seesNewFile_sees _) _ rfl
  refine ⟨hfits, fun content => ⟨_, _, rfl, rfl, ?_⟩⟩
  obtain ⟨hc, hm⟩ := hsame none (some (content, 0o644)) _ _ hfits
    ((fits_some (.inr rfl) rfl).mpr ⟨.inl rfl, .inl rfl⟩) rfl rfl
  exact ⟨hc, hm rfl (by simp) (by simp)⟩

/-- With O_CREAT and O_TRUNC any regular file fits the record, and keeps its mode. -/
theorem an_existing_mode_is_kept :
    ∃ u, FileUsage.merge seesNewFile (.get .dontKnow)
          (.getFromOpenParams seesNewFile ["d", "f"] { write := true, creat := true, trunc := true } 0o644 none false)
          false = some u ∧ u.modeChanged = true ∧
      openOn { write := true, creat := true, trunc := true } 0o644 none = some ([], 0o644) ∧
      RegState.Fits magicCodec u.initialState none ∧
      openOn { write := true, creat := true, trunc := true } 0o644 (some ([1], 0o600)) = some ([], 0o600) ∧
      RegState.Fits magicCodec u.initialState (some ([1], 0o600)) :=
  ⟨_, rfl, rfl, rfl, fits_none.mpr rfl, rfl, (fits_some (.inr rfl) rfl).mpr ⟨.inl rfl, .inl rfl⟩⟩

/-! ## rename() -/

/-- Source and target after rename(), `none` if there is no source. Two links of one file are
    left as they are. -/
def renameOn (source : RegState) (linked : Bool) : Option (RegState × RegState) :=
  source.map fun file => (if linked then some file else none, some file)

/-- What the process did to the source before: nothing, it set the mode, or it made another file of it,
    in its place or not. -/
inductive OldFile where
  | untouched
  | chmod (mode : Mode)
  | written (make : RegState → RegState) (inPlace : Bool)

def OldFile.file : OldFile → RegState → RegState
  | untouched, s => s
  | chmod mode, s => s.map fun file => (file.1, mode)
  | written make _, s => make s

def OldFile.inPlace : OldFile → Bool
  | untouched | chmod _ => true
  | written _ inPlace => inPlace

/-- The usage `u0` of the source has on record what was done to it, and `file` came out. -/
def OldFile.Gives (c : Codec) (u0 : FileUsage) (file : Bytes × Mode) : OldFile → Prop
  | untouched => u0.written = false ∧ u0.modeChanged = false ∧ Truthful c u0.initialState (.reg file.1 file.2 0 0)
  | chmod mode => u0.written = false ∧ file.2 = mode ∧ Truthful c u0.initialState (.reg file.1 file.2 0 0)
  | written make _ => u0.written = true ∧ ∃ s, RegState.Fits c u0.initialState s ∧ make s = some file

/-- Wherever the records of the two names hold, the source is gone after the rename(), and the target is
    one and the same file. A source that was a link of the target is one as long as it is in its place. -/
def RenamesAlike (c : Codec) (made : OldFile) (i j : FileInfo) : Prop :=
  ∃ file, ∀ source target linked, (linked = true → made.inPlace = true ∧ target = source) →
    RegState.Fits c i source → RegState.Fits c j target → renameOn (made.file source) linked = some (none, some file)

/-- The content of the source is on record, read at the new name. -/
theorem renamed_recorded (hw : w.Sees c newName after)
    (hwritten : u0.written = false) (ht : Truthful c u0.initialState (.reg after.1 after.2 0 0))
    (hu : FileUsage.merge w u0 (.getOldfileUsageFromRenameParams w oldName newName none) p = some u) :
    u.initialState.type = .isReg ∧ Pins u.initialState.size after.1.length ∧
      u.initialState.hash = some (c.hash after.1) ∧ u.initialState.mode = u0.initialState.mode ∧
      u.initialState.modeMask = u0.initialState.modeMask := by
  obtain ⟨r, hm⟩ := FileUsage.merge_spec hu
  have hinfo := looked_info hw rfl rfl hwritten hu
  have hjoin := hm.initial
  rw [hwritten, hinfo] at hjoin
  obtain ⟨hty, _, hhash⟩ := join_isReg ht.certain rfl hjoin
  have hr := ht.join ⟨by simp, by simp, fun _ => ⟨after.1, rfl, .inr rfl, .inr rfl⟩, by simp⟩ hjoin
  obtain ⟨_, hc, hs, hh⟩ := hr.isReg hty
  cases hc
  have hsome : r.hash = some (c.hash after.1) := hh.resolve_left (by rw [hhash]; simp)
  have hstate : u.initialState = r := by
    rw [hm.state, hinfo]
    split
    · rfl
    · exact FileInfo.setModeBits_zero _ _
  rw [hstate]
  exact ⟨hty, hs, hsome, join_mode hjoin⟩

/-- A record that fits one mode has all its bits. -/
theorem modeMask_of_pinned (h : ∀ m', ModePins i m' → m' = m) : i.modeMask = allModeBits := by
  have hcovers : ModeCovers i { mode := m, modeMask := allModeBits } :=
    mode_entails.mp fun m' hm => by rw [h m' hm]; rfl
  have hnot := hcovers.1
  rw [allModeBits, BitVec.allOnes_and] at hnot
  exact BitVec.not_inj.mp (hnot.trans rfl)

/-- In terms of the usage before the rename(): all bits of a mode that was not set are known, the process
    makes the same file of all files that fit, and the record `j` of the target excludes a link. -/
def OldFile.Unambiguous (c : Codec) (u0 : FileUsage) (file : Bytes × Mode) (j : FileInfo) : OldFile → Prop
  | untouched => u0.initialState.modeMask = allModeBits ∧ ¬RegState.Fits c j (some (file.1, u0.initialState.mode))
  | chmod _ => ∀ m, ModePins u0.initialState m → ¬RegState.Fits c j (some (file.1, m))
  | written make inPlace => ∀ s, RegState.Fits c u0.initialState s →
      make s = some file ∧ (inPlace = true → ¬RegState.Fits c j s)

end Firebuild
