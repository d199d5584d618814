/-
  Firebuild.Representation — the rules on the fields of a `FileInfo` (the comments in
  `file_info.h`), over every update that the supervisor creates (`file_usage_update.h`: the
  constructors; `file_usage_update.cc`; `process.cc`: `handle_faccessat`) and every sequence of
  merges (`file_usage.cc`: `FileUsage::merge`).

  A merge can break them in three ways (`Keeps`):
    - an open() for writing without O_CREAT and O_TRUNC has the hash of the file computed, and
      not its size;
    - the mode bits are merged whatever the type is, so one that is not looked at any more, or
      that stays "missing", gets them as well;
    - an update that knows nothing takes a file that exists back to "don't know", and the mode
      bits stay.

  `initial_states_well_formed`: these are all of them.

  An entry holds the initial states of the usages (`execed_process_cacher.cc`: `store`,
  `add_file`, `file_to_file_info`), except for a missing path, of which only the name is stored:
  `stored_inputs_are_read_back`.
-/

import Firebuild.Follows
import Firebuild.Handlers
import Firebuild.Store

namespace Firebuild

/-- A size and a hash come with a type that has one, and neither they nor the mode with one
    that has none. -/
structure FileInfo.Tidy (i : FileInfo) : Prop extends FileInfo.Ok i where
  masked : i.mode &&& ~~~i.modeMask = 0
  /-- If the size is known, it is 0: what an open() with O_CREAT leaves empty. -/
  empty : i.type = .notExistOrIsReg → i.size = none ∨ i.size = some 0
  unset : i.type = .dontKnow ∨ i.type = .notExist → i.size = none ∧ i.hash = none ∧ i.mode = 0 ∧ i.modeMask = 0

structure FileInfo.WellFormed (i : FileInfo) : Prop extends FileInfo.Tidy i where
  hashed : i.type = .isReg → i.hash.isSome = true → i.size.isSome = true

namespace FileInfo

variable {i : FileInfo}

theorem setModeBits_masked {mode mask : Mode} (h : i.mode &&& ~~~i.modeMask = 0) :
    (i.setModeBits mode mask).mode &&& ~~~(i.setModeBits mode mask).modeMask = 0 := by
  show ((i.mode &&& ~~~mask) ||| (mode &&& mask)) &&& ~~~(i.modeMask ||| mask) = 0
  ext k hk
  have := mode_bit h hk
  simp only [BitVec.getElem_and] at this ⊢
  cases hm : mask[k] <;> cases ho : i.mode[k] <;> cases hi : i.modeMask[k] <;> simp_all

theorem mode_zero (h : i.mode &&& ~~~i.modeMask = 0) (hm : i.modeMask = 0) : i.mode = 0 := by
  rw [hm, show ~~~(0 : Mode) = BitVec.allOnes 12 from rfl, BitVec.and_allOnes] at h
  exact h

theorem WellFormed.of_type (type : FileType) : ({ type } : FileInfo).WellFormed where
  size := nofun
  hash := nofun
  hashed := nofun
  masked := BitVec.zero_and
  empty _ := .inl rfl
  unset _ := ⟨rfl, rfl, rfl, rfl⟩

theorem WellFormed.setModeBits {mode mask : Mode} (h : i.WellFormed)
    (hm : i.type = .dontKnow ∨ i.type = .notExist → mask = 0) : (i.setModeBits mode mask).WellFormed where
  size := h.size
  hash := h.hash
  hashed := h.hashed
  masked := setModeBits_masked h.masked
  empty := h.empty
  unset := by
    intro ht
    rw [hm ht, setModeBits_zero]
    exact h.unset ht

end FileInfo

/-! ## Updates -/

namespace FileUsageUpdate

/-- The updates that are created: by a constructor, with a type or with the state that a cache
    entry holds, or from the parameters of a call. -/
inductive Created : FileUsageUpdate → Prop
  | type (w : World) (f : FileName) (type : FileType) (written modeChanged : Bool) :
      Created (new w f type written modeChanged)
  | info (w : World) (f : FileName) (i : FileInfo) (written modeChanged : Bool) (h : i.WellFormed) :
      Created { new w f .dontKnow written modeChanged with initialState := i }
  | opened (w : World) (f : FileName) (flags : OpenFlags) (mode : Mode) (err : Option Errno) (tmpFile : Bool) :
      Created (getFromOpenParams w f flags mode err tmpFile)
  | mkdir (w : World) (f : FileName) (err : Option Errno) (tmpDir : Bool) : Created (getFromMkdirParams w f err tmpDir)
  | stat (w : World) (f : FileName) (kind : StatKind) (mode : Mode) (size : Nat) (err : Option Errno) :
      Created (getFromStatParams w f kind mode size err)
  | access (w : World) (f : FileName) (mode : Mode) (asked : Process.AccessMode) :
      Created (Process.existsWith w f mode asked)
  | renamed (w : World) (oldName newName : FileName) (err : Option Errno) :
      Created (getOldfileUsageFromRenameParams w oldName newName err)
  /-- `set_timestamp_source()` -/
  | source {d : FileUsageUpdate} (h : Created d) (source : Option FileName) :
      Created { d with timestampSource := source }

/-- The hash of a regular file is known or to be computed, and its size is not. -/
def LacksSize (d : FileUsageUpdate) : Prop :=
  d.typeComputer = false ∧ d.initialState.type = .isReg ∧ d.initialHashKnown = true ∧ d.initialState.size = none

/-- What holds of an initial state even if there is something to be computed. -/
structure Drafted (d : FileUsageUpdate) : Prop extends d.WellFormed where
  masked : d.initialState.mode &&& ~~~d.initialState.modeMask = 0
  empty : d.initialState.type = .notExistOrIsReg → d.initialState.size = none ∨ d.initialState.size = some 0
  unset : d.initialState.type = .dontKnow ∨ d.initialState.type = .notExist → d.initialState.modeMask = 0

variable {d : FileUsageUpdate}

theorem Drafted.of_info (ht : d.typeComputer = false) (hc : d.hashComputer = false)
    (h : d.initialState.WellFormed) : d.Drafted where
  typeComputer := by rw [ht]; nofun
  size := h.size
  hash hk := .inr (h.hash (by simpa [initialHashKnown, hc] using hk))
  masked := h.masked
  empty := h.empty
  unset hu := (h.unset hu).2.2.2

variable {type : FileType} {d1 : FileUsageUpdate}

theorem Drafted.of_type (ht : d.typeComputer = false) (hc : d.hashComputer = false)
    (h : d.initialState = { type }) : d.Drafted := .of_info ht hc (h ▸ .of_type type)

/-- A regular file; a hash is left to be computed. -/
theorem Drafted.of_isReg (ht : d.typeComputer = false)
    (h : d.initialState = { type := .isReg, size }) : d.Drafted := by
  refine ⟨⟨by rw [ht]; nofun, fun _ => by rw [h]; rfl, fun _ => .inr (.inl (by rw [h]))⟩, ?_, ?_, ?_⟩
  all_goals rw [h]
  · exact BitVec.zero_and
  · nofun
  · exact fun _ => rfl

section

variable (w : World) (f : FileName)
include w f

theorem updateFromEnotdir_drafted : ((new w f .dontKnow false false).updateFromEnotdir w f).Drafted := by
  unfold updateFromEnotdir
  repeat' split
  all_goals exact .of_type rfl rfl rfl

theorem getFromOpenedForWriting_drafted (flags : OpenFlags) (mode : Mode) (tmpFile : Bool) :
    (getFromOpenedForWriting w f flags mode tmpFile).Drafted := by
  unfold getFromOpenedForWriting fromCreatedMode
  dsimp only
  split
  · exact .of_type rfl rfl rfl
  split
  · repeat' split
    all_goals exact .of_type rfl rfl rfl
  split
  · exact .of_isReg rfl rfl
  split
  · exact .of_type rfl rfl rfl
  -- the size is known, and with none the file may have been missing
  split
  · split <;> exact .of_isReg rfl rfl
  split
  · exact .of_isReg rfl rfl
  next hsize =>
  obtain rfl := Nat.eq_zero_of_not_pos hsize
  refine .of_info rfl rfl ⟨⟨⟨fun _ => rfl, nofun⟩, BitVec.zero_and, fun _ => .inr rfl, ?_⟩, nofun⟩
  rintro (h | h) <;> cases h

theorem getFromOpenParams_drafted (flags : OpenFlags) (mode : Mode) (err : Option Errno)
    (tmpFile : Bool) : (getFromOpenParams w f flags mode err tmpFile).Drafted := by
  unfold getFromOpenParams
  split
  · split
    · exact getFromOpenedForWriting_drafted w f flags mode tmpFile
    · exact ⟨⟨fun _ => rfl, nofun, fun _ => .inl rfl⟩, BitVec.zero_and, nofun, fun _ => rfl⟩
  split
  · unfold getFromFailedOpenForWriting
    repeat' split
    all_goals first | exact updateFromEnotdir_drafted w f | exact .of_type rfl rfl rfl
  · split
    all_goals first | exact updateFromEnotdir_drafted w f | exact .of_type rfl rfl rfl

theorem getFromStatParams_drafted (kind : StatKind) (mode : Mode) (size : Nat)
    (err : Option Errno) : (getFromStatParams w f kind mode size err).Drafted := by
  unfold getFromStatParams
  split
  · split
    · refine .of_info rfl rfl (FileInfo.WellFormed.setModeBits ?_ (by rintro (h | h) <;> cases h))
      exact ⟨⟨⟨fun _ => rfl, nofun⟩, BitVec.zero_and, nofun, by rintro (h | h) <;> cases h⟩, nofun⟩
    · exact .of_info rfl rfl (FileInfo.WellFormed.setModeBits (.of_type .isDir) (by rintro (h | h) <;> cases h))
    · exact .of_type rfl rfl rfl
    · exact .of_type rfl rfl rfl
  · exact .of_type rfl rfl rfl

end

theorem Created.drafted (h : Created d) : d.Drafted := by
  induction h with
  | type w f type written modeChanged => exact .of_type rfl rfl rfl
  | info w f i written modeChanged h => exact .of_info rfl rfl h
  | opened w f flags mode err tmpFile => exact getFromOpenParams_drafted w f flags mode err tmpFile
  | mkdir w f err tmpDir =>
    unfold getFromMkdirParams
    repeat' split
    all_goals exact .of_type rfl rfl rfl
  | stat w f kind mode size err => exact getFromStatParams_drafted w f kind mode size err
  | access w f mode asked =>
    exact .of_info rfl rfl (FileInfo.WellFormed.setModeBits (.of_type .exist) (by rintro (h | h) <;> cases h))
  | renamed w oldName newName err =>
    have h := getFromOpenParams_drafted w newName {} 0 err false
    exact ⟨{ h with }, h.masked, h.empty, h.unset⟩
  | source h source ih => exact ⟨{ ih with }, ih.masked, ih.empty, ih.unset⟩

/-- A type that is computed comes with what belongs to it. -/
theorem info_computed (hc : d.typeComputer = true) (ht : d.getInitialType w = some (type, d1)) :
    (d.info w).type = .isDir ∨ (d.info w).type = .isReg ∧ (d.info w).size.isSome = true := by
  obtain ⟨hc1, hinfo, -, -⟩ := getInitialType_spec ht
  obtain ⟨x, hx⟩ := info_typed w hc1
  rw [← hinfo]
  rw [getInitialType, hc, if_pos rfl] at ht
  unfold typeComputerOpenRdonly at ht
  split at ht
  · simp at ht
  · split at ht
    · cases ht
    · cases ht
      exact .inl rfl
  · split at ht
    · cases ht
    · cases ht
      exact .inr ⟨rfl, rfl⟩

theorem Drafted.info_tidy (h : d.Drafted)
    (ht : d.getInitialType w = some (type, d1)) : (d.info w).Tidy := by
  have hok := h.toWellFormed.info_ok ht
  obtain ⟨hmode, hmask⟩ := info_mode w d
  have hmasked : (d.info w).mode &&& ~~~(d.info w).modeMask = 0 := by
    rw [hmode, hmask]
    exact h.masked
  cases hc : d.typeComputer with
  | false =>
    obtain ⟨x, hx⟩ := info_typed w hc
    have htype : (d.info w).type = d.initialState.type := info_type hc
    refine ⟨hok, hmasked, fun hempty => ?_, fun hu => ⟨?_, ?_, ?_⟩⟩
    · rw [hx]
      exact h.empty (htype ▸ hempty)
    · by_contra hne
      have := hok.size (Option.isSome_iff_ne_none.mpr hne)
      rcases hu with hu | hu <;> simp [hu, FileType.hasSize] at this
    · by_contra hne
      have := hok.hash (Option.isSome_iff_ne_none.mpr hne)
      rcases hu with hu | hu <;> simp [hu] at this
    · have hz : (d.info w).modeMask = 0 := hmask.trans (h.unset (htype ▸ hu))
      exact ⟨FileInfo.mode_zero hmasked hz, hz⟩
  | true =>
    have hreg := info_computed hc ht
    refine ⟨hok, hmasked, fun hempty => ?_, fun hu => ?_⟩
    · rcases hreg with hd | ⟨hd, -⟩ <;> rw [hd] at hempty <;> cases hempty
    · rcases hreg with hd | ⟨hd, -⟩ <;> rcases hu with hu | hu <;> rw [hd] at hu <;> cases hu

theorem info_hashed (ht : d.getInitialType w = some (type, d1))
    (hl : ¬d.LacksSize) (hreg : (d.info w).type = .isReg) (hh : (d.info w).hash.isSome = true) :
    (d.info w).size.isSome = true := by
  cases hc : d.typeComputer with
  | false =>
    obtain ⟨x, hx⟩ := info_typed w hc
    by_contra hs
    refine hl ⟨hc, by rw [hx] at hreg; exact hreg, ?_, by rw [hx] at hs; simpa using hs⟩
    by_contra hk
    rw [info_hash_unknown hc (by simpa using hk)] at hh
    cases hh
  | true =>
    rcases info_computed hc ht with hd | ⟨-, hs⟩
    · rw [hd] at hreg
      cases hreg
    · exact hs

end FileUsageUpdate

/-! ## Merges -/

namespace FileUsage

open FileUsageUpdate (Created LacksSize Drafted)

variable {w : World} {u u' : FileUsage} {d : FileUsageUpdate} {p : Bool} {own i r : FileInfo}

structure Keeps (u : FileUsage) (d : FileUsageUpdate) : Prop where
  size : u.written = false → u.initialState.type ≠ .notExistOrIsReg → u.initialState.size = none → ¬d.LacksSize
  mode : u.initialState.type = .notExist ∨ (u.initialState.type = .dontKnow ∧ u.written = true) →
    u.modeChanged = true ∨ d.initialState.modeMask = 0
  exist : u.written = false → u.initialState.type = .exist → d.typeComputer = false →
    d.initialState.type = .dontKnow → u.initialState.modeMask = 0

theorem join_wellFormed (hown : own.WellFormed) (hi : i.Tidy) (hj : own.join i = some r)
    (hexist : own.type = .exist → i.type = .dontKnow → own.modeMask = 0)
    (hhashed : own.type ≠ .notExistOrIsReg → own.size = none → i.type = .isReg → i.hash.isSome = true →
      i.size.isSome = true) : r.WellFormed := by
  have hsize : own.type.hasSize = false → own.size = none := fun h => by
    by_contra hne
    exact absurd (hown.size (Option.isSome_iff_ne_none.mpr hne)) (by simp [h])
  have hhash : own.type ≠ .isReg → own.type ≠ .isDir → own.hash = none := fun h h' => by
    by_contra hne
    exact (hown.hash (Option.isSome_iff_ne_none.mpr hne)).elim h h'
  -- where the type of the update is taken, nothing else was known but mode bits
  have htake : own.type = .dontKnow ∨ own.type = .exist →
      (i.type = .dontKnow ∨ i.type = .notExist → own.modeMask = 0) →
      ({ own with type := i.type, size := own.size.or i.size, hash := own.hash.or i.hash } : FileInfo).WellFormed := by
    intro ht hmask
    have hs : own.size = none := hsize (by rcases ht with ht | ht <;> rw [ht] <;> rfl)
    have hh : own.hash = none := hhash (by rcases ht with ht | ht <;> rw [ht] <;> nofun)
      (by rcases ht with ht | ht <;> rw [ht] <;> nofun)
    rw [hs, hh]
    refine ⟨⟨⟨hi.size, hi.hash⟩, hown.masked, hi.empty, fun hu => ?_⟩,
      hhashed (by rcases ht with ht | ht <;> rw [ht] <;> nofun) hs⟩
    exact ⟨(hi.unset hu).1, (hi.unset hu).2.1, FileInfo.mode_zero hown.masked (hmask hu), hmask hu⟩
  unfold FileInfo.join at hj
  cases hot : own.type with
  | dontKnow =>
    simp only [hot, Option.some.injEq] at hj
    subst hj
    exact htake (.inl hot) fun _ => (hown.unset (.inl hot)).2.2.2
  | exist =>
    simp only [hot] at hj
    have hh : own.hash = none := hhash (by rw [hot]; nofun) (by rw [hot]; nofun)
    cases hit : i.type with
    | notExist => simp [hit] at hj
    | notExistOrIsReg =>
      simp only [hit, Option.some.injEq] at hj
      subst hj
      refine ⟨⟨⟨fun _ => rfl, fun _ => .inl rfl⟩, hown.masked, nofun, by rintro (h | h) <;> cases h⟩, fun _ h => ?_⟩
      rw [hh] at h
      cases h
    | dontKnow =>
      simp only [hit, Option.some.injEq] at hj
      subst hj
      have h := htake (.inr hot) fun _ => hexist hot hit
      rwa [hit] at h
    | exist | isReg | isDir =>
      simp only [hit, Option.some.injEq] at hj
      subst hj
      have h := htake (.inr hot) (by rintro (h | h) <;> rw [hit] at h <;> cases h)
      rwa [hit] at h
  | notExist =>
    simp only [hot] at hj
    split at hj <;> cases hj <;> exact hown
  | notExistOrIsReg =>
    simp only [hot, Option.some.injEq] at hj
    subst hj
    exact hown
  | isReg =>
    simp only [hot] at hj
    have hdir : i.type ≠ .isDir := fun h => by simp [h] at hj
    have hboth : (own.hash.or i.hash).isSome = true → (own.size.or i.size).isSome = true := by
      intro h
      rw [Option.isSome_or, Bool.or_eq_true] at h ⊢
      rcases h with h | h
      · exact .inl (hown.hashed hot h)
      cases hs : own.size with
      | some n => exact .inl rfl
      | none => exact .inr (hhashed (by rw [hot]; nofun) hs ((hi.hash h).resolve_right hdir) h)
    have hr : r = { own with type := .isReg, size := own.size.or i.size, hash := own.hash.or i.hash } := by
      split at hj <;> cases hj <;> rfl
    subst hr
    exact ⟨⟨⟨fun _ => rfl, fun _ => .inl rfl⟩, hown.masked, nofun, by rintro (h | h) <;> cases h⟩, fun _ => hboth⟩
  | isDir =>
    simp only [hot] at hj
    have hr : r = { own with type := .isDir, hash := own.hash.or i.hash } := by
      split at hj <;> cases hj <;> rfl
    subst hr
    refine ⟨⟨⟨fun h => ?_, fun _ => .inr rfl⟩, hown.masked, nofun, by rintro (h | h) <;> cases h⟩, nofun⟩
    rw [hsize (by rw [hot]; rfl)] at h
    cases h

theorem join_type (hj : own.join i = some r) (h : r.type = .dontKnow ∨ r.type = .notExist) :
    own.type = .notExist ∨ i.type = .dontKnow ∨ i.type = .notExist := by
  unfold FileInfo.join at hj
  cases hot : own.type with
  | notExist => exact .inl rfl
  | dontKnow =>
    simp only [hot, Option.some.injEq] at hj
    subst hj
    exact .inr h
  | exist =>
    simp only [hot] at hj
    split at hj <;> cases hj
    · simp at h
    · exact .inr h
  | notExistOrIsReg =>
    simp only [hot, Option.some.injEq] at hj
    subst hj
    simp [hot] at h
  | isReg | isDir =>
    simp only [hot] at hj
    split at hj <;> cases hj <;> simp at h

theorem Keeps.wellFormed (hk : Keeps u d) (hu : u.initialState.WellFormed) (hd : d.Drafted)
    (h : merge w u d p = some u') : u'.initialState.WellFormed := by
  obtain ⟨r, hm⟩ := merge_spec h
  obtain ⟨-, hmask⟩ := FileUsageUpdate.info_mode w d
  have hinitial := hm.initial
  rw [hm.state, hmask]
  cases hw : u.written with
  | true =>
    rw [hw] at hinitial
    subst hinitial
    split
    · exact hu
    next hc =>
    refine hu.setModeBits fun ht => (hk.mode ?_).resolve_left hc
    exact ht.symm.imp_right fun ht => ⟨ht, hw⟩
  | false =>
    rw [hw] at hinitial
    obtain ⟨type, d1, r1, ht, -⟩ := merge_typed hw h
    have hi := hd.info_tidy ht
    have hr : r.WellFormed := by
      refine join_wellFormed hu hi hinitial (fun hex hdk => ?_) fun hn hs =>
        FileUsageUpdate.info_hashed ht (hk.size hw hn hs)
      cases hc : d.typeComputer with
      | false =>
        exact hk.exist hw hex hc (FileUsageUpdate.info_type hc ▸ hdk)
      | true => rcases FileUsageUpdate.info_computed hc ht with hc | ⟨hc, -⟩ <;> rw [hc] at hdk <;> cases hdk
    split
    · exact hr
    next hc =>
    refine hr.setModeBits fun hrt => ?_
    rcases join_type hinitial hrt with hne | hit
    · exact (hk.mode (.inl hne)).resolve_left hc
    · exact hmask.symm.trans (hi.unset hit).2.2.2

/-- Nothing is left out of what a merge can break. -/
theorem keeps_of_wellFormed (h : merge w u d p = some u') (hu' : u'.initialState.WellFormed) : Keeps u d := by
  obtain ⟨r, hm⟩ := merge_spec h
  obtain ⟨-, hmask⟩ := FileUsageUpdate.info_mode w d
  have hinitial := hm.initial
  have hfields := hm.type
  have hbits : (r.type = .dontKnow ∨ r.type = .notExist) →
      r.modeMask = 0 ∧ (u.modeChanged = true ∨ d.initialState.modeMask = 0) := by
    intro ht
    have hz := (hu'.unset (by rw [hfields.1]; exact ht)).2.2.2
    rw [hm.state] at hz
    split at hz
    · next hc => exact ⟨hz, .inl hc⟩
    · obtain ⟨hr, hd⟩ := BitVec.or_eq_zero_iff.mp hz
      exact ⟨hr, .inr (hmask.symm.trans hd)⟩
  refine ⟨fun hw hn hs hl => ?_, fun ht => ?_, fun hw hex hc hdk => ?_⟩
  · rw [hw] at hinitial
    obtain ⟨hc, hreg, hk, hsize⟩ := hl
    obtain ⟨type, d1, r1, ht, hr1⟩ := merge_typed hw h
    obtain ⟨rfl, rfl⟩ := FileUsageUpdate.getInitialType_typed hc ht
    have hr : r1 = r := Option.some.inj ((mergeInitial_eq hc hr1).symm.trans hinitial)
    rw [hreg] at hr1
    have hhash := mergeInitial_hash hk hn hr1
    obtain ⟨x, hx⟩ := FileUsageUpdate.info_typed w hc
    obtain ⟨hrt, hrs, -⟩ := join_isReg hn (by rw [hx]; exact hreg) hinitial
    have hsome := hu'.hashed (hfields.1.trans hrt) (by rw [hfields.2.2, ← hr]; exact hhash)
    rw [hfields.2.1, hrs, hs, hx, hsize] at hsome
    cases hsome
  · have hr : r = u.initialState := by
      cases hw : u.written with
      | true =>
        rw [hw] at hinitial
        exact hinitial
      | false =>
        rw [hw, if_neg (by decide)] at hinitial
        have hne : u.initialState.type = .notExist := ht.resolve_right fun hf => by simp [hw] at hf
        unfold FileInfo.join at hinitial
        simp only [hne] at hinitial
        split at hinitial <;> cases hinitial <;> rfl
    refine (hbits ?_).2
    rw [hr]
    exact ht.elim .inr fun ht => .inl ht.1
  · rw [hw] at hinitial
    have hdk : (d.info w).type = .dontKnow := (FileUsageUpdate.info_type hc).trans hdk
    unfold FileInfo.join at hinitial
    simp only [hex, hdk, Option.some.injEq] at hinitial
    subst hinitial
    exact (hbits (.inl rfl)).1

/-! ## Sequences of merges -/

/-- The usages of the sequences of merges in which every update meets `P` when it comes. -/
inductive Merges (P : FileUsage → FileUsageUpdate → Prop) : FileUsage → Prop
  | new : Merges P (.get .dontKnow)
  | merge {u u' : FileUsage} {w : World} {d : FileUsageUpdate} {p : Bool} :
      Merges P u → Created d → P u d → u.merge w d p = some u' → Merges P u'

theorem initial_states_well_formed (h : Merges Keeps u) : u.initialState.WellFormed ∧
    ∀ w d p u', Created d → u.merge w d p = some u' → (u'.initialState.WellFormed ↔ Keeps u d) := by
  have hu : u.initialState.WellFormed := by
    induction h with
    | new => exact .of_type .dontKnow
    | merge _ hd hk h ih => exact hk.wellFormed ih hd.drafted h
  exact ⟨hu, fun w d p u' hd h => ⟨keeps_of_wellFormed h, fun hk => hk.wellFormed hu hd.drafted h⟩⟩

def threeBytes : World := { World.empty with
  getHash _ _ := .ok (.reg 3 7), getStatinfo _ := some false, stat _ := .ok (0o644, 3) }

def afterStat : FileUsage where
  initialState := { type := .isReg, size := some 3, mode := 0o644, modeMask := 0o7777 }
  propagated := false

/-- The file is stat()ed, and then opened for writing. -/
theorem stat_and_open_well_formed : ∃ u, Merges Keeps u ∧ u.written = true ∧ u.initialState.hash = some 7 ∧
    u.initialState.WellFormed := by
  have h1 : Merges Keeps afterStat := .merge (w := threeBytes) .new (.stat threeBytes ["f"] .reg 0o644 3 none)
    ⟨fun _ _ _ hl => (by cases hl.2.2.1), (by rintro (h | ⟨-, h⟩) <;> cases h), fun _ => nofun⟩ rfl
  have h2 := h1.merge (w := threeBytes) (p := false) (.opened threeBytes ["f"] { write := true } 0 none false)
    ⟨nofun, (by rintro (h | ⟨h, -⟩) <;> cases h), fun _ => nofun⟩ rfl
  exact ⟨_, h2, rfl, rfl, (initial_states_well_formed h2).1⟩

/-- Opened for writing at once, the file has a hash and no size. A name that may be read and
    turns out to be a symbolic link is not known to exist, and has a mode. -/
theorem ill_formed_states : (∃ u, Merges (fun _ _ => True) u ∧ u.initialState = { type := .isReg, hash := some 7 } ∧
      ¬u.initialState.WellFormed) ∧
    ∃ u, Merges (fun _ _ => True) u ∧ u.initialState = { type := .dontKnow, mode := 0o400, modeMask := 0o400 } ∧
      ¬u.initialState.WellFormed := by
  have haccess := Merges.new.merge (P := fun _ _ => True) (w := threeBytes) (p := false)
    (.access threeBytes ["f"] 0o400 { r := true }) trivial rfl
  refine ⟨⟨_, .merge (w := threeBytes) (p := false) .new (.opened threeBytes ["f"] { write := true } 0 none false) trivial rfl,
    rfl, fun h => ?_⟩, ⟨_, haccess.merge (w := threeBytes) (p := false) (.stat threeBytes ["f"] .lnk 0 0 none) trivial rfl,
    rfl, fun h => ?_⟩⟩
  · cases h.hashed rfl rfl
  · cases (h.unset (.inl rfl)).2.2.2

end FileUsage

open List

/-! ## The inputs of an entry -/

/-- The state that is recorded for a path, if anything is known about it: the listing of some
    directories is left out. -/
def recordedInput (env : StoreEnv) (p : StoredProcess) (x : FileName × FileUsage) : Option (FileName × FileInfo) :=
  let s := x.2.initialState
  if s.type = .dontKnow then none
  else if s.type = .isDir ∧ (s.hash.isSome &&
      ((env.ignoreTmpListing && x.1 == env.tmpdir) || rustcIgnoredDir p.args x.1)) = true then
    some (x.1, { s with hash := none })
  else some (x.1, s)

/-- The states that are matched against the file system, and registered after a shortcut. -/
def ProcessInputs.states (i : ProcessInputs) : List (FileName × FileInfo) :=
  i.path.map (fun f => (f.path, fileToFileInfo f)) ++ i.pathNotexist.map fun name => (name, { type := .notExist })

def nameOnly (x : FileName × FileInfo) : FileName × FileInfo :=
  if x.2.type = .notExist then (x.1, { type := .notExist }) else x

variable {env : StoreEnv} {p : StoredProcess} {x : FileName × FileUsage} {one : ProcessInputs} {s : FileInfo}

theorem fileToFileInfo_addFile (h : s.mode &&& ~~~s.modeMask = 0) :
    fileToFileInfo (addFile env.cfg name s false none []) = s := by
  have hmode : s.mode &&& s.modeMask = s.mode := by
    ext k hk
    have hbit := mode_bit h hk
    simp only [BitVec.getElem_and] at hbit ⊢
    cases hm : s.mode[k] <;> cases hi : s.modeMask[k] <;> simp_all
  by_cases hz : s.modeMask = 0#12
  · obtain ⟨type, size, hash, mode, modeMask⟩ := s
    obtain rfl : modeMask = 0 := hz
    obtain rfl : mode = 0 := FileInfo.mode_zero h rfl
    simp [fileToFileInfo, addFile, FileInfo.setModeBits]
  · simp [fileToFileInfo, addFile, FileInfo.setModeBits, hz, hmode]

theorem storeInput_states (hm : x.2.initialState.mode &&& ~~~x.2.initialState.modeMask = 0)
    (h : storeInput env p x.1 x.2 {} = .ok one) : one.states = ((recordedInput env p x).map nameOnly).toList := by
  have hadd : ∀ s : FileInfo, s.mode &&& ~~~s.modeMask = 0 → s.type ≠ .notExist →
      ({ path := [addFile env.cfg x.1 s false none []] } : ProcessInputs).states = [nameOnly (x.1, s)] := by
    intro s hs ht
    simp only [ProcessInputs.states, nameOnly, if_neg ht, map_cons, fileToFileInfo_addFile hs]
    rfl
  unfold storeInput at h
  split at h
  · cases h
  cases ht : x.2.initialState.type with
  | dontKnow | notExist =>
    simp only [ht] at h
    cases h
    simp [recordedInput, ht, ProcessInputs.states, nameOnly]
  | exist | notExistOrIsReg =>
    simp only [ht] at h
    cases h
    simp [recordedInput, ht, hadd _ hm]
  | isReg =>
    simp only [ht] at h
    split at h <;> cases h
    simp [recordedInput, ht, hadd _ hm]
  | isDir =>
    simp only [ht] at h
    cases h
    simp only [recordedInput, ht, true_and]
    split <;> exact hadd _ hm (by simp [ht])

theorem recordedInput_notExist (hy : recordedInput env p x = some y)
    (ht : y.2.type = .notExist) : y = (x.1, x.2.initialState) := by
  unfold recordedInput at hy
  dsimp only at hy
  split_ifs at hy with h1 h2
  · cases hy
    cases h2.1.symm.trans ht
  · exact (Option.some.inj hy).symm

theorem FileUsage.Merges.masked (h : Merges P u) :
    u.initialState.mode &&& ~~~u.initialState.modeMask = 0 := by
  induction h with
  | new => rfl
  | merge _ _ _ h ih =>
    obtain ⟨r, hm⟩ := merge_spec h
    have hr : r.mode &&& ~~~r.modeMask = 0 := by
      have hinitial := hm.initial
      split at hinitial
      · exact hinitial ▸ ih
      · obtain ⟨hmode, hmask⟩ := join_mode hinitial
        rw [hmode, hmask]
        exact ih
    rw [hm.state]
    split
    · exact hr
    · exact FileInfo.setModeBits_masked hr

/-- The states that are read back from an entry are those that were recorded, unless a path
    that was missing has mode bits. -/
theorem stored_inputs_are_read_back {i : ProcessInputs} (h : storeInputs env p = .ok i)
    (hu : ∀ x ∈ p.fileUsages, FileUsage.Merges (fun _ _ => True) x.2) :
    i.states.Perm (p.fileUsages.filterMap (recordedInput env p)) ↔
      ∀ x ∈ p.fileUsages, x.2.initialState.type = .notExist → x.2.initialState = { type := .notExist } := by
  obtain ⟨hok, hpath, hmissing⟩ := storeInputs_perm h
  have hstates : i.states.Perm ((p.fileUsages.filterMap (recordedInput env p)).map nameOnly) := by
    refine ((hpath.map _).append (hmissing.map _)).trans ?_
    rw [map_flatMap, map_flatMap, map_filterMap, filterMap_eq_flatMap_toList]
    refine (flatMap_append_perm _ _ _).trans (Perm.of_eq (flatMap_congr fun x hx => ?_))
    obtain ⟨one, hone⟩ := hok x hx
    rw [← storeInput_states (hu x hx).masked hone, show inputOf env p x = one by simp only [inputOf, hone]]
    rfl
  refine ⟨fun hback x hx ht => ?_, fun hmask => ?_⟩
  · have hsome : recordedInput env p x = some (x.1, x.2.initialState) := by simp [recordedInput, ht]
    obtain ⟨y, hy, hxy⟩ := mem_map.mp ((hstates.symm.trans hback).mem_iff.mpr (mem_filterMap.mpr ⟨x, hx, hsome⟩))
    unfold nameOnly at hxy
    split at hxy
    · exact (Prod.ext_iff.mp hxy).2.symm
    · next hy => exact absurd (hxy ▸ ht) hy
  · refine hstates.trans (Perm.of_eq ((map_congr_left fun y hy => ?_).trans (map_id _)))
    obtain ⟨x, hx, hxy⟩ := mem_filterMap.mp hy
    unfold nameOnly
    split
    · next ht =>
      obtain rfl := recordedInput_notExist hxy ht
      rw [hmask x hx ht]
      rfl
    · rfl

namespace FileUsage

def oneFile (u : FileUsage) : StoredProcess where fileUsages := [(["f"], u)]

def nowhere : StoreEnv where
  codec := magicCodec
  cfg := {}
  disk _ := .missing

/-- The file is stat()ed. -/
theorem stored_inputs_are_read_back_after_stat : ∃ u i, u.initialState.type = .isReg ∧
    storeInputs nowhere (oneFile u) = .ok i ∧
    i.states.Perm ((oneFile u).fileUsages.filterMap (recordedInput nowhere (oneFile u))) := by
  have h1 : Merges (fun _ _ => True) afterStat :=
    .merge (w := threeBytes) .new (.stat threeBytes ["f"] .reg 0o644 3 none) trivial rfl
  refine ⟨afterStat, _, rfl, rfl, (stored_inputs_are_read_back rfl fun x hx => ?_).mpr fun x hx => ?_⟩
  · rw [mem_singleton.mp hx]
    exact h1
  · rw [mem_singleton.mp hx]
    nofun

/-- The file is missing, its timestamp is set after another process has created it, and it is
    stat()ed: its mode bits are not in the entry. -/
theorem mode_bits_are_not_read_back : ∃ u i, Merges (fun _ _ => True) u ∧ storeInputs nowhere (oneFile u) = .ok i ∧
    ¬i.states.Perm ((oneFile u).fileUsages.filterMap (recordedInput nowhere (oneFile u))) := by
  have h1 := Merges.merge (P := fun _ _ => True) (w := threeBytes) (p := false) .new
    (.type threeBytes ["f"] .notExist false false) trivial rfl
  have h2 := h1.merge (w := threeBytes) (p := false) (.type threeBytes ["f"] .dontKnow true false) trivial rfl
  have h3 := h2.merge (w := threeBytes) (p := false) (.stat threeBytes ["f"] .reg 0o644 3 none) trivial rfl
  refine ⟨_, _, h3, rfl, fun h => ?_⟩
  cases perm_singleton.mp h

end FileUsage
end Firebuild
