/-
  Firebuild.Pinning — which results of a call are pinned by what its handler records
  (`process.cc`: the handlers of stat, access, mkdir, unlink, rmdir, symlink, scandir and
  truncate; `file_usage_update.cc`: `get_from_mkdir_params`, `get_from_stat_params`,
  `get_from_open_params`).

  A result is pinned if every file system that satisfies what is recorded answers the call
  with the same success or the same error. The file systems are those without faults in which
  whatever exists on the way to the path is a directory that can be searched and written to
  (`Ordinary`). With `plain` they hold neither links nor special files, which `stat()` and the
  hash cache take for what they lead to and for nothing.

  `Call.determined` is the table of the results that are pinned, and
    - `determined_pins`: what it lists is pinned, or the process is disabled;
    - `undetermined_differs`: for everything else there is a file system that satisfies what
      is recorded and answers differently.
-/

import Firebuild.FileSystem
import Firebuild.Learning

namespace Firebuild

open Process (AccessMode existsWith)
open FileUsageUpdate (getFromMkdirParams getFromOpenParams updateFromEnotdir openedForWriting getFromOpenedForWriting)

def FsEntry.accessible : FsEntry → Bool
  | missing => true
  | dir _ mode => mode.allows ownerX && mode.allows ownerW
  | reg _ _ _ | special _ => false

/-- The file systems in which a call for `name` may be made again. -/
structure Ordinary (plain : Bool) (fs : Fs) (name : FileName) : Prop where
  fault : ∀ c, fs.fault c = none
  parents : ∀ k, k < name.length → (fs.nodes (name.take k)).entry.accessible = true
  plain : plain = true → ∀ f, (fs.nodes f).isLink = false ∧ ∀ m, (fs.nodes f).entry ≠ .special m

/-- The results that the record of the call determines. -/
def Call.determined (plain : Bool) (w : World) : Call → Result → Bool
  | .stat _ _, .status .reg _ _ | .stat _ _, .status .dir _ _ => true
  | .stat _ _, .failed .enoent => plain
  | .access _ _, .done => true
  | .access _ _, .failed .enoent => plain
  -- the bits are looked up, and recorded if one of them is missing
  | .access name asked, .failed .eacces => asked.mask != 0 && (w.stat name).isOk
  | .mkdir _, .done => plain
  | .mkdir _, .failed .eexist => true
  -- "/" is not registered as a parent directory
  | .mkdir name, .failed .enoent => name.parentDir != some []
  | .mkdir name, .failed .eacces => !w.isInReadOnlyLocation name
  | .mkdir _, .failed _ => true
  | .unlink _, .done => true
  | .unlink _, .failed .enoent | .rmdir _, .failed .enoent => plain
  | .symlink _, .done => true
  | .scandir _, .done => true
  | .scandir _, .failed .enoent | .truncate _ _, .failed .enoent => plain
  | .scandir _, .failed _ => true
  | .truncate name _, .failed .enotdir => w.getStatinfo name != some false
  | .truncate _ _, .failed _ => true
  | _, _ => false

/-- What is recorded determines the result: nothing but the record of an update that cannot
    be merged, or a record that only file systems with the same answer satisfy. -/
def Reaction.Pins (plain : Bool) (w : World) (c : Call) (r : Result) : Reaction → Prop
  | .ignore => False
  | .disable _ | .abort => True
  | .register name d _ _ =>
    name = c.name ∧ (d.getInitialType w = none ∨
      ∀ fs, Ordinary plain fs c.name → fs.nodes.matchesInfo name (d.info w) = true →
        (∀ dir, Implied name d dir → fs.nodes.matchesInfo dir { type := d.parentType } = true) →
        (fs.answer c).error = r.error)

/-- mkdir() and symlink() need the name to be free. -/
def Call.creates : Call → Bool
  | .mkdir _ | .symlink _ => true
  | _ => false

/-! ## Answers in ordinary file systems -/

section Answers

variable {plain : Bool} {fs : Fs} {name dir : FileName} {c : Call} {i : FileInfo}

theorem FsEntry.accessible_blocks {e : FsEntry} (h : e.accessible = true) :
    e = .missing ∨ e.blocks = none ∧ e.isDir = true ∧ e.writable = true := by
  cases e with
  | missing => exact .inl rfl
  | reg _ _ _ | special _ => cases h
  | dir x m =>
    obtain ⟨hx, hw⟩ := Bool.and_eq_true_iff.mp h
    exact .inr ⟨by simp [FsEntry.blocks, hx], rfl, hw⟩

namespace Ordinary

variable (h : Ordinary plain fs name)
include h

/-- Nothing but a missing directory is in the way. -/
theorem reach : fs.nodes.reach name = none ∨ fs.nodes.reach name = some .enoent := by
  cases hr : fs.nodes.reach name with
  | none => exact .inl rfl
  | some e =>
    obtain ⟨entry, hmem, hb⟩ := List.exists_of_findSome?_eq_some hr
    obtain ⟨k, hk, rfl⟩ := List.mem_map.mp hmem
    rcases FsEntry.accessible_blocks (h.parents k (List.mem_range.mp hk)) with he | ⟨he, _⟩
    · rw [he] at hb
      cases hb
      exact .inr rfl
    · rw [he] at hb
      cases hb

theorem parent (hd : name.parentDir = some dir) : (fs.nodes dir).entry.accessible = true := by
  unfold FileName.parentDir at hd
  split at hd
  · cases hd
  rename_i hne
  cases hd
  rw [List.dropLast_eq_take]
  exact h.parents _ (Nat.sub_lt (List.length_pos_of_ne_nil hne) Nat.one_pos)

/-- A path that is reached has a parent directory that can be written to. -/
theorem parentWritable (hr : fs.nodes.reach name = none) : fs.parentWritable name = true := by
  unfold Fs.parentWritable
  cases hd : name.parentDir with
  | none => rfl
  | some dir =>
    rcases FsEntry.accessible_blocks (h.parent hd) with he | ⟨_, _, hw⟩
    · rw [Nodes.reach_parent hd, he, Option.or_eq_none_iff] at hr
      cases hr.2
    · exact hw

theorem reach_of_dir (hd : name.parentDir = some dir) (hr : fs.nodes.reach dir = none)
    (hdir : (fs.nodes dir).entry.isDir = true) : fs.nodes.reach name = none := by
  rw [Nodes.reach_parent hd, hr]
  rcases FsEntry.accessible_blocks (h.parent hd) with he | ⟨hb, _⟩
  · rw [he] at hdir
    cases hdir
  · rw [hb]
    rfl

theorem answer_eq (c : Call) (hr : fs.nodes.reach c.name = none) : fs.answer c = fs.answerAt c := by
  unfold Fs.answer
  rw [h.fault c, hr]

theorem answer_blocked (c : Call) (hr : fs.nodes.reach c.name = some .enoent) : (fs.answer c).error = some .enoent := by
  unfold Fs.answer
  rw [h.fault c, hr]
  rfl

omit h

/-- Without links and special files, a path recorded as missing is missing. -/
theorem absent (h : Ordinary true fs name) (hi : i.type = .notExist) (hm : fs.nodes.matchesInfo name i = true) :
    fs.nodes.reach name = some .enoent ∨
      fs.nodes.reach name = none ∧ (fs.nodes name).entry = .missing ∧ (fs.nodes name).isLink = false := by
  obtain ⟨hl, hs⟩ := h.plain rfl name
  rcases h.reach with hr | hr
  · refine .inr ⟨hr, ?_, hl⟩
    have hseen := Nodes.seen_of_reach hr
    rcases Nodes.matchesInfo_notExist hi hm with hm | ⟨m, hm⟩
    · rw [← hseen, hm]
    · exact absurd (hseen.symm.trans hm) (hs m)
  · exact .inl hr

theorem answer_absent (h : Ordinary true fs c.name) (hi : i.type = .notExist)
    (hm : fs.nodes.matchesInfo c.name i = true) (hc : c.creates = false) :
    (fs.answer c).error = some .enoent := by
  rcases h.absent hi hm with hr | ⟨hr, he, hl⟩
  · exact h.answer_blocked c hr
  rw [h.answer_eq c hr]
  cases c with
  | mkdir name | symlink name => cases hc
  | stat name _ | access name _ | scandir name | truncate name _ | unlink name | rmdir name =>
    simp only [Call.name] at he hl
    simp [Fs.answerAt, Fs.remove, he, hl, Result.error]

theorem present_reg (hi : i.type = .isReg) (hm : fs.nodes.matchesInfo name i = true) :
    ∃ s x m, fs.nodes.reach name = none ∧ (fs.nodes name).entry = .reg s x m := by
  obtain ⟨s, x, m, hs⟩ := Nodes.matchesInfo_isReg hi hm
  obtain ⟨hr, he⟩ := Nodes.reach_of_seen (show fs.nodes.seen name ≠ .missing by rw [hs]; nofun)
  exact ⟨s, x, m, hr, he.trans hs⟩

theorem present_dir (hi : i.type = .isDir) (hm : fs.nodes.matchesInfo name i = true) :
    ∃ x m, fs.nodes.reach name = none ∧ (fs.nodes name).entry = .dir x m ∧
      (i.hash ≠ none → m.allows ownerR = true) := by
  obtain ⟨x, m, hs, hr'⟩ := Nodes.matchesInfo_isDir hi hm
  obtain ⟨hr, he⟩ := Nodes.reach_of_seen (show fs.nodes.seen name ≠ .missing by rw [hs]; nofun)
  exact ⟨x, m, hr, he.trans hs, hr'⟩

theorem root_present (hn : name.parentDir = none) (hi : i.type = .notExist) : ¬fs.nodes.matchesInfo name i = true := by
  have hnil : name = [] := by
    unfold FileName.parentDir at hn
    split at hn
    · assumption
    · cases hn
  subst hnil
  intro hm
  have hdir := fs.root
  rw [← Nodes.seen_of_reach (rfl : fs.nodes.reach [] = none)] at hdir
  rcases Nodes.matchesInfo_notExist hi hm with hm | ⟨m, hm⟩ <;> rw [hm] at hdir <;> cases hdir

theorem mkdir_done (h : Ordinary true fs name) (hi : i.type = .notExist) (hm : fs.nodes.matchesInfo name i = true)
    (hparent : ∀ dir, name.parentDir = some dir → dir ≠ [] → fs.nodes.matchesInfo dir { type := .isDir } = true) :
    (fs.answer (.mkdir name)).error = none := by
  have hreach : fs.nodes.reach name = none := by
    cases hd : name.parentDir with
    | none => exact absurd hm (root_present hd hi)
    | some dir =>
      by_cases hroot : dir = []
      · subst hroot
        exact h.reach_of_dir hd rfl fs.root
      · obtain ⟨x, m, hr, he, _⟩ := present_dir rfl (hparent dir hd hroot)
        exact h.reach_of_dir hd hr (by rw [he]; rfl)
  rcases h.absent hi hm with hr | ⟨_, he, hl⟩
  · rw [hreach] at hr
    cases hr
  · rw [h.answer_eq (.mkdir name) hreach]
    simp [Fs.answerAt, Fs.create, he, hl, h.parentWritable hreach, Result.error]

theorem mkdir_enoent (h : Ordinary plain fs name) (hi : i.type = .notExist) (hm : fs.nodes.matchesInfo name i = true)
    (hroot : name.parentDir ≠ some [])
    (hparent : ∀ dir, name.parentDir = some dir → dir ≠ [] → fs.nodes.matchesInfo dir { type := .notExist } = true) :
    (fs.answer (.mkdir name)).error = some .enoent := by
  refine h.answer_blocked (.mkdir name) (h.reach.resolve_left fun hr => ?_)
  cases hd : name.parentDir with
  | none => exact root_present hd hi hm
  | some dir =>
    have hmiss := hparent dir hd fun he => hroot (he ▸ hd)
    rw [Nodes.reach_parent hd, Option.or_eq_none_iff] at hr
    have hseen := Nodes.seen_of_reach hr.1
    rcases Nodes.matchesInfo_notExist rfl hmiss with hm | ⟨m, hm⟩ <;> rw [hm] at hseen <;> rw [← hseen] at hr <;>
      cases hr.2

/-- No file stands in the place of the parent directory. -/
theorem parent_not_reg (h : Ordinary plain fs name) (hd : name.parentDir = some dir) :
    ¬fs.nodes.matchesInfo dir { type := .isReg } = true := by
  intro hm
  obtain ⟨s, x, m, _, he⟩ := present_reg rfl hm
  have := h.parent hd
  rw [he] at this
  cases this

end Ordinary

end Answers

/-! ## What the table lists is pinned -/

variable {d : FileUsageUpdate} {plain : Bool}

section Table

variable {plain : Bool} {w : World} {name : FileName} {r : Result} {pre : Bool} {c : Call} {reason : String}

def PinnedBy (plain : Bool) (w : World) (r : Result) (pre : Bool) (c : Call) : Prop :=
  c.determined plain w r = true → (c.handling w r pre).reaction.Pins plain w c r

/-- The record "missing", for the calls that need something to be there. -/
theorem pins_missing (hp : plain = true) (hr : r.error = some .enoent) (hc : c.creates = false) :
    (Reaction.registers c.name (.new w c.name .notExist false false) reason).Pins plain w c r := by
  subst hp
  refine ⟨rfl, .inr fun fs hfs hm _ => ?_⟩
  rw [hr]
  exact hfs.answer_absent rfl hm hc

/-- An update with an error that is not known is not merged. -/
theorem pins_unknown (ht : d.typeComputer = false)
    (he : d.unknownErr.isSome = true) : (Reaction.registers c.name d reason).Pins plain w c r := by
  refine ⟨rfl, .inl ?_⟩
  simp only [FileUsageUpdate.getInitialType, ht, Bool.false_eq_true, if_false, he, if_true]

theorem stat_pins : PinnedBy plain w r pre (.stat name follow) := by
  intro h
  have hfound : ∀ (fs : Fs) e, Ordinary plain fs name → fs.nodes.reach name = none →
      (fs.nodes name).entry = e → e ≠ .missing → (fs.answer (.stat name follow)).error = none := by
    intro fs e hfs hr he hne
    rw [hfs.answer_eq (.stat name follow) hr]
    simp only [Fs.answerAt]
    split
    · rfl
    rw [he]
    cases e with
    | missing => exact absurd rfl hne
    | reg _ _ _ | dir _ _ | special _ => rfl
  cases r with
  | done => cases h
  | status kind mode size =>
    cases kind with
    | lnk | other => cases h
    | reg =>
      refine ⟨rfl, .inr fun fs hfs hm _ => ?_⟩
      obtain ⟨s, x, m, hr, he⟩ := Ordinary.present_reg rfl hm
      exact hfound fs _ hfs hr he nofun
    | dir =>
      refine ⟨rfl, .inr fun fs hfs hm _ => ?_⟩
      obtain ⟨x, m, hr, he, _⟩ := Ordinary.present_dir rfl hm
      exact hfound fs _ hfs hr he nofun
  | failed e =>
    cases e with
    | enoent => exact pins_missing h rfl rfl
    | _ => cases h

theorem access_pins : PinnedBy plain w r pre (.access name asked) := by
  intro h
  -- the answer depends on the bits that are recorded
  have hfound : ∀ (fs : Fs) mode, Ordinary plain fs name →
      fs.nodes.matchesInfo name ((existsWith w name mode asked).info w) = true →
      (fs.answer (.access name asked)).error = if mode &&& asked.mask = asked.mask then none else some .eacces := by
    intro fs mode hfs hm
    obtain ⟨m, hp, hs⟩ := Nodes.matchesInfo_exist rfl hm
    have hbits : m &&& asked.mask = mode &&& asked.mask := by
      have hp : (((existsWith w name mode asked).info w).mode &&& ((existsWith w name mode asked).info w).modeMask) =
          m &&& ((existsWith w name mode asked).info w).modeMask := hp
      have hmask : ((existsWith w name mode asked).info w).modeMask = asked.mask := BitVec.zero_or
      have hmode : ((existsWith w name mode asked).info w).mode = mode &&& asked.mask := by
        show (0 &&& ~~~asked.mask) ||| ((mode &&& asked.mask) &&& asked.mask) = mode &&& asked.mask
        ext k hk
        simp
      rw [hmask, hmode] at hp
      rw [← hp, BitVec.and_assoc, BitVec.and_self]
    have hallows : m.allows asked.mask = decide (mode &&& asked.mask = asked.mask) := by
      rw [Mode.allows, hbits]
      rfl
    have hne : fs.nodes.seen name ≠ .missing := by
      rcases hs with ⟨s, x, hs⟩ | ⟨x, hs⟩ <;> rw [hs] <;> nofun
    obtain ⟨hr, he⟩ := Nodes.reach_of_seen hne
    rw [hfs.answer_eq (.access name asked) hr]
    simp only [Fs.answerAt, he]
    rcases hs with ⟨s, x, hs⟩ | ⟨x, hs⟩ <;> simp only [hs, hallows, decide_eq_true_eq] <;> split <;> rfl
  cases r with
  | status _ _ _ => cases h
  | done =>
    refine ⟨rfl, .inr fun fs hfs hm _ => ?_⟩
    rw [hfound fs asked.mask hfs hm, if_pos BitVec.and_self]
    rfl
  | failed e =>
    cases e with
    | enoent => exact pins_missing h rfl rfl
    | eacces =>
      simp only [Call.determined, Bool.and_eq_true, bne_iff_ne] at h
      simp only [Call.handling, Process.handleFaccessat, Result.error, h.1, if_false]
      cases hst : w.stat name with
      | error e => rw [hst] at h; cases h.2
      | ok ms =>
        obtain ⟨mode, size⟩ := ms
        dsimp only
        split
        · trivial
        rename_i hbits
        refine ⟨rfl, .inr fun fs hfs hm _ => ?_⟩
        rw [hfound fs mode hfs hm, if_neg hbits]
        rfl
    | _ => cases h

theorem mkdir_pins : PinnedBy plain w r pre (.mkdir name) := by
  intro hn
  cases r with
  | status _ _ _ => cases hn
  | done =>
    cases (show plain = true from hn)
    refine ⟨rfl, .inr fun fs hfs hm hparent => ?_⟩
    exact hfs.mkdir_done rfl hm fun dir hd hroot => hparent dir ⟨nofun, hd, hroot⟩
  | failed e =>
    cases e with
    | eexist =>
      refine ⟨rfl, .inr fun fs hfs hm _ => ?_⟩
      obtain ⟨x, m, hr, he, _⟩ := Ordinary.present_dir rfl hm
      rw [hfs.answer_eq (.mkdir name) hr]
      simp [Fs.answerAt, Fs.create, he]
    | enoent =>
      have hroot : name.parentDir ≠ some [] := by simpa [Call.determined] using hn
      refine ⟨rfl, .inr fun fs hfs hm hparent => ?_⟩
      exact hfs.mkdir_enoent rfl hm hroot fun dir hd hroot => hparent dir ⟨nofun, hd, hroot⟩
    | eacces =>
      have hro : w.isInReadOnlyLocation name = false := by simpa [Call.determined] using hn
      have hd : getFromMkdirParams w name (some .eacces) false =
          { FileUsageUpdate.new w name .dontKnow false false with unknownErr := some .eacces } := by
        simp [getFromMkdirParams, hro]
      simp only [Call.handling, Process.handleMkdir, Result.error, hd]
      exact pins_unknown rfl rfl
    | _ => exact pins_unknown rfl rfl

theorem unlink_pins : PinnedBy plain w r pre (.unlink name) := by
  intro h
  cases r with
  | status _ _ _ => cases h
  | done =>
    refine ⟨rfl, .inr fun fs hfs hm _ => ?_⟩
    obtain ⟨s, x, m, hr, he⟩ := Ordinary.present_reg rfl hm
    have hpw : fs.parentWritable name = true := hfs.parentWritable hr
    rw [hfs.answer_eq (.unlink name) hr]
    simp [Fs.answerAt, Fs.remove, he, hpw, FsEntry.isDir]
  | failed e =>
    cases e with
    | enoent => exact pins_missing h rfl rfl
    | _ => cases h

theorem rmdir_pins : PinnedBy plain w r pre (.rmdir name) := by
  intro h
  cases r with
  | status _ _ _ | done => cases h
  | failed e =>
    cases e with
    | enoent => exact pins_missing h rfl rfl
    | _ => cases h

theorem symlink_pins : PinnedBy plain w r pre (.symlink name) := by
  intro h
  cases r with
  | status _ _ _ | failed _ => cases h
  | done => trivial

/-- A directory that was listed has a hash. -/
theorem scandir_pins (hw : r = .done → ∃ hash, w.getHash name 0 = .ok (.dir hash)) :
    PinnedBy plain w r pre (.scandir name) := by
  intro h
  cases r with
  | status _ _ _ => cases h
  | done =>
    obtain ⟨hash, hh⟩ := hw rfl
    have hinfo : (getFromOpenParams w name {} 0 none false).info w = { type := .isDir, hash := some hash } := by
      simp [getFromOpenParams, FileUsageUpdate.info, FileUsageUpdate.new, FileUsageUpdate.typeComputerOpenRdonly, hh]
    refine ⟨rfl, .inr fun fs hfs hm _ => ?_⟩
    rw [hinfo] at hm
    obtain ⟨x, m, hr, he, hread⟩ := Ordinary.present_dir rfl hm
    rw [hfs.answer_eq (.scandir name) hr]
    simp only [Fs.answerAt, he, hread (by simp), if_true]
  | failed e =>
    cases e with
    | enoent => exact pins_missing h rfl rfl
    | _ => trivial

theorem truncate_pins (hroot : w.getStatinfo [] = some true) :
    PinnedBy plain w r pre (.truncate name length) := by
  intro h
  cases r with
  | status _ _ _ | done => cases h
  | failed e =>
    cases e with
    | enoent => exact pins_missing h rfl rfl
    | eexist => trivial
    | enotdir =>
      have hreg : w.getStatinfo name ≠ some false := by simpa [Call.determined] using h
      show (Reaction.registers name ((FileUsageUpdate.new w name .dontKnow false false).updateFromEnotdir w name)
        _).Pins plain w (.truncate name length) _
      unfold updateFromEnotdir
      split
      · exact pins_unknown rfl rfl
      · rename_i hs
        exact absurd hs hreg
      split
      · exact pins_unknown rfl rfl
      · rename_i hs
        -- a file in the place of the parent directory
        refine ⟨rfl, .inr fun fs hfs _ hparent => ?_⟩
        cases hd : name.parentDir with
        | none =>
          rw [hd, Option.getD_none, hroot] at hs
          cases hs
        | some dir =>
          rw [hd, Option.getD_some] at hs
          have hne : dir ≠ [] := by
            rintro rfl
            rw [hroot] at hs
            cases hs
          exact absurd (hparent dir ⟨nofun, hd, hne⟩) (hfs.parent_not_reg hd)
      · exact pins_unknown rfl rfl
    | _ => exact pins_unknown rfl rfl

end Table

/-- A directory that was listed without an error can be hashed. -/
theorem Fs.scandir_hash {fs : Fs} (isInReadOnlyLocation : FileName → Bool)
    (h : fs.answer (.scandir name) = .done) :
    ∃ hash, (fs.nodes.world isInReadOnlyLocation).getHash name 0 = .ok (.dir hash) := by
  unfold Fs.answer at h
  split at h
  · cases h
  split at h
  · cases h
  rename_i hr
  have hseen : fs.nodes.seen name = (fs.nodes name).entry := Nodes.seen_of_reach hr
  simp only [Fs.answerAt] at h
  split at h
  · cases h
  · rename_i hash mode he
    split at h
    · rename_i hm
      refine ⟨hash, ?_⟩
      simp only [Nodes.world, hseen, he, hm, if_true]
    · cases h
  · cases h
  · cases h

theorem Fs.after_root (fs : Fs) (cut : Hash → Nat → Hash) (c : Call) : (fs.after cut c) [] = fs.nodes [] := by
  unfold Fs.after
  split
  · rename_i he _
    have := fs.root
    rw [he] at this
    cases this
  · rfl

theorem Fs.statinfo_root (fs : Fs) (cut : Hash → Nat → Hash) (c : Call) (isInReadOnlyLocation : FileName → Bool) :
    ((fs.after cut c).world isInReadOnlyLocation).getStatinfo [] = some true := by
  have hroot := fs.root
  have hseen : (fs.after cut c).seen [] = (fs.nodes []).entry :=
    (Nodes.seen_of_reach rfl).trans (by rw [fs.after_root])
  cases he : (fs.nodes []).entry with
  | dir x m => simp only [Nodes.world, hseen, he]
  | missing | reg _ _ _ | special _ => rw [he] at hroot; cases hroot

/-- What the table lists is pinned by the record of the call, or nothing is replayed. -/
theorem determined_pins (fs : Fs) (cut : Hash → Nat → Hash) (isInReadOnlyLocation : FileName → Bool)
    (generation : FileName → Nat) (c : Call) (pre : Bool)
    (h : c.determined plain { (fs.after cut c).world isInReadOnlyLocation with generation } (fs.answer c) = true) :
    (c.handling { (fs.after cut c).world isInReadOnlyLocation with generation } (fs.answer c) pre).reaction.Pins plain
      { (fs.after cut c).world isInReadOnlyLocation with generation } c (fs.answer c) := by
  cases c with
  | stat name follow => exact stat_pins h
  | access name asked => exact access_pins h
  | mkdir name => exact mkdir_pins h
  | unlink name => exact unlink_pins h
  | rmdir name => exact rmdir_pins h
  | symlink name => exact symlink_pins h
  | scandir name => exact scandir_pins (fun hd => fs.scandir_hash isInReadOnlyLocation hd) h
  | truncate name length => exact truncate_pins (fs.statinfo_root cut _ isInReadOnlyLocation) h

/-! ## What it does not list is not -/

/-- What is recorded leaves room for another answer. -/
def Reaction.Leaves (plain : Bool) (w : World) (c : Call) (r : Result) : Reaction → Prop
  | .ignore => ∃ fs, Ordinary plain fs c.name ∧ (fs.answer c).error ≠ r.error
  | .disable _ | .abort => False
  | .register name d _ _ =>
    ∃ fs, Ordinary plain fs c.name ∧ fs.nodes.matchesInfo name (d.info w) = true ∧
      (∀ dir, Implied name d dir → fs.nodes.matchesInfo dir { type := d.parentType } = true) ∧
      (fs.answer c).error ≠ r.error

def Fs.single (name : FileName) (hn : name ≠ []) (node : Node) : Fs where
  nodes f := if f = name then node else { entry := .dir 0 0o777 }
  fault _ := none
  root := by
    rw [if_neg (Ne.symm hn)]
    rfl

section Single

variable {plain : Bool} {name : FileName} {hn : name ≠ []} {node : Node}

theorem Fs.single_parent (hk : k < name.length) :
    ((Fs.single name hn node).nodes (name.take k)).entry = .dir 0 0o777 := by
  have hne : name.take k ≠ name := by
    intro he
    have := congrArg List.length he
    rw [List.length_take] at this
    omega
  show (if name.take k = name then node else { entry := .dir 0 0o777 } : Node).entry = _
  rw [if_neg hne]

theorem Fs.single_node : (Fs.single name hn node).nodes name = node := if_pos rfl

theorem Fs.single_reach : (Fs.single name hn node).nodes.reach name = none := by
  unfold Nodes.reach
  rw [List.findSome?_eq_none_iff]
  intro e he
  obtain ⟨k, hk, rfl⟩ := List.mem_map.mp he
  rw [Fs.single_parent (List.mem_range.mp hk)]
  decide

theorem Fs.single_seen : (Fs.single name hn node).nodes.seen name = node.entry := by
  rw [Nodes.seen_of_reach Fs.single_reach, Fs.single_node]

theorem Fs.single_ordinary (hp : plain = true → node.isLink = false ∧ ∀ m, node.entry ≠ .special m) :
    Ordinary plain (Fs.single name hn node) name := by
  refine ⟨fun _ => rfl, fun k hk => ?_, fun h f => ?_⟩
  · rw [Fs.single_parent hk]
    decide
  show (if f = name then node else { entry := .dir 0 0o777 } : Node).isLink = false ∧ ∀ m,
    (if f = name then node else { entry := .dir 0 0o777 } : Node).entry ≠ .special m
  split
  · exact hp h
  · exact ⟨rfl, nofun⟩

theorem Fs.single_dir (hd : name.parentDir = some dir) :
    (Fs.single name hn node).nodes.matchesInfo dir { type := .isDir } = true := by
  have hreach : (Fs.single name hn node).nodes.reach dir = none := by
    have := @Fs.single_reach name hn node
    rw [Nodes.reach_parent hd, Option.or_eq_none_iff] at this
    exact this.1
  have hentry : ((Fs.single name hn node).nodes dir).entry = .dir 0 0o777 := by
    show (if dir = name then node else { entry := .dir 0 0o777 } : Node).entry = _
    rw [if_neg (parentDir_ne hd)]
  have hseen : (Fs.single name hn node).nodes.seen dir = .dir 0 0o777 := (Nodes.seen_of_reach hreach).trans hentry
  unfold Nodes.matchesInfo
  rw [hseen]
  decide

end Single

def Result.fits : Call → Result → Bool
  | .stat _ _, .done => false
  | .stat _ _, _ => true
  | _, .status _ _ _ => false
  | _, _ => true

theorem Fs.answer_fits (fs : Fs) (c : Call) : (fs.answer c).fits c = true := by
  unfold Fs.answer
  split
  · cases c <;> rfl
  split
  · cases c <;> rfl
  cases c with
  | stat _ _ | access _ _ | scandir _ | truncate _ _ | mkdir _ | symlink _ | unlink _ | rmdir _ =>
    simp only [Fs.answerAt, Fs.create, Fs.remove]
    repeat' split
    all_goals rfl

section Undetermined

variable {plain : Bool} {w : World} {c : Call} {r : Result} {name : FileName} {hn : name ≠ []} {node : Node}
  {reason : Option String} {next : Reaction}

section

variable (hc : c.name = name)
include hc

theorem Fs.single_answer : (Fs.single name hn node).answer c = (Fs.single name hn node).answerAt c := by
  unfold Fs.answer
  rw [show (Fs.single name hn node).fault c = none from rfl, hc, Fs.single_reach]

theorem Fs.single_missing (hcr : c.creates = false) :
    ((Fs.single name hn { entry := .missing }).answer c).error = some .enoent := by
  subst hc
  refine (Fs.single_ordinary fun _ => ⟨rfl, fun _ => FsEntry.noConfusion⟩).answer_absent
    (rfl : ({ type := .notExist } : FileInfo).type = .notExist) ?_ hcr
  unfold Nodes.matchesInfo
  rw [Fs.single_seen]
  decide

omit hc in
theorem Fs.single_create (hc : c = .mkdir name ∨ c = .symlink name) :
    ((Fs.single name hn { entry := .missing }).answer c).error = none := by
  have ho : Ordinary false (Fs.single name hn { entry := .missing }) name := Fs.single_ordinary nofun
  have hw := ho.parentWritable Fs.single_reach
  have hnode : (Fs.single name hn { entry := .missing }).nodes name = { entry := .missing } := Fs.single_node
  have hcreate : (Fs.single name hn { entry := .missing }).create name = .done := by simp [Fs.create, hnode, hw]
  have hname : c.name = name := by rcases hc with rfl | rfl <;> rfl
  rw [Fs.single_answer hname]
  rcases hc with rfl | rfl <;> exact congrArg Result.error hcreate

omit hc in
theorem Fs.answerAt_special {fs : Fs} (h : fs.nodes c.name = { entry := .special m }) :
    (fs.answerAt c).error ≠ some .enoent := by
  cases c with
  | stat name _ | mkdir name | symlink name | scandir name | truncate name _ =>
    simp only [Call.name] at h
    simp [Fs.answerAt, Fs.create, h, Result.error]
  | access name asked =>
    simp only [Call.name] at h
    simp only [Fs.answerAt, h]
    split <;> simp [Result.error]
  | unlink name | rmdir name =>
    simp only [Call.name] at h
    simp only [Fs.answerAt, Fs.remove, h]
    cases fs.parentWritable name <;> simp [FsEntry.isDir, Result.error]

theorem Fs.single_special : ((Fs.single name hn { entry := .special 0o777 }).answer c).error ≠ some .enoent := by
  rw [Fs.single_answer hc]
  exact Fs.answerAt_special (by rw [hc]; exact Fs.single_node)

/-- The record is satisfied by a node with which the call answers differently. -/
theorem leaves_of (hn : name ≠ [])
    (node : Node) (hp : plain = true → node.isLink = false ∧ ∀ m, node.entry ≠ .special m)
    (hm : fileInfoMatches (d.info w) node.entry = true)
    (hh : (typeMatches (d.info w) node.entry.statinfo).isSome = true ∨ (d.info w).hash = none ∨
      node.entry.readable = true)
    (hpar : d.parentType = .dontKnow ∨ d.parentType = .isDir)
    (hans : ((Fs.single name hn node).answer c).error ≠ r.error) :
    (Reaction.register name d reason next).Leaves plain w c r := by
  refine ⟨Fs.single name hn node, hc ▸ Fs.single_ordinary hp, ?_, fun dir hd => ?_, hans⟩
  · unfold Nodes.matchesInfo
    rw [Fs.single_seen, hm]
    rcases hh with hh | hh | hh <;> simp [hh]
  · rcases hpar with ht | ht
    · exact absurd ht hd.1
    · rw [ht]
      exact Fs.single_dir hd.2.1

/-- A record that a missing path satisfies, of a call that did not fail with ENOENT. -/
theorem leaves_missing
    (hn : name ≠ []) (hm : (d.info w).type = .notExist ∨ (d.info w).type = .dontKnow) (hpar : d.parentType = .dontKnow)
    (hcr : c.creates = false) (hr : r.error ≠ some .enoent) :
    (Reaction.register name d reason next).Leaves plain w c r := by
  refine leaves_of hc hn { entry := .missing } (fun _ => ⟨rfl, nofun⟩) ?_ (.inl ?_) (.inl hpar) ?_
  · rw [FileInfo.matches_missing]
    rcases hm with hm | hm <;> rw [hm] <;> rfl
  · rcases hm with hm | hm <;> simp [typeMatches, hm]
  · rw [Fs.single_missing hc hcr]
    exact Ne.symm hr

/-- "Missing" is also satisfied by a special file. -/
theorem leaves_special (hn : name ≠ []) (hplain : plain = false) (hm : (d.info w).type = .notExist)
    (hpar : d.parentType = .dontKnow ∨ d.parentType = .isDir)
    (hans : ((Fs.single name hn { entry := .special 0o777 }).answer c).error ≠ r.error) :
    (Reaction.register name d reason next).Leaves plain w c r := by
  refine leaves_of hc hn { entry := .special 0o777 } (fun h => ?_) ?_ (.inl ?_) hpar hans
  · rw [hplain] at h
    cases h
  · rw [FileInfo.matches_special, hm]
    rfl
  · simp [typeMatches, hm]

/-- Nothing is recorded of a failure other than ENOENT. -/
theorem leaves_ignored (hn : name ≠ []) (hcr : c.creates = false)
    (hr : r.error ≠ some .enoent) : Reaction.ignore.Leaves plain w c r := by
  refine ⟨Fs.single name hn { entry := .missing }, ?_, ?_⟩
  · rw [hc]
    exact Fs.single_ordinary fun _ => ⟨rfl, nofun⟩
  · rw [Fs.single_missing hc hcr]
    exact Ne.symm hr

end

end Undetermined

section UndeterminedTable

variable {plain : Bool} {w : World} {name : FileName} {r : Result}

theorem modePins_none (h : i.modeMask = 0) : ModePins i m := by
  simp [ModePins, h]

def LeavesRoom (plain : Bool) (w : World) (r : Result) (pre : Bool) (c : Call) : Prop :=
  r.fits c = true → c.determined plain w r = false → (c.handling w r pre).reaction.Leaves plain w c r

section Leaves

variable (pre : Bool) (hn : name ≠ [])
include pre hn

theorem stat_leaves : LeavesRoom plain w r pre (.stat name follow) := by
  intro hf h
  cases r with
  | done => cases hf
  | status kind mode size =>
    cases kind with
    | reg | dir => cases h
    | lnk => exact leaves_missing rfl hn (.inr rfl) rfl rfl (by simp [Result.error])
    | other => exact leaves_missing rfl hn (.inl rfl) rfl rfl (by simp [Result.error])
  | failed e =>
    by_cases he : e = .enoent
    · subst he
      exact leaves_special rfl hn h rfl (.inl rfl) (Fs.single_special rfl)
    · exact leaves_missing rfl hn (.inl rfl) rfl rfl (by simpa [Result.error] using he)

theorem access_leaves : LeavesRoom plain w r pre (.access name asked) := by
  intro hf h
  cases r with
  | status _ _ _ => cases hf
  | done => cases h
  | failed e =>
    cases e with
    | enoent => exact leaves_special rfl hn h rfl (.inl rfl) (Fs.single_special rfl)
    | eacces =>
      simp only [Call.handling, Process.handleFaccessat]
      by_cases hm : asked.mask = 0
      · rw [if_pos hm]
        exact leaves_missing rfl hn (.inl rfl) rfl rfl (by simp [Result.error])
      rw [if_neg hm]
      cases hst : w.stat name with
      | error e => exact leaves_missing rfl hn (.inl rfl) rfl rfl (by simp [Result.error])
      | ok ms =>
        simp only [Call.determined, hst, Except.toBool, Bool.and_true, bne_eq_false_iff_eq] at h
        exact absurd h hm
    | _ => exact leaves_missing rfl hn (.inl rfl) rfl rfl (by simp [Result.error])

theorem mkdir_leaves : LeavesRoom plain w r pre (.mkdir name) := by
  intro hf h
  have hfree : ((Fs.single name hn { entry := .missing }).answer (.mkdir name)).error = none :=
    Fs.single_create (.inl rfl)
  cases r with
  | status _ _ _ => cases hf
  | done =>
    refine leaves_special rfl hn h rfl (.inr rfl) ?_
    rw [Fs.single_answer (show (Call.mkdir name).name = name from rfl)]
    simp [Fs.answerAt, Fs.create, Fs.single_node, Result.error]
  | failed e =>
    cases e with
    | enoent =>
      have hroot : name.parentDir = some [] := by simpa [Call.determined] using h
      refine ⟨Fs.single name hn { entry := .missing }, Fs.single_ordinary fun _ => ⟨rfl, nofun⟩, ?_, fun dir hd => ?_, ?_⟩
      · unfold Nodes.matchesInfo
        rw [Fs.single_seen]
        rfl
      · exact absurd (Option.some.inj (hd.2.1.symm.trans hroot)) hd.2.2
      · rw [hfree]
        simp [Result.error]
    | eacces =>
      have hro : w.isInReadOnlyLocation name = true := by simpa [Call.determined] using h
      have hd : getFromMkdirParams w name (some .eacces) false = FileUsageUpdate.new w name .notExist false false := by
        simp [getFromMkdirParams, hro]
        rfl
      simp only [Call.handling, Process.handleMkdir, Result.error, hd]
      refine leaves_of rfl hn { entry := .missing } (fun _ => ⟨rfl, nofun⟩) rfl (.inl rfl) (.inl rfl) ?_
      rw [hfree]
      simp [Result.error]
    | _ => cases h

theorem unlink_leaves : LeavesRoom plain w r pre (.unlink name) := by
  intro hf h
  cases r with
  | status _ _ _ => cases hf
  | done => cases h
  | failed e =>
    cases e with
    | enoent => exact leaves_special rfl hn h rfl (.inl rfl) (Fs.single_special rfl)
    | _ => exact leaves_ignored rfl hn rfl (by simp [Result.error])

theorem rmdir_leaves : LeavesRoom plain w r pre (.rmdir name) := by
  intro hf h
  cases r with
  | status _ _ _ => cases hf
  | done =>
    -- a directory that is not empty
    refine leaves_of rfl hn { entry := .dir 0 0o777 } (fun _ => ⟨rfl, nofun⟩) ?_
      (.inr (.inl rfl)) (.inl rfl) ?_
    · exact (FileInfo.matches_dir _ _ _).mpr ⟨rfl, .inr ⟨modePins_none rfl, .inl rfl⟩⟩
    have ho : Ordinary false (Fs.single name hn { entry := .dir 0 0o777 }) name :=
      Fs.single_ordinary nofun
    have hw := ho.parentWritable Fs.single_reach
    rw [Fs.single_answer (show (Call.rmdir name).name = name from rfl)]
    simp only [Fs.answerAt, Fs.remove, Fs.single_node, hw]
    decide
  | failed e =>
    cases e with
    | enoent => exact leaves_special rfl hn h rfl (.inl rfl) (Fs.single_special rfl)
    | _ => exact leaves_ignored rfl hn rfl (by simp [Result.error])

theorem symlink_leaves : LeavesRoom plain w r pre (.symlink name) := by
  intro hf h
  cases r with
  | status _ _ _ => cases hf
  | done => cases h
  | failed e =>
    refine ⟨Fs.single name hn { entry := .missing }, Fs.single_ordinary fun _ => ⟨rfl, nofun⟩, ?_⟩
    rw [Fs.single_create (.inr rfl)]
    simp [Result.error]

theorem scandir_leaves : LeavesRoom plain w r pre (.scandir name) := by
  intro hf h
  cases r with
  | status _ _ _ => cases hf
  | done => cases h
  | failed e =>
    cases e with
    | enoent => exact leaves_special rfl hn h rfl (.inl rfl) (Fs.single_special rfl)
    | _ => cases h

omit pre hn in
/-- A successful truncate() is recorded as a regular file, with a hash unless it is emptied. -/
theorem truncate_info (w : World) (name : FileName) (length : Nat) :
    let d := getFromOpenParams w name { write := true, trunc := length = 0 } 0 none false
    ∃ x, d.info w = { type := .isReg, hash := x } ∧ d.parentType = .isDir := by
  intro d
  by_cases hl : length = 0
  · have hd : d = openedForWriting ((FileUsageUpdate.new w name .dontKnow false false).setInitialType .isReg) := by
      simp [d, getFromOpenParams, getFromOpenedForWriting, hl]
    rw [hd]
    exact ⟨none, rfl, rfl⟩
  · have hd : d = openedForWriting { (FileUsageUpdate.new w name .dontKnow false false).setInitialType
        .isReg with hashComputer := true } := by
      simp [d, getFromOpenParams, getFromOpenedForWriting, hl]
    rw [hd]
    obtain ⟨x, hx⟩ := FileUsageUpdate.info_typed w (d := openedForWriting
      { (FileUsageUpdate.new w name .dontKnow false false).setInitialType .isReg with hashComputer := true }) rfl
    exact ⟨x, hx, rfl⟩

theorem truncate_leaves : LeavesRoom plain w r pre (.truncate name length) := by
  intro hf h
  cases r with
  | status _ _ _ => cases hf
  | done =>
    -- a file with the recorded content that cannot be written to
    obtain ⟨x, hx, hpar⟩ := truncate_info w name length
    refine leaves_of rfl hn { entry := .reg 0 (x.getD 0) 0o400 }
      (fun _ => ⟨rfl, nofun⟩) ?_ (.inr (.inr rfl)) (.inr hpar) ?_
    · refine (congrArg (fileInfoMatches · _) hx).trans ((FileInfo.matches_reg _ _ _ _).mpr ?_)
      exact ⟨rfl, fun _ => .inl rfl, .inr ⟨modePins_none rfl, pins_getD x⟩⟩
    · rw [Fs.single_answer (show (Call.truncate name length).name = name from rfl)]
      simp only [Fs.answerAt, Fs.single_node]
      decide
  | failed e =>
    cases e with
    | enoent => exact leaves_special rfl hn h rfl (.inl rfl) (Fs.single_special rfl)
    | enotdir =>
      have hreg : w.getStatinfo name = some false := by simpa [Call.determined] using h
      show (Reaction.registers name ((FileUsageUpdate.new w name .dontKnow false false).updateFromEnotdir w name)
        _).Leaves plain w (.truncate name length) _
      simp only [updateFromEnotdir, hreg]
      refine leaves_of rfl hn { entry := .reg 0 0 0o777 } (fun _ => ⟨rfl, nofun⟩) ?_
        (.inr (.inl rfl)) (.inr rfl) ?_
      · exact (FileInfo.matches_reg _ _ _ _).mpr ⟨rfl, fun _ => .inl rfl, .inr ⟨modePins_none rfl, .inl rfl⟩⟩
      · rw [Fs.single_answer (show (Call.truncate name length).name = name from rfl)]
        simp only [Fs.answerAt, Fs.single_node]
        decide
    | _ => cases h

end Leaves

end UndeterminedTable

/-- For what the table does not list there is a file system that satisfies the record of the
    call and answers differently. -/
theorem undetermined_leaves {r : Result} (pre : Bool) (hn : c.name ≠ [])
    (hf : r.fits c = true) (h : c.determined plain w r = false) :
    (c.handling w r pre).reaction.Leaves plain w c r := by
  cases c with
  | stat name follow => exact stat_leaves pre hn hf h
  | access name asked => exact access_leaves pre hn hf h
  | mkdir name => exact mkdir_leaves pre hn hf h
  | unlink name => exact unlink_leaves pre hn hf h
  | rmdir name => exact rmdir_leaves pre hn hf h
  | symlink name => exact symlink_leaves pre hn hf h
  | scandir name => exact scandir_leaves pre hn hf h
  | truncate name length => exact truncate_leaves pre hn hf h

end Firebuild
