/-
  Firebuild.FileSystem — the file system as system calls answer from it, for a user who is
  not root and owns everything, and as the supervisor looks things up in it (`hash_cache.cc`:
  `get_hash`, `get_statinfo`, `file_info_matches`).

  A path has a node: what is seen there (through a symbolic link, if it is one), whether it is
  a link itself, and whether a directory is empty. On the way to it every directory must exist
  and be searchable. `fault` is anything else that makes a call fail: an I/O error, a full
  disk, a loop of links, a name that is too long.
-/

import Firebuild.Handlers
import Firebuild.Knowledge

namespace Firebuild

open List

structure Node where
  /-- Seen through a link; a dangling one shows nothing. -/
  entry : FsEntry
  isLink : Bool := false
  isEmpty : Bool := false
  deriving DecidableEq, Repr

def ownerR : Mode := 0o400
def ownerW : Mode := 0o200
def ownerX : Mode := 0o100

def Mode.allows (mode bits : Mode) : Bool := mode &&& bits == bits

namespace FsEntry

/-- What is in the way of a lookup that goes through the entry. -/
def blocks : FsEntry → Option Errno
  | missing => some .enoent
  | dir _ mode => if mode.allows ownerX then none else some .eacces
  | reg _ _ _ | special _ => some .enotdir

def isDir : FsEntry → Bool
  | dir _ _ => true
  | missing | reg _ _ _ | special _ => false

def writable : FsEntry → Bool
  | reg _ _ mode | dir _ mode | special mode => mode.allows ownerW
  | missing => false

def readable : FsEntry → Bool
  | reg _ _ mode | dir _ mode => mode.allows ownerR
  | missing | special _ => false

end FsEntry

abbrev Nodes := FileName → Node

namespace Nodes

def reach (nodes : Nodes) (name : FileName) : Option Errno :=
  ((List.range name.length).map fun k => (nodes (name.take k)).entry).findSome? FsEntry.blocks

def seen (nodes : Nodes) (name : FileName) : FsEntry :=
  if nodes.reach name = none then (nodes name).entry else .missing

/-- Does the state of the path satisfy what is recorded about it? A hash has to be computed
    for that where nothing else has decided. -/
def matchesInfo (nodes : Nodes) (name : FileName) (i : FileInfo) : Bool :=
  fileInfoMatches i (nodes.seen name) &&
    ((typeMatches i (nodes.seen name).statinfo).isSome || i.hash.isNone || (nodes.seen name).readable)

def world (nodes : Nodes) (isInReadOnlyLocation : FileName → Bool) : World where
  generation _ := 0
  getHash name _ :=
    match nodes.seen name with
    | .missing => .error ((nodes.reach name).getD .enoent)
    | .reg size hash mode => if mode.allows ownerR then .ok (.reg size hash) else .error .eacces
    | .dir hash mode => if mode.allows ownerR then .ok (.dir hash) else .error .eacces
    | .special _ => .error .einval
  getStatinfo name :=
    match nodes.seen name with
    | .missing | .special _ => none
    | .reg _ _ _ => some false
    | .dir _ _ => some true
  stat name :=
    match nodes.seen name with
    | .missing => .error ((nodes.reach name).getD .enoent)
    | .reg size _ mode => .ok (mode, size)
    | .dir _ mode | .special mode => .ok (mode, 0)
  isInReadOnlyLocation

end Nodes

inductive Call where
  /-- stat() follows a link, lstat() does not. -/
  | stat (name : FileName) (follow : Bool)
  | access (name : FileName) (asked : Process.AccessMode)
  | mkdir (name : FileName)
  | unlink (name : FileName)
  | rmdir (name : FileName)
  | symlink (name : FileName)
  | scandir (name : FileName)
  | truncate (name : FileName) (length : Nat)
  deriving DecidableEq, Repr

def Call.name : Call → FileName
  | stat name _ | access name _ | mkdir name | unlink name | rmdir name | symlink name | scandir name
  | truncate name _ => name

inductive Result where
  | done
  /-- A stat() that succeeded. -/
  | status (kind : FileUsageUpdate.StatKind) (mode : Mode) (size : Nat)
  | failed (e : Errno)
  deriving DecidableEq, Repr

def Result.error : Result → Option Errno
  | done | status _ _ _ => none
  | failed e => some e

structure Fs where
  nodes : Nodes
  fault : Call → Option Errno
  root : (nodes []).entry.isDir = true

namespace Fs

def parentWritable (fs : Fs) (name : FileName) : Bool :=
  name.parentDir.all fun dir => (fs.nodes dir).entry.writable

def create (fs : Fs) (name : FileName) : Result :=
  if (fs.nodes name).isLink || (fs.nodes name).entry != .missing then .failed .eexist
  else if !fs.parentWritable name then .failed .eacces
  else .done

def remove (fs : Fs) (name : FileName) (rest : Result) : Result :=
  if !(fs.nodes name).isLink && (fs.nodes name).entry == .missing then .failed .enoent
  else if !fs.parentWritable name then .failed .eacces
  else rest

def answerAt (fs : Fs) : Call → Result
  | .stat name follow =>
    if !follow && (fs.nodes name).isLink then .status .lnk 0 0
    else
      match (fs.nodes name).entry with
      | .missing => .failed .enoent
      | .reg size _ mode => .status .reg mode size
      | .dir _ mode => .status .dir mode 0
      | .special mode => .status .other mode 0
  | .access name asked =>
    match (fs.nodes name).entry with
    | .missing => .failed .enoent
    | .reg _ _ mode | .dir _ mode | .special mode => if mode.allows asked.mask then .done else .failed .eacces
  | .mkdir name | .symlink name => fs.create name
  | .unlink name =>
    fs.remove name (if !(fs.nodes name).isLink && (fs.nodes name).entry.isDir then .failed .eisdir else .done)
  | .rmdir name =>
    fs.remove name
      (if (fs.nodes name).isLink || !(fs.nodes name).entry.isDir then .failed .enotdir
        else if !(fs.nodes name).isEmpty then .failed .enotempty
        else .done)
  | .scandir name =>
    match (fs.nodes name).entry with
    | .missing => .failed .enoent
    | .dir _ mode => if mode.allows ownerR then .done else .failed .eacces
    | .reg _ _ _ | .special _ => .failed .enotdir
  | .truncate name _ =>
    match (fs.nodes name).entry with
    | .missing => .failed .enoent
    | .reg _ _ mode => if mode.allows ownerW then .done else .failed .eacces
    | .dir _ _ => .failed .eisdir
    | .special _ => .failed .einval

def answer (fs : Fs) (c : Call) : Result :=
  match fs.fault c with
  | some e => .failed e
  | none =>
    match fs.nodes.reach c.name with
    | some e => .failed e
    | none => fs.answerAt c

/-- The nodes when the handler looks at them. Only the handler of a truncate() looks at what
    its call has changed; `cut` is the hash of a content cut off or filled up to a length. -/
def after (fs : Fs) (cut : Hash → Nat → Hash) (c : Call) : Nodes := fun f =>
  match c, fs.answer c, (fs.nodes f).entry with
  | .truncate name length, .done, .reg _ hash mode =>
    if f = name then { fs.nodes f with entry := .reg length (cut hash length) mode } else fs.nodes f
  | _, _, _ => fs.nodes f

end Fs

def Call.handling (w : World) (c : Call) (r : Result) (preOpenSent : Bool) : Handling :=
  match c with
  | .stat name _ =>
    match r with
    | .status kind mode size => Process.handleFstatat w (.name (some name)) kind mode size none
    | .done | .failed _ => Process.handleFstatat w (.name (some name)) .other 0 0 r.error
  | .access name asked => Process.handleFaccessat w (some name) asked r.error
  | .mkdir name => Process.handleMkdir w (some name) r.error false
  | .unlink name => Process.handleUnlink w (some name) false r.error preOpenSent
  | .rmdir name => Process.handleRmdir w (some name) r.error preOpenSent
  | .symlink _ => Process.handleSymlink r.error
  | .scandir name => Process.handleScandirat w (some name) r.error
  | .truncate name length => Process.handleTruncate w (some name) length r.error

/-- The interceptor reports every result but these two. -/
def Result.reported (r : Result) : Bool := r.error != some .eintr && r.error != some .efault

/-! ## Reaching a path -/

theorem Nodes.reach_parent {nodes : Nodes} (h : name.parentDir = some dir) :
    nodes.reach name = (nodes.reach dir).or (nodes dir).entry.blocks := by
  unfold FileName.parentDir at h
  split at h
  · cases h
  rename_i hne
  cases h
  have hlen : name.length = name.dropLast.length + 1 := by
    rw [length_dropLast]
    have := length_pos_of_ne_nil hne
    omega
  have htake : name.take name.dropLast.length = name.dropLast := by
    rw [length_dropLast, ← dropLast_eq_take]
  have hcongr : (List.range name.dropLast.length).map (fun k => (nodes (name.take k)).entry) =
      (List.range name.dropLast.length).map fun k => (nodes (name.dropLast.take k)).entry := by
    refine map_congr_left fun k hk => ?_
    have hk : k < name.dropLast.length := mem_range.mp hk
    rw [dropLast_eq_take, take_take, Nat.min_eq_left (by omega)]
  unfold reach
  rw [hlen, range_succ, map_append, List.findSome?_append, hcongr]
  simp only [map_cons, htake, List.findSome?_cons]
  cases (nodes name.dropLast).entry.blocks <;> rfl

namespace Nodes

variable {nodes : Nodes} {name : FileName} {i j : FileInfo} {e : FsEntry}

theorem seen_of_reach (h : nodes.reach name = none) : nodes.seen name = (nodes name).entry := if_pos h

theorem reach_of_seen (h : nodes.seen name ≠ .missing) :
    nodes.reach name = none ∧ (nodes name).entry = nodes.seen name := by
  by_cases hr : nodes.reach name = none
  · exact ⟨hr, (seen_of_reach hr).symm⟩
  · exact absurd (if_neg hr) h

/-! ### What a recorded state says about the path -/

theorem matchesInfo_matches (h : nodes.matchesInfo name i = true) : fileInfoMatches i (nodes.seen name) = true :=
  (Bool.and_eq_true _ _ ▸ h).1

theorem matchesInfo_notExist (hi : i.type = .notExist) (h : nodes.matchesInfo name i = true) :
    nodes.seen name = .missing ∨ ∃ m, nodes.seen name = .special m := by
  have hm := matchesInfo_matches h
  cases hs : nodes.seen name with
  | missing => exact .inl rfl
  | special m => exact .inr ⟨m, rfl⟩
  | reg s x m =>
    rw [hs, FileInfo.matches_reg, hi] at hm
    cases hm.1
  | dir x m =>
    rw [hs, FileInfo.matches_dir, hi] at hm
    cases hm.1

theorem matchesInfo_isReg (hi : i.type = .isReg) (h : nodes.matchesInfo name i = true) :
    ∃ s x m, nodes.seen name = .reg s x m := by
  have hm := matchesInfo_matches h
  cases hs : nodes.seen name with
  | reg s x m => exact ⟨s, x, m, rfl⟩
  | missing => rw [hs, FileInfo.matches_missing, hi] at hm; cases hm
  | special m => rw [hs, FileInfo.matches_special, hi] at hm; cases hm
  | dir x m =>
    rw [hs, FileInfo.matches_dir, hi] at hm
    cases hm.1

/-- A directory whose hash is recorded can be read. -/
theorem matchesInfo_isDir (hi : i.type = .isDir) (h : nodes.matchesInfo name i = true) :
    ∃ x m, nodes.seen name = .dir x m ∧ (i.hash ≠ none → m.allows ownerR = true) := by
  have hm := matchesInfo_matches h
  cases hs : nodes.seen name with
  | dir x m =>
    refine ⟨x, m, rfl, fun hh => ?_⟩
    have hlast := (Bool.and_eq_true _ _ ▸ h).2
    rw [hs] at hlast
    have htype : typeMatches i (FsEntry.dir x m).statinfo = none := by
      simp [typeMatches, hi, FsEntry.statinfo, FileInfo.setModeBits]
    simpa [htype, hh, FsEntry.readable] using hlast
  | missing => rw [hs, FileInfo.matches_missing, hi] at hm; cases hm
  | special m => rw [hs, FileInfo.matches_special, hi] at hm; cases hm
  | reg s x m =>
    rw [hs, FileInfo.matches_reg, hi] at hm
    cases hm.1

theorem matchesInfo_exist (hi : i.type = .exist) (h : nodes.matchesInfo name i = true) :
    ∃ m, ModePins i m ∧ ((∃ s x, nodes.seen name = .reg s x m) ∨ ∃ x, nodes.seen name = .dir x m) := by
  have hm := matchesInfo_matches h
  have hk : i.type ≠ .dontKnow := by simp [hi]
  cases hs : nodes.seen name with
  | missing => rw [hs, FileInfo.matches_missing, hi] at hm; cases hm
  | special m => rw [hs, FileInfo.matches_special, hi] at hm; cases hm
  | reg s x m =>
    rw [hs, FileInfo.matches_reg] at hm
    exact ⟨m, (hm.2.2.resolve_left hk).1, .inl ⟨s, x, rfl⟩⟩
  | dir x m =>
    rw [hs, FileInfo.matches_dir] at hm
    exact ⟨m, (hm.2.resolve_left hk).1, .inr ⟨x, rfl⟩⟩

def rehash : FsEntry → FsEntry
  | .reg size hash mode => .reg size (hash + 1) mode
  | .dir hash mode => .dir (hash + 1) mode
  | .missing => .missing
  | .special mode => .special mode

theorem rehash_statinfo (e : FsEntry) : (rehash e).statinfo = e.statinfo := by
  cases e <;> rfl

/-- Where the hash is not looked at, any other would do. -/
theorem matches_rehash (h : (typeMatches i e.statinfo).isSome = true ∨ i.hash = none) :
    fileInfoMatches i (rehash e) = fileInfoMatches i e := by
  unfold fileInfoMatches
  rw [rehash_statinfo]
  rcases h with h | h
  · obtain ⟨b, hb⟩ := Option.isSome_iff_exists.mp h
    rw [hb]
  · simp only [h, if_true]

/-- Where it is, no other does. -/
theorem not_matches_rehash (ht : typeMatches j e.statinfo = none) (hh : j.hash ≠ none)
    (h : fileInfoMatches j e = true) : fileInfoMatches j (rehash e) = false := by
  have hc : e.contentHash = j.hash ∧ e.contentHash ≠ none := by
    unfold fileInfoMatches at h
    rw [ht] at h
    simp only [hh] at h
    split at h
    · cases h
    · have := of_decide_eq_true h
      exact ⟨this, this ▸ hh⟩
  have hne : (rehash e).contentHash ≠ j.hash := by
    rw [← hc.1]
    cases e with
    | missing | special _ => exact absurd rfl hc.2
    | reg s x m | dir x m => simp [rehash, FsEntry.contentHash]
  unfold fileInfoMatches
  rw [rehash_statinfo, ht]
  simp [hh, hne]

/-- What satisfies a state satisfies what it entails, also where a hash has to be computed
    for that. -/
theorem matchesInfo_of_entails (hij : i.Entails j) (h : nodes.matchesInfo name i = true) :
    nodes.matchesInfo name j = true := by
  have hi := matchesInfo_matches h
  have hj := hij _ hi
  have hlast := (Bool.and_eq_true _ _ ▸ h).2
  refine (Bool.and_eq_true _ _).mpr ⟨hj, ?_⟩
  by_contra hno
  simp only [Bool.or_eq_true, not_or, Bool.not_eq_true, Option.isSome_eq_false_iff, Option.isNone_iff_eq_none] at hno
  obtain ⟨⟨ht, hh⟩, hr⟩ := hno
  -- then the first state looks at the hash as little as it can be read
  have hfree : (typeMatches i (nodes.seen name).statinfo).isSome = true ∨ i.hash = none := by
    simpa [hr] using hlast
  have := hij _ ((matches_rehash hfree).trans hi)
  rw [not_matches_rehash ht hh hj] at this
  cases this

end Nodes

end Firebuild
