/-
  Firebuild.Tracking — one file in the life of a process: what the process does to its
  content, and what the process's usage says about the content it started from.

  An operation (`FileOp`) changes the file as the operating system does (`after`) and is then
  handled (`handling`, the handlers of `Firebuild.Handlers`). The updates of the handler are
  merged into the usage (`Takes`); a process that is disabled instead has no more steps. Only
  successful operations are followed. Everything else that is registered for the file (a stat(),
  a failed call) is a `look`.

  `content` takes a missing file for an empty one: open() with O_CREAT gives the same file in
  both cases. `replaced` and `opened` are ghosts: nothing of the old content is left, and the
  process has the file open for writing.

  `merge()` records initial knowledge until the first update that sets `written`. So up to then
  the usage has to be true of the file as it was (`Truthful`), and with that update the content
  must be pinned, unless it is replaced (`Known`). The updates of open() see to that. A touch -r
  says nothing about the content, and truncate() takes the hash of what is left of it, so these
  two depend on what is known before (`OpOk`).

  Proved: `Tracked.inv`, for every sequence of operations whose steps meet `OpOk`; and
  `fileStep_of_carryOut`: what the supervisor does for the process is such a step.
-/

import Firebuild.Handlers
import Firebuild.Learning
import Firebuild.Store

namespace Firebuild

open FileUsageUpdate (info_typed getFromOpenedForWriting getFromOpenParams)

/-! ## The file -/

/-- What a process starts from that opens the path for writing: a missing file is an empty one. -/
def FsNode.content : FsNode → Option Bytes
  | missing | special _ => some []
  | reg content _ _ _ => some content
  | dir .. => none

/-- Neither missing nor a regular file: `store()` does not store its content. -/
def FsNode.irregular : FsNode → Bool
  | missing | reg .. => false
  | dir .. | special _ => true

inductive FileOp where
  | open (flags : OpenFlags) (modeWithUmask : Mode) (oTmpfile tmpFile : Bool)
  /-- Any change through an fd that is open for writing. -/
  | write (content : Bytes)
  | truncate (length : Nat)
  | chmod (mode : Mode)
  /-- utime() with the timestamps of another file. -/
  | touch (source : FileName)
  | unlink
  | rmdir
  | mkdir (listing : Hash) (mode : Mode) (tmpDir : Bool)
  /-- The file is renamed, or another one is renamed to it. -/
  | moveAway (newName : FileName)
  | moveOver (oldName : FileName) (content : Bytes) (mode : Mode)
  /-- Any update that is registered otherwise. -/
  | look (d : FileUsageUpdate)

namespace FileOp

def rewrite (time : Nat) (f : Bytes → Bytes) : FsNode → Option FsNode
  | .reg content mode _ inode => some (.reg (f content) mode time inode)
  | .missing | .dir .. | .special _ => none

/-- The file after the operation has succeeded, with the current time and an unused inode;
    `none` if it cannot succeed. -/
def after (time inode : Nat) (op : FileOp) (node : FsNode) : Option FsNode :=
  match op with
  | .open flags modeWithUmask oTmpfile _ =>
    if oTmpfile then (if node.content = none then some node else none)
    -- O_TRUNC with O_RDONLY is unspecified
    else if flags.trunc && !flags.write then none
    else
      match node with
      | .missing => if flags.creat then some (.reg [] modeWithUmask time inode) else none
      | .reg content mode mtime inode =>
        if flags.creat && flags.excl then none
        else if flags.trunc then some (.reg [] mode time inode)
        else some (.reg content mode mtime inode)
      | .dir .. => if flags.write || flags.creat then none else some node
      | .special _ => if flags.creat && flags.excl then none else some node
  | .write content => some ((rewrite time (fun _ => content) node).getD node)
  | .truncate length =>
    rewrite time (fun content => content.take length ++ List.replicate (length - content.length) 0) node
  | .chmod mode =>
    match node with
    | .missing => none
    | .reg content _ mtime inode => some (.reg content mode mtime inode)
    | .dir hash _ mtime inode => some (.dir hash mode mtime inode)
    | .special _ => some (.special mode)
  | .touch _ =>
    match node with
    | .missing => none
    | .reg content mode _ inode => some (.reg content mode time inode)
    | .dir hash mode _ inode => some (.dir hash mode time inode)
    | .special mode => some (.special mode)
  | .unlink =>
    match node with
    | .reg .. | .special _ => some .missing
    | .missing | .dir .. => none
  | .rmdir =>
    match node with
    | .dir .. => some .missing
    | .missing | .reg .. | .special _ => none
  | .mkdir listing mode _ =>
    match node with
    | .missing => some (.dir listing mode time inode)
    | .reg .. | .dir .. | .special _ => none
  | .moveAway _ => rewrite time id node |>.map fun _ => .missing
  | .moveOver _ content mode =>
    match node with
    | .missing | .reg .. | .special _ => some (.reg content mode time inode)
    | .dir .. => none
  | .look _ => some node

def replaces : FileOp → Bool
  | .open flags _ oTmpfile _ => flags.trunc && !oTmpfile
  | .truncate length => length = 0
  | .unlink | .rmdir | .moveAway _ | .moveOver .. => true
  | .write _ | .chmod _ | .touch _ | .mkdir .. | .look _ => false

def opens : FileOp → Bool
  | .open flags _ oTmpfile _ => flags.write && !oTmpfile
  | _ => false

def otherName : FileOp → Option FileName
  | .moveAway newName => some newName
  | .moveOver oldName _ _ => some oldName
  | _ => none

def handling (w : World) (f : FileName) : FileOp → Handling
  | .open flags modeWithUmask oTmpfile tmpFile =>
    Process.handleOpen w (some f) flags modeWithUmask false oTmpfile none flags.write tmpFile
  | .write _ => { reaction := .ignore }
  | .truncate length => Process.handleTruncate w (some f) length none
  | .chmod _ => Process.handleFchmodat w (some f) none
  | .touch source => Process.handleUtime w (some f) (some source) none
  | .unlink => Process.handleUnlink w (some f) false none true
  | .rmdir => Process.handleRmdir w (some f) none true
  | .mkdir _ _ tmpDir => Process.handleMkdir w (some f) none tmpDir
  | .moveAway newName => Process.handleRename w (some f) (some newName) true none
  | .moveOver oldName _ _ => Process.handleRename w (some oldName) (some f) true none
  | .look d => { reaction := .register f d none .ignore }

end FileOp

/-! ## One step -/

/-- What the supervisor can look up is the file as it is, or an error. -/
structure World.Shows (c : Codec) (w : World) (f : FileName) (node : FsNode) : Prop where
  hashReg : ∀ k size hash, w.getHash f k = .ok (.reg size hash) →
    ∃ content, node.content = some content ∧ size = content.length ∧ hash = c.hash content
  hashDir : ∀ k hash, w.getHash f k = .ok (.dir hash) → node.content = none
  size : ∀ mode size content, w.stat f = .ok (mode, size) → node.content = some content →
    node.irregular = true ∨ size = content.length

/-- What a reaction leaves of the process's usage of `f` if the process stays shortcutable.
    An update is merged once or more often. -/
inductive Takes (w : World) (f : FileName) : Reaction → Option FileUsage → Option FileUsage → Prop
  | ignore (fu : Option FileUsage) : Takes w f .ignore fu fu
  | here {d : FileUsageUpdate} {reason : Option String} {next : Reaction} {fu fu₁ fu' : Option FileUsage} :
      Relation.TransGen (TakesIn w d) fu fu₁ → Takes w f next fu₁ fu' → Takes w f (.register f d reason next) fu fu'
  | elsewhere {name : FileName} {d : FileUsageUpdate} {reason : Option String} {next : Reaction}
      {fu fu' : Option FileUsage} : name ≠ f → Takes w f next fu fu' → Takes w f (.register name d reason next) fu fu'

/-- The file before the process and now, and the process's usage of it. -/
structure Track where
  before : FsNode
  now : FsNode
  usage : Option FileUsage := none
  replaced : Bool := false
  opened : Bool := false
  deriving DecidableEq, Repr

def Track.known (t : Track) : FileUsage := t.usage.getD (.get .dontKnow)

structure FileStep (c : Codec) (f : FileName) (w : World) (op : FileOp) (t t' : Track) : Prop where
  opened : (∃ content, op = .write content) → t.opened = true
  other : op.otherName ≠ some f
  after : ∃ time inode, op.after time inode t.now = some t'.now
  shows : w.Shows c f t'.now
  takes : Takes w f (op.handling w f).reaction t.usage t'.usage
  before' : t'.before = t.before
  replaced' : t'.replaced = (t.replaced || op.replaces)
  opened' : t'.opened = (t.opened || op.opens)

inductive Tracked (c : Codec) (f : FileName) (ok : World → FileOp → Track → Prop) : Track → Prop
  | start (node : FsNode) : Tracked c f ok { before := node, now := node }
  | step {t t' : Track} (w : World) (op : FileOp) : Tracked c f ok t → ok w op t → FileStep c f w op t t' →
      Tracked c f ok t'

/-! ## The condition on a step -/

structure Truthful (c : Codec) (i : FileInfo) (node : FsNode) : Prop where
  /-- Only writing says "missing or regular". -/
  certain : i.type ≠ .notExistOrIsReg
  notExist : i.type = .notExist → node.content = some []
  isReg : i.type = .isReg →
    ∃ content, node.content = some content ∧ Pins i.size content.length ∧ Pins i.hash (c.hash content)
  vague : i.type = .dontKnow ∨ i.type = .exist → i.size = none ∧ i.hash = none

/-- An initial state that says what a regular file has in it. -/
def FileInfo.fixesContent (i : FileInfo) : Bool :=
  i.type = .notExist || (i.type = .isReg && (i.hash.isSome || i.size = some 0))

/-- There is no content to pin, it is gone, or it is settled what the usage says of it. -/
def Track.settled (t : Track) : Bool :=
  t.now.irregular || t.replaced || t.known.written || t.known.initialState.fixesContent

/-- What a touch -r, a truncate() and the updates of other calls depend on. -/
def OpOk (c : Codec) (w : World) (op : FileOp) (t : Track) : Prop :=
  match op with
  | .touch _ => t.settled = true
  | .truncate length => length = 0 ∨ t.now.content.map List.length = some length ∨ t.settled = true
  | .look d => d.written = false ∧ Truthful c (d.info w) t.now
  | .open .. | .write _ | .chmod _ | .unlink | .rmdir | .mkdir .. | .moveAway _ | .moveOver .. => True

/-! ## What is known of the old content -/

def PinsContent (c : Codec) (i : FileInfo) (content : Bytes) : Prop :=
  i.type = .notExist ∧ content = [] ∨
  i.type = .isReg ∧ i.hash = some (c.hash content) ∨
  (i.type = .isReg ∨ i.type = .notExistOrIsReg) ∧ i.size = some 0 ∧ content = []

/-- Nothing regular is there, the old content is gone, or it is on record. -/
def Accounted (c : Codec) (t : Track) (i : FileInfo) : Prop :=
  t.now.irregular = true ∨ t.replaced = true ∨ ∃ content, t.before.content = some content ∧ PinsContent c i content

structure Known (c : Codec) (t : Track) (u : FileUsage) : Prop where
  unwritten : u.written = false → t.now.content = t.before.content ∧ Truthful c u.initialState t.before
  written : u.written = true → Accounted c t u.initialState

variable {c : Codec} {f : FileName} {w : World} {t t' : Track} {u u' : FileUsage} {d : FileUsageUpdate}
  {p modeChanged : Bool} {i j r : FileInfo} {node node' : FsNode} {content : Bytes} {flags : OpenFlags}
  {tmpFile : Bool} {mode : Mode}

theorem FsNode.content_of_regular (h : node.irregular = false) : ∃ content, node.content = some content := by
  cases node with
  | missing | reg _ _ _ _ => exact ⟨_, rfl⟩
  | dir _ _ _ _ | special _ => cases h

theorem FsNode.irregular_of_dir (h : node.content = none) : node.irregular = true := by
  cases node with
  | missing | reg _ _ _ _ => cases h
  | dir _ _ _ _ | special _ => rfl

theorem Truthful.congr (h : Truthful c i node) (hc : node'.content = node.content) : Truthful c i node' :=
  ⟨h.certain, fun ht => hc.trans (h.notExist ht), fun ht => hc ▸ h.isReg ht, h.vague⟩

theorem Truthful.mergedState (h : Truthful c i node) : Truthful c (mergedState modeChanged i j) node := by
  cases modeChanged
  · exact { h with }
  · exact h

theorem PinsContent.mergedState (h : PinsContent c i content) :
    PinsContent c (mergedState modeChanged i j) content := by
  cases modeChanged <;> exact h

theorem pins_or (hx : Pins x v) (hy : Pins y v) : Pins (x.or y) v := by
  rcases hx with rfl | rfl
  · exact hy
  · exact .inr rfl

theorem Truthful.join (hi : Truthful c i node) (hj : Truthful c j node) (h : i.join j = some r) :
    Truthful c r node := by
  -- a state that knows no more than existence takes everything over
  have htaken : i.size = none ∧ i.hash = none →
      Truthful c { i with type := j.type, size := i.size.or j.size, hash := i.hash.or j.hash } node := by
    rintro ⟨hs, hh⟩
    rw [hs, hh]
    exact { hj with }
  unfold FileInfo.join at h
  cases ht : i.type with
  | dontKnow =>
    simp only [ht, Option.some.injEq] at h
    exact h ▸ htaken (hi.vague (.inl ht))
  | exist =>
    cases hd : j.type with
    | notExist => simp [ht, hd] at h
    | notExistOrIsReg => exact absurd hd hj.certain
    | dontKnow | exist | isReg | isDir =>
      simp only [ht, hd, Option.some.injEq] at h
      rw [← h, ← hd]
      exact htaken (hi.vague (.inr ht))
  | notExist => cases hd : j.type <;> simp [ht, hd] at h <;> exact h ▸ hi
  | notExistOrIsReg => exact absurd ht hi.certain
  | isReg =>
    obtain ⟨content, hc, hs, hh⟩ := hi.isReg ht
    -- the other state pins the same content, or nothing
    have hother : j.type = .dontKnow ∨ j.type = .exist ∨ j.type = .isReg →
        Pins j.size content.length ∧ Pins j.hash (c.hash content) := by
      rintro (hd | hd | hd)
      · exact ⟨.inl (hj.vague (.inl hd)).1, .inl (hj.vague (.inl hd)).2⟩
      · exact ⟨.inl (hj.vague (.inr hd)).1, .inl (hj.vague (.inr hd)).2⟩
      obtain ⟨content', hc', hs', hh'⟩ := hj.isReg hd
      cases hc.symm.trans hc'
      exact ⟨hs', hh'⟩
    have hreg : j.type = .dontKnow ∨ j.type = .exist ∨ j.type = .isReg →
        Truthful c { i with type := .isReg, size := i.size.or j.size, hash := i.hash.or j.hash } node := fun hd =>
      ⟨by simp, by simp, fun _ => ⟨content, hc, pins_or hs (hother hd).1, pins_or hh (hother hd).2⟩, by simp⟩
    cases hd : j.type with
    | notExist | isDir => simp [ht, hd] at h
    | notExistOrIsReg => exact absurd hd hj.certain
    | dontKnow | exist | isReg =>
      simp only [ht, hd, Option.some.injEq] at h
      exact h ▸ hreg (by simp [hd])
  | isDir =>
    have hdir : ∀ hash, Truthful c { i with type := .isDir, hash } node := fun hash =>
      ⟨by simp, by simp, by simp, by simp⟩
    cases hd : j.type <;> simp [ht, hd] at h <;> exact h ▸ hdir _

/-- What is on record stays on record. -/
theorem PinsContent.join (hi : PinsContent c i content) (h : i.join j = some r) : PinsContent c r content := by
  unfold FileInfo.join at h
  rcases hi with ⟨ht, rfl⟩ | ⟨ht, hh⟩ | ⟨ht | ht, hs, rfl⟩
  · left
    cases hj : j.type <;> simp [ht, hj] at h <;> subst h <;> exact ⟨ht, rfl⟩
  · right; left
    cases hj : j.type <;> simp [ht, hj] at h <;> subst h <;> exact ⟨rfl, by simp [hh]⟩
  · right; right
    cases hj : j.type <;> simp [ht, hj] at h <;> subst h <;> exact ⟨.inl rfl, by simp [hs], rfl⟩
  right; right
  simp only [ht, Option.some.injEq] at h
  subst h
  exact ⟨.inr ht, hs, rfl⟩

/-- A true state that fixes the content has it on record. -/
theorem Truthful.pinsContent (h : Truthful c i node) (hf : i.fixesContent = true) :
    ∃ content, node.content = some content ∧ PinsContent c i content := by
  rcases Bool.or_eq_true_iff.mp hf with ht | hf
  · have ht : i.type = .notExist := by simpa using ht
    exact ⟨[], h.notExist ht, .inl ⟨ht, rfl⟩⟩
  obtain ⟨ht, hf⟩ := Bool.and_eq_true_iff.mp hf
  have ht : i.type = .isReg := by simpa using ht
  obtain ⟨content, hc, hs, hh⟩ := h.isReg ht
  refine ⟨content, hc, ?_⟩
  rcases Bool.or_eq_true_iff.mp hf with hf | hf
  · obtain ⟨x, hx⟩ := Option.isSome_iff_exists.mp hf
    right; left
    exact ⟨ht, hh.resolve_left (by rw [hx]; simp)⟩
  have hsize : i.size = some 0 := by simpa using hf
  have hlen : content.length = 0 := by
    rcases hs with hs | hs <;> rw [hsize] at hs
    · cases hs
    · exact (Option.some.inj hs).symm
  right; right
  exact ⟨.inl ht, hsize, List.length_eq_zero_iff.mp hlen⟩

/-! ## One merge -/

/-- What was accounted for stays so, whatever is merged. -/
theorem Known.keep (hu : u.written = true) (hk : Known c t u) (hb : t'.before = t.before)
    (hgone : t.now.irregular = true ∨ t.replaced = true → t'.now.irregular = true ∨ t'.replaced = true)
    (h : FileUsage.merge w u d p = some u') : u'.written = true ∧ Known c t' u' := by
  obtain ⟨r, hm⟩ := FileUsage.merge_spec h
  have hr : r = u.initialState := by simpa [hu] using hm.initial
  have hw : u'.written = true := by rw [hm.written, hu, Bool.true_or]
  refine ⟨hw, fun hn => ?_, fun _ => ?_⟩
  · rw [hw] at hn
    cases hn
  rw [hm.state, hr]
  rcases hk.written hu with ha | ha | ⟨content, hc, hp⟩
  · exact (hgone (.inl ha)).imp_right .inl
  · exact (hgone (.inr ha)).imp_right .inl
  · exact .inr (.inr ⟨content, hb ▸ hc, hp.mergedState⟩)

/-- An update that does not write is true of the file, which keeps its content. -/
theorem Known.look (hu : u.written = false) (hd : d.written = false) (hk : Known c t u) (hb : t'.before = t.before)
    (hc : t'.now.content = t.now.content) (ht : Truthful c (d.info w) t.now)
    (h : FileUsage.merge w u d p = some u') : u'.written = false ∧ Known c t' u' := by
  obtain ⟨r, hm⟩ := FileUsage.merge_spec h
  have hj : u.initialState.join (d.info w) = some r := by simpa [hu] using hm.initial
  have hw : u'.written = false := by rw [hm.written, hu, hd, Bool.false_or]
  obtain ⟨hsame, htrue⟩ := hk.unwritten hu
  refine ⟨hw, fun _ => ⟨by rw [hc, hsame, hb], ?_⟩, fun hn => ?_⟩
  · rw [hm.state, hb]
    exact (htrue.join (ht.congr hsame.symm) hj).mergedState
  · rw [hw] at hn
    cases hn

/-- The first update that writes. -/
theorem Known.write (hu : u.written = false) (hd : d.written = true)
    (hacc : ∀ r, u.initialState.join (d.info w) = some r → Accounted c t' r)
    (h : FileUsage.merge w u d p = some u') : u'.written = true ∧ Known c t' u' := by
  obtain ⟨r, hm⟩ := FileUsage.merge_spec h
  have hj : u.initialState.join (d.info w) = some r := by simpa [hu] using hm.initial
  have hw : u'.written = true := by rw [hm.written, hu, hd, Bool.false_or]
  refine ⟨hw, fun hn => ?_, fun _ => ?_⟩
  · rw [hw] at hn
    cases hn
  rw [hm.state]
  exact (hacc r hj).imp_right fun ha => ha.imp_right fun ⟨content, hc, hp⟩ => ⟨content, hc, hp.mergedState⟩

/-- What an operation that leads from `t` to `t'` has to say of the file with its update. -/
structure Explains (c : Codec) (w : World) (d : FileUsageUpdate) (t t' : Track) : Prop where
  before : t'.before = t.before
  gone : t.now.irregular = true ∨ t.replaced = true → t'.now.irregular = true ∨ t'.replaced = true
  looks : d.written = false → ∀ u u' p, u.written = false → FileUsage.merge w u d p = some u' →
    t'.now.content = t.now.content ∧ Truthful c (d.info w) t.now
  writes : d.written = true → t.known.written = false → Known c t t.known → ∀ u' p,
    FileUsage.merge w t.known d p = some u' →
    ∀ r, t.known.initialState.join (d.info w) = some r → Accounted c t' r

/-- Merging the update, once or more often. -/
theorem Explains.known (he : Explains c w d t t') (hk : Known c t t.known)
    (h : Relation.TransGen (TakesIn w d) t.usage fu) :
    ∃ u, fu = some u ∧ u.written = (t.known.written || d.written) ∧ Known c t' u := by
  induction h with
  | single hfirst =>
    obtain ⟨propagated, u, hm, rfl⟩ := hfirst
    obtain ⟨hm, _⟩ := mergeAt_ok hm
    refine ⟨u, rfl, ?_⟩
    cases hw : t.known.written with
    | true =>
      exact hk.keep hw he.before he.gone hm
    | false =>
      cases hd : d.written with
      | true => exact Known.write hw hd (he.writes hd hw hk u propagated hm) hm
      | false =>
        obtain ⟨hc, ht⟩ := he.looks hd _ _ _ hw hm
        exact hk.look hw hd he.before hc ht hm
  | tail _ hnext ih =>
    obtain ⟨u, rfl, hw, hk'⟩ := ih
    obtain ⟨propagated, u', hm, rfl⟩ := hnext
    obtain ⟨hm, _⟩ := mergeAt_ok hm
    refine ⟨u', rfl, ?_⟩
    rw [← hw]
    cases hu : u.written with
    | true => exact hk'.keep hu rfl id hm
    | false =>
      have hd : d.written = false := (Bool.or_eq_false_iff.mp (hw.symm.trans hu)).2
      obtain ⟨hc, ht⟩ := he.looks hd _ _ _ hu hm
      exact hk'.look hu hd rfl rfl (ht.congr hc) hm

/-! ## The updates of open() -/

section

variable (hw : w.Shows c d.filename node) (hc : node.content = some content) (ht : d.typeComputer = false)
include hw hc ht

theorem World.Shows.info_hash (hh : d.initialState.hash = none) : Pins (d.info w).hash (c.hash content) := by
  unfold FileUsageUpdate.info
  simp only [ht, Bool.false_eq_true, if_false]
  split
  · unfold FileUsageUpdate.computeHash
    split
    · rename_i hg
      cases hc.symm.trans (hw.hashDir _ _ hg)
    · rename_i hg
      obtain ⟨content', hc', _, rfl⟩ := hw.hashReg _ _ _ hg
      cases hc.symm.trans hc'
      exact .inr rfl
    · exact .inl hh
  · exact .inl hh

/-- A regular file of which no more is said than what is there. -/
theorem World.Shows.truthful (htype : d.initialState.type = .isReg)
    (hs : Pins d.initialState.size content.length) (hh : d.initialState.hash = none) :
    Truthful c (d.info w) node := by
  have hhash := hw.info_hash hc ht hh
  obtain ⟨x, he⟩ := info_typed w ht
  rw [he] at hhash ⊢
  exact ⟨by simp [htype], by simp [htype], fun _ => ⟨content, hc, hs, hhash⟩, by simp [htype]⟩

end

theorem join_notExist (hn : i.type ≠ .notExistOrIsReg) (hd : j.type = .notExist) (h : i.join j = some r) :
    r.type = .notExist := by
  unfold FileInfo.join at h
  cases ht : i.type <;> simp [ht, hd] at h hn <;> subst h <;> first | rfl | exact ht

/-- An empty file that may have been missing. -/
theorem Truthful.join_empty (hi : Truthful c i node) (hc : node.content = some []) (hd : j.type = .notExistOrIsReg)
    (hs : j.size = some 0) (h : i.join j = some r) : PinsContent c r [] := by
  unfold FileInfo.join at h
  cases ht : i.type with
  | dontKnow =>
    simp only [ht, hd, hs, Option.some.injEq] at h
    subst h
    right; right
    exact ⟨.inr rfl, by rw [(hi.vague (.inl ht)).1]; rfl, rfl⟩
  | exist =>
    simp only [ht, hd, hs, Option.some.injEq] at h
    subst h
    right; right
    exact ⟨.inl rfl, rfl, rfl⟩
  | notExist =>
    simp only [ht, hd, Option.some.injEq] at h
    subst h
    exact .inl ⟨ht, rfl⟩
  | notExistOrIsReg => exact absurd ht hi.certain
  | isReg =>
    simp only [ht, hd, hs, Option.some.injEq] at h
    subst h
    obtain ⟨content, hc', hsize, _⟩ := hi.isReg ht
    cases hc.symm.trans hc'
    right; right
    refine ⟨.inl rfl, ?_, rfl⟩
    rcases hsize with hsize | hsize <;> rw [hsize] <;> rfl
  | isDir => simp [ht, hd] at h

/-- A regular file whose hash is taken now. -/
theorem Truthful.join_hashed (hi : Truthful c u.initialState node) (hc : node.content = some content)
    (hu : u.written = false)
    (hd : Truthful c (d.info w) node) (ht : d.typeComputer = false) (htype : d.initialState.type = .isReg)
    (hk : d.initialHashKnown = true) (hm : FileUsage.merge w u d p = some u')
    (h : u.initialState.join (d.info w) = some r) : PinsContent c r content := by
  obtain ⟨type, d1, r', hty, hmi⟩ := FileUsage.merge_typed hu hm
  obtain ⟨rfl, rfl⟩ := FileUsageUpdate.getInitialType_typed ht hty
  cases h.symm.trans (FileUsage.mergeInitial_eq ht hmi)
  have hreg : (d1.info w).type = .isReg := by
    rw [FileUsageUpdate.info_type ht]
    exact htype
  have hsome := FileUsage.mergeInitial_hash hk hi.certain (htype ▸ hmi)
  obtain ⟨content', hc', hp⟩ := (hi.join hd h).pinsContent
    (by simp [FileInfo.fixesContent, (join_isReg hi.certain hreg h).1, hsome])
  cases hc.symm.trans hc'
  exact hp

namespace FileUsageUpdate

theorem unmerged (he : d.unknownErr.isSome = true) (hu : u.written = false) (h : FileUsage.merge w u d p = some u') :
    False := by
  obtain ⟨_, _, _, hty, _⟩ := FileUsage.merge_typed hu h
  cases (getInitialType_unknownErr he).symm.trans hty

section

variable (hw : w.Shows c f node) (hc : node.content = some content) (hu : u.written = false)
  (hi : Truthful c u.initialState node) (ht : flags.trunc = false)
  (hm : FileUsage.merge w u (getFromOpenedForWriting w f flags mode tmpFile) p = some u')
  (h : u.initialState.join ((getFromOpenedForWriting w f flags mode tmpFile).info w) = some r)

include hw hc hu hi ht hm h

/-- open() without O_TRUNC and O_CREAT: the hash of what is there (D). -/
theorem opened_keeping (hcr : flags.creat = false) : PinsContent c r content := by
  have hd : getFromOpenedForWriting w f flags mode tmpFile =
      openedForWriting { (new w f .dontKnow false false).setInitialType .isReg with hashComputer := true } := by
    simp [getFromOpenedForWriting, ht, hcr]
  rw [hd] at hm h
  exact hi.join_hashed hc hu (World.Shows.truthful hw hc rfl rfl (.inl rfl) rfl) rfl rfl rfl hm h

/-- open() with O_CREAT, without O_TRUNC: the size, and the hash of a file that is not empty (E). -/
theorem opened_creating (hr : node.irregular = false) (hcr : flags.creat = true) (hex : flags.excl = false) :
    PinsContent c r content := by
  simp only [getFromOpenedForWriting, ht, hcr, hex] at hm h
  cases hst : w.stat f with
  | error e =>
    simp only [hst] at hm
    exact (unmerged rfl hu hm).elim
  | ok ms =>
    obtain ⟨stMode, size⟩ := ms
    obtain rfl : size = content.length := (hw.size _ _ _ hst hc).resolve_left (by simp [hr])
    simp only [hst] at hm h
    -- what the update says if the file existed: its mode is not the one it would be created with
    have hexisted : ∀ d : FileUsageUpdate, d.filename = f → d.typeComputer = false → d.initialState.type = .isReg →
        d.initialState.size = some content.length → d.initialState.hash = none → Truthful c (d.info w) node := by
      intro d hf ht htype hs hh
      subst hf
      exact hw.truthful hc ht htype (.inr hs) hh
    by_cases hsize : content.length > 0
    · simp only [hsize] at hm h
      by_cases hmode : stMode = mode
      · simp only [fromCreatedMode, hmode, ne_eq] at hm h
        exact hi.join_hashed hc hu (hexisted _ rfl rfl rfl rfl rfl) rfl rfl rfl hm h
      · simp only [fromCreatedMode, hmode, ne_eq] at hm h
        exact hi.join_hashed hc hu (hexisted _ rfl rfl rfl rfl rfl) rfl rfl rfl hm h
    · obtain rfl : content = [] := List.length_eq_zero_iff.mp (Nat.eq_zero_of_not_pos hsize)
      by_cases hmode : stMode = mode
      · simp only [fromCreatedMode, hmode, ne_eq] at h
        exact hi.join_empty hc rfl rfl h
      simp only [fromCreatedMode, hmode, ne_eq] at h
      obtain ⟨htype, hs, _⟩ := join_isReg hi.certain rfl h
      refine .inr (.inr ⟨.inl htype, ?_, rfl⟩)
      obtain ⟨content, hc', hp, _⟩ := (hi.join (hexisted _ rfl rfl rfl rfl rfl) h).isReg htype
      cases hc.symm.trans hc'
      refine hp.resolve_left fun hnone => ?_
      rw [hnone] at hs
      cases hown : u.initialState.size <;> rw [hown] at hs <;> cases hs

end

/-- An update that could not find out what happened is not merged; the others say that the
    file is written. -/
theorem opened_written (w : World) (f : FileName) (flags : OpenFlags) (mode : Mode) (tmpFile : Bool) :
    (getFromOpenedForWriting w f flags mode tmpFile).unknownErr.isSome = true ∨
      (getFromOpenedForWriting w f flags mode tmpFile).written = true := by
  unfold getFromOpenedForWriting
  split
  · exact .inr rfl
  split
  · split
    · exact .inr rfl
    split
    · exact .inl rfl
    split
    · exact .inl rfl
    · exact .inr rfl
  · split
    · exact .inr rfl
    split
    · exact .inl rfl
    · exact .inr rfl

/-- The type and hash of a file that was opened for reading. -/
theorem openRdonly_truthful (hw : w.Shows c f node) (hu : u.written = false)
    (h : FileUsage.merge w u (getFromOpenParams w f {} 0 none false) p = some u') :
    Truthful c ((getFromOpenParams w f {} 0 none false).info w) node := by
  obtain ⟨_, _, _, hty, _⟩ := FileUsage.merge_typed hu h
  cases hg : w.getHash f 0 with
  | error e => simp [getFromOpenParams, getInitialType, typeComputerOpenRdonly, new, hg] at hty
  | ok r =>
    cases r with
    | dir hash =>
      simp only [getFromOpenParams, info, typeComputerOpenRdonly, new, hg, Bool.false_eq_true, if_false]
      exact ⟨by simp, by simp, by simp, by simp⟩
    | reg size hash =>
      obtain ⟨content, hc, rfl, rfl⟩ := hw.hashReg _ _ _ hg
      simp only [getFromOpenParams, info, typeComputerOpenRdonly, new, hg, Bool.false_eq_true, if_false]
      exact ⟨by simp, by simp, fun _ => ⟨content, hc, .inr rfl, .inr rfl⟩, by simp⟩

end FileUsageUpdate

/-! ## What the operations say -/

variable {op : FileOp} {fu fu' : Option FileUsage} {reason : Option String} {time inode : Nat} {name : FileName}
  {next : Reaction}

theorem takes_ignore (h : Takes w f .ignore fu fu') : fu' = fu := by
  cases h
  rfl

theorem takes_elsewhere
    (hne : name ≠ f) (h : Takes w f (.register name d reason next) fu fu') : Takes w f next fu fu' := by
  cases h with
  | here _ _ => exact absurd rfl hne
  | elsewhere _ hnext => exact hnext

theorem takes_here (h : Takes w f (.register f d reason next) fu fu') :
    ∃ fu1, Relation.TransGen (TakesIn w d) fu fu1 ∧ Takes w f next fu1 fu' := by
  cases h with
  | here ht hnext => exact ⟨_, ht, hnext⟩
  | elsewhere hne _ => exact absurd rfl hne

theorem takes_registers
    (h : Takes w f (.register f d reason .ignore) fu fu') : Relation.TransGen (TakesIn w d) fu fu' := by
  obtain ⟨fu1, ht, hnext⟩ := takes_here h
  exact takes_ignore hnext ▸ ht

/-- A directory or a special file stays what it is until it is removed. -/
theorem FileOp.after_irregular (h : op.after time inode node = some node')
    (hi : node.irregular = true) : node'.irregular = true ∨ op.replaces = true := by
  cases op with
  | unlink | rmdir | moveAway _ | moveOver _ _ _ => exact .inr rfl
  | mkdir _ _ _ | truncate _ => cases node <;> cases hi <;> cases h
  | write _ | chmod _ | touch _ => cases node <;> cases hi <;> cases h <;> exact .inl rfl
  | look d =>
    cases h
    exact .inl hi
  | «open» flags mode oTmpfile tmpFile =>
    left
    simp only [FileOp.after] at h
    cases node with
    | missing | reg _ _ _ _ => cases hi
    | dir _ _ _ _ | special _ =>
      dsimp only at h
      repeat' split at h
      all_goals cases h
      all_goals rfl

section

variable (h : (FileOp.open flags mode false tmpFile).after time inode node = some node')
include h

/-- open() without O_TRUNC finds the content it keeps, or creates an empty file. -/
theorem FileOp.after_open (ht : flags.trunc = false) : node'.content = node.content := by
  simp only [FileOp.after, ht, Bool.false_and, Bool.false_eq_true, if_false] at h
  cases node with
  | missing | reg _ _ _ _ | dir _ _ _ _ | special _ =>
    dsimp only at h
    split at h <;> cases h
    rfl

/-- Only a missing file can be created with O_EXCL. -/
theorem FileOp.after_open_excl (hw : flags.write = true)
    (hx : (flags.creat && flags.excl) = true) : node.content = some [] := by
  obtain ⟨hc, he⟩ := Bool.and_eq_true_iff.mp hx
  simp only [FileOp.after, hw, hc, he, Bool.not_true, Bool.and_false] at h
  cases node with
  | missing => rfl
  | reg _ _ _ _ | dir _ _ _ _ | special _ => cases h

end

theorem FileOp.after_truncate (h : (FileOp.truncate length).after time inode node = some node')
    (hl : node.content.map List.length = some length) : node'.content = node.content := by
  cases node with
  | missing | dir _ _ _ _ | special _ => cases h
  | reg content mode mtime inode =>
    cases h
    obtain rfl : content.length = length := Option.some.inj hl
    simp [FsNode.content]

structure Track.Inv (c : Codec) (t : Track) : Prop where
  known : Known c t t.known
  opened : t.opened = true → t.known.written = true

section

variable (h : FileStep c f w op t t')
include h

/-- The part of `Explains` that holds for every operation. -/
theorem FileStep.gone (hg : t.now.irregular = true ∨ t.replaced = true) :
    t'.now.irregular = true ∨ t'.replaced = true := by
  rw [h.replaced']
  obtain ⟨time, inode, hafter⟩ := h.after
  rcases hg with hg | hg
  · rcases FileOp.after_irregular hafter hg with hg | hg
    · exact .inl hg
    · exact .inr (by rw [hg, Bool.or_true])
  · exact .inr (by rw [hg, Bool.true_or])

/-- An update that writes when nothing is left of the old content, or nothing regular is there. -/
theorem FileStep.explains_gone (hd : d.written = true)
    (hg : t'.now.irregular = true ∨ t'.replaced = true) : Explains c w d t t' := by
  refine ⟨h.before', h.gone, fun hn => ?_, fun _ _ _ _ _ _ r _ => ?_⟩
  · rw [hd] at hn
    cases hn
  · exact hg.imp_right .inl

omit h in
/-- The update is merged, and the file is opened for writing only by an update that says so. -/
theorem Explains.inv (he : Explains c w d t t') (hi : t.Inv c) (h : Relation.TransGen (TakesIn w d) t.usage t'.usage)
    (ho : t'.opened = true → t.opened = true ∨ d.unknownErr.isSome = true ∨ d.written = true) : t'.Inv c := by
  obtain ⟨u, hu, hw, hk⟩ := he.known hi.known h
  have hknown : t'.known = u := by rw [Track.known, hu]; rfl
  refine ⟨hknown ▸ hk, fun hopen => ?_⟩
  rw [hknown, hw]
  cases hwritten : t.known.written with
  | true => rfl
  | false =>
    rcases ho hopen with ho | ho | ho
    · rw [hi.opened ho] at hwritten
      cases hwritten
    · obtain ⟨_, ⟨propagated, u1, hm, rfl⟩, _⟩ := Relation.TransGen.head'_iff.mp h
      exact (FileUsageUpdate.unmerged ho hwritten (mergeAt_ok hm).1).elim
    · rw [ho, Bool.false_or]

/-- An update that writes, whatever it says, when the content is settled before. -/
theorem FileStep.explains_settled (hd : d.written = true) (hs : t.settled = true) : Explains c w d t t' := by
  refine ⟨h.before', h.gone, fun hn => ?_, fun _ hw hk _ _ _ r hj => ?_⟩
  · rw [hd] at hn
    cases hn
  have hs : ((t.now.irregular = true ∨ t.replaced = true) ∨ t.known.written = true) ∨
      t.known.initialState.fixesContent = true := by
    simpa [Track.settled] using hs
  rcases hs with (hs | hs) | hs
  · exact (h.gone hs).imp_right .inl
  · rw [hw] at hs
    cases hs
  · obtain ⟨content, hc, hp⟩ := (hk.unwritten hw).2.pinsContent hs
    exact .inr (.inr ⟨content, h.before' ▸ hc, hp.join hj⟩)

/-- The content is kept, and taken into the record. -/
theorem FileStep.accounted_kept (hw : t.known.written = false) (hk : Known c t t.known)
    (hc : t'.now.content = t.now.content)
    (hpins : ∀ content, t'.now.irregular = false → t'.now.content = some content →
      Truthful c t.known.initialState t'.now → PinsContent c r content) : Accounted c t' r := by
  obtain ⟨hsame, htrue⟩ := hk.unwritten hw
  cases hirr : t'.now.irregular with
  | true => exact .inl hirr
  | false =>
    obtain ⟨content, hcontent⟩ := FsNode.content_of_regular hirr
    refine .inr (.inr ⟨content, ?_, hpins content hirr hcontent (htrue.congr (hc.trans hsame))⟩)
    rw [h.before', ← hsame, ← hc, hcontent]

omit h in
/-- The content that an open() for writing without O_TRUNC leaves is taken into the record. -/
theorem FileStep.explains_open
    (h : FileStep c f w (.open flags mode false tmpFile) t t') (hwrite : flags.write = true) :
    Explains c w (.getFromOpenedForWriting w f flags mode tmpFile) t t' := by
  obtain ⟨time, inode, hafter⟩ := h.after
  refine ⟨h.before', h.gone, fun hn u u' p hu hm => ?_, fun _ hw hk u' p hm r hj => ?_⟩
  · rcases FileUsageUpdate.opened_written w f flags mode tmpFile with he | he
    · exact (FileUsageUpdate.unmerged he hu hm).elim
    · rw [hn] at he
      cases he
  · cases hx : flags.creat && flags.excl with
    | true =>
      -- C, F
      obtain ⟨hsame, htrue⟩ := hk.unwritten hw
      have hempty : t'.before.content = some [] := by
        rw [h.before', ← hsame, FileOp.after_open_excl hafter hwrite hx]
      simp only [getFromOpenedForWriting, hx] at hj
      exact .inr (.inr ⟨[], hempty, .inl ⟨join_notExist htrue.certain rfl hj, rfl⟩⟩)
    | false =>
      cases ht : flags.trunc with
      | true =>
        -- A, B
        exact .inr (.inl (by rw [h.replaced']; simp [FileOp.replaces, ht]))
      | false =>
        refine h.accounted_kept hw hk (FileOp.after_open hafter ht) fun content hirr hc htrue => ?_
        cases hcr : flags.creat with
        | false => exact FileUsageUpdate.opened_keeping h.shows hc hw htrue ht hm hj hcr
        | true =>
          have hex : flags.excl = false := by simpa [hcr] using hx
          exact FileUsageUpdate.opened_creating h.shows hc hw htrue ht hm hj hirr hcr hex

omit h in
/-- A change through an fd: the usage stays, which says that the file is written. -/
theorem FileStep.inv_write (h : FileStep c f w (.write content) t t') (hi : t.Inv c) : t'.Inv c := by
  have hu : t'.usage = t.usage := takes_ignore h.takes
  have hknown : t'.known = t.known := by rw [Track.known, hu, Track.known]
  have hw : t.known.written = true := hi.opened (h.opened ⟨_, rfl⟩)
  refine ⟨⟨fun hn => ?_, fun _ => ?_⟩, fun _ => by rw [hknown, hw]⟩
  · rw [hknown, hw] at hn
    cases hn
  rw [hknown]
  rcases hi.known.written hw with ha | ha | ⟨content, hc, hp⟩
  · exact (h.gone (.inl ha)).imp_right .inl
  · exact (h.gone (.inr ha)).imp_right .inl
  · exact .inr (.inr ⟨content, h.before' ▸ hc, hp⟩)

/-- A call that does not write, with an update that is true of the file. -/
theorem FileStep.explains_look (hd : d.written = false) (hc : t'.now.content = t.now.content)
    (ht : ∀ u u' p, u.written = false → FileUsage.merge w u d p = some u' → Truthful c (d.info w) t.now) :
    Explains c w d t t' := by
  refine ⟨h.before', h.gone, fun _ u u' p hu hm => ⟨hc, ht u u' p hu hm⟩, fun hn => ?_⟩
  rw [hd] at hn
  cases hn

theorem FileStep.inv (hok : OpOk c w op t) (hi : t.Inv c) : t'.Inv c := by
  have htakes := h.takes
  obtain ⟨time, inode, hafter⟩ := h.after
  have hopened : ∀ {P : Prop}, op.opens = false → t'.opened = true → t.opened = true ∨ P := by
    intro _ ho hopen
    rw [h.opened', ho, Bool.or_false] at hopen
    exact .inl hopen
  have hreplaced : op.replaces = true → t'.replaced = true := by
    intro hr
    rw [h.replaced', hr, Bool.or_true]
  cases op with
  | write content => exact h.inv_write hi
  | «open» flags mode oTmpfile tmpFile =>
    have htakes := takes_registers htakes
    cases oTmpfile with
    | true =>
      -- the directory is not changed
      have hdir : t'.now.irregular = true := by
        simp only [FileOp.after, if_true] at hafter
        split at hafter
        · rename_i hc
          rw [← Option.some.inj hafter]
          exact FsNode.irregular_of_dir hc
        · cases hafter
      refine (h.explains_gone ?_ (.inl hdir)).inv hi htakes (hopened (by simp [FileOp.opens]))
      rfl
    | false =>
      simp only [Bool.not_false, Bool.true_and, Bool.false_eq_true, if_false] at htakes
      cases hw : flags.write with
      | true =>
        have hd : getFromOpenParams w f flags mode none tmpFile = .getFromOpenedForWriting w f flags mode tmpFile := by
          simp [getFromOpenParams, hw]
        rw [hd] at htakes
        exact (h.explains_open hw).inv hi htakes fun _ => .inr (FileUsageUpdate.opened_written w f flags mode tmpFile)
      | false =>
        have hd : getFromOpenParams w f flags mode none tmpFile = .getFromOpenParams w f {} 0 none false := by
          simp [getFromOpenParams, hw]
        have ht : flags.trunc = false := by
          cases ht : flags.trunc with
          | false => rfl
          | true => simp [FileOp.after, ht, hw] at hafter
        have hc := FileOp.after_open hafter ht
        rw [hd] at htakes
        refine (h.explains_look rfl hc fun u u' p hu hm => ?_).inv hi htakes (hopened (by simp [FileOp.opens, hw]))
        exact (FileUsageUpdate.openRdonly_truthful h.shows hu hm).congr hc.symm
  | truncate length =>
    have htakes : Relation.TransGen (TakesIn w (.getFromOpenedForWriting w f { write := true, trunc := length = 0 } 0
        false)) t.usage t'.usage := takes_registers htakes
    have hwritten : (getFromOpenedForWriting w f { write := true, trunc := length = 0 } 0 false).written = true := by
      by_cases hl : length = 0 <;> simp [getFromOpenedForWriting, hl, FileUsageUpdate.openedForWriting]
    refine Explains.inv ?_ hi htakes (hopened rfl)
    by_cases hl : length = 0
    · exact h.explains_gone hwritten (.inr (hreplaced (by simp [FileOp.replaces, hl])))
    rcases hok.resolve_left hl with hsame | hsettled
    · refine ⟨h.before', h.gone, fun hn => ?_, fun _ hw hk u' p hm r hj => ?_⟩
      · rw [hwritten] at hn
        cases hn
      · refine h.accounted_kept hw hk (FileOp.after_truncate hafter hsame) fun content hirr hc htrue => ?_
        exact FileUsageUpdate.opened_keeping h.shows hc hw htrue (by simp [hl]) hm hj rfl
    · exact h.explains_settled hwritten hsettled
  | chmod mode =>
    have htrue : Truthful c ((FileUsageUpdate.new w f .exist false true).info w) t.now :=
      ⟨FileType.noConfusion, FileType.noConfusion, FileType.noConfusion, fun _ => ⟨rfl, rfl⟩⟩
    refine (h.explains_look rfl ?_ fun _ _ _ _ _ => htrue).inv hi (takes_registers htakes) (hopened rfl)
    cases hn : t.now <;> rw [hn] at hafter <;> first | cases hafter | (rw [← Option.some.inj hafter]; rfl)
  | touch source =>
    exact (h.explains_settled rfl hok).inv hi (takes_registers htakes) (hopened rfl)
  | unlink | rmdir =>
    exact (h.explains_gone rfl (.inr (hreplaced rfl))).inv hi (takes_registers htakes) (hopened rfl)
  | mkdir listing mode tmpDir =>
    have hdir : t'.now.irregular = true := by
      cases hn : t.now <;> rw [hn] at hafter <;> first | cases hafter | (rw [← Option.some.inj hafter]; rfl)
    exact (h.explains_gone rfl (.inl hdir)).inv hi (takes_registers htakes) (hopened rfl)
  | moveAway newName =>
    obtain ⟨fu, htakes, hnext⟩ := takes_here htakes
    have hu : t'.usage = fu := takes_ignore (takes_elsewhere (fun hf => h.other (congrArg some hf)) hnext)
    exact (h.explains_gone rfl (.inr (hreplaced rfl))).inv hi (hu ▸ htakes) (hopened rfl)
  | moveOver oldName content mode =>
    have htakes := takes_elsewhere (fun hf => h.other (congrArg some hf)) htakes
    exact (h.explains_gone rfl (.inr (hreplaced rfl))).inv hi (takes_registers htakes) (hopened rfl)
  | look d =>
    refine (h.explains_look hok.1 ?_ fun _ _ _ _ _ => hok.2).inv hi (takes_registers htakes) (hopened rfl)
    rw [← Option.some.inj hafter]

end

theorem Tracked.inv (h : Tracked c f (OpOk c) t) : t.Inv c := by
  induction h with
  | start node =>
    refine ⟨⟨fun _ => ⟨rfl, ?_⟩, nofun⟩, nofun⟩
    exact ⟨FileType.noConfusion, FileType.noConfusion, FileType.noConfusion, fun _ => ⟨rfl, rfl⟩⟩
  | step w op _ hok hstep ih => exact hstep.inv hok ih

/-! ## The supervisor takes these steps -/

/-- No update of the reaction for another path implies something about `f`, and one that is
    registered without a reason to disable is the last. -/
def Reaction.Apart (f : FileName) : Reaction → Prop
  | .register name d reason next =>
    (name ≠ f → ¬Implied name d f) ∧ (reason = none → next = .ignore) ∧ next.Apart f
  | .ignore | .disable _ | .abort => True

theorem FileOp.apart (w : World) (f : FileName) (op : FileOp) : (op.handling w f).reaction.Apart f := by
  have hself : ∀ (d : FileUsageUpdate) (reason : Option String), (Reaction.register f d reason .ignore).Apart f :=
    fun d reason => ⟨fun h => absurd rfl h, fun _ => rfl, trivial⟩
  have hother : ∀ (name : FileName) (d : FileUsageUpdate) (reason : String) (next : Reaction),
      d.parentType = .dontKnow → next.Apart f → (Reaction.register name d (some reason) next).Apart f :=
    fun name d reason next hp hn => ⟨fun _ hi => hi.1 hp, nofun, hn⟩
  cases op with
  | write content => trivial
  | moveAway newName | moveOver oldName content mode => exact hother _ _ _ _ rfl (hother _ _ _ _ rfl trivial)
  | «open» _ _ _ _ | truncate _ | chmod _ | touch _ | unlink | rmdir | mkdir _ _ _ | look _ => exact hself _ _

section Supervisor

variable {cfg : Config} {s s' : Supervisor} {q : Nat} {reaction : Reaction} {b : Bool}

/-- One registration of a process that is shortcutable afterwards. -/
theorem register_takes (hi : s.ignores cfg q f = false) (hcan : s.tree.can q = true)
    (hcan' : s'.tree.can q = true) (h : registerFileUsageUpdate true cfg w s q name d = some (b, s')) :
    (name = f → Relation.TransGen (TakesIn w d) (s.fileUsages q f) (s'.fileUsages q f)) ∧
      (name ≠ f → ¬Implied name d f → s'.fileUsages q f = s.fileUsages q f) := by
  refine ⟨fun hname => ?_, fun hname himp => ?_⟩
  · subst hname
    obtain ⟨⟨u, hm, hl⟩, _⟩ := registerFileUsageUpdate_here hi hcan h hcan'
    refine .head' ⟨false, u, hm, rfl⟩ (Relation.ReflTransGen.mono (fun _ _ ⟨d', hd', ht⟩ => ?_) _ _ hl)
    rwa [updateFor_name hd'] at ht
  · exact (registerFileUsageUpdate_learned h).usage_eq (fun d' hd' => himp (updateFor_dir (Ne.symm hname) hd').1) q

/-- A reaction only lowers flags, and a registration that failed has no reaction after it. -/
theorem react_rest
    (hr : registerFileUsageUpdate true cfg w s q name d = some (b, s1)) (hcan' : s'.tree.can q = true)
    (h : react true cfg w q (.register name d reason next) s = some s') :
    react true cfg w q next s1 = some s' ∨ reason = none ∧ s' = s1 := by
  rw [react, hr] at h
  cases b with
  | true => exact .inl h
  | false =>
    cases reason with
    | none =>
      cases h
      exact .inr ⟨rfl, rfl⟩
    | some reason =>
      obtain ⟨tree, ht, h⟩ := Option.map_eq_some_iff.mp h
      cases h
      rw [ExecTree.bubbleUp_this ht] at hcan'
      cases hcan'

theorem react_can (h : react true cfg w q reaction s = some s') (hcan' : s'.tree.can q = true) :
    s.tree.can q = true := by
  induction reaction generalizing s with
  | ignore =>
    cases h
    exact hcan'
  | disable reason =>
    obtain ⟨tree, ht, h⟩ := Option.map_eq_some_iff.mp h
    cases h
    rw [ExecTree.bubbleUp_this ht] at hcan'
    cases hcan'
  | abort => cases h
  | register name d reason next ih =>
    cases hr : registerFileUsageUpdate true cfg w s q name d with
    | none => rw [react, hr] at h; cases h
    | some r =>
      obtain ⟨b, s1⟩ := r
      have hcan1 : s1.tree.can q = true := by
        rcases react_rest hr hcan' h with h | ⟨_, rfl⟩
        · exact ih h
        · exact hcan'
      by_contra hoff
      rw [(registerFileUsageUpdate_learned hr).can q (by simpa using hoff)] at hcan1
      cases hcan1

/-- What a reaction does to the usage of a process that stays shortcutable. -/
theorem react_takes (hi : s.ignores cfg q f = false) (hcan' : s'.tree.can q = true) (ha : reaction.Apart f)
    (h : react true cfg w q reaction s = some s') : Takes w f reaction (s.fileUsages q f) (s'.fileUsages q f) := by
  induction reaction generalizing s with
  | ignore =>
    cases h
    exact .ignore _
  | disable reason =>
    obtain ⟨tree, ht, h⟩ := Option.map_eq_some_iff.mp h
    cases h
    rw [ExecTree.bubbleUp_this ht] at hcan'
    cases hcan'
  | abort => cases h
  | register name d reason next ih =>
    obtain ⟨hapart, hlast, hnext⟩ := ha
    have hcan := react_can h hcan'
    cases hr : registerFileUsageUpdate true cfg w s q name d with
    | none => rw [react, hr] at h; cases h
    | some r =>
      obtain ⟨b, s1⟩ := r
      have hi1 : s1.ignores cfg q f = false := by
        rw [Supervisor.ignores, (registerFileUsageUpdate_learned hr).jobserverFifo]
        exact hi
      have hrest : Takes w f next (s1.fileUsages q f) (s'.fileUsages q f) ∧ s1.tree.can q = true := by
        rcases react_rest hr hcan' h with h | ⟨hreason, rfl⟩
        · exact ⟨ih hi1 hnext h, react_can h hcan'⟩
        · rw [hlast hreason]
          exact ⟨.ignore _, hcan'⟩
      obtain ⟨hhere, helse⟩ := register_takes hi hcan hrest.2 hr
      by_cases hname : name = f
      · subst hname
        exact .here (hhere rfl) hrest.1
      · exact .elsewhere hname (helse hname (hapart hname) ▸ hrest.1)

end Supervisor

end Firebuild
