/-
  Firebuild.Canonical — the entry that is stored does not depend on the order of the file
  usages (`execed_process_cacher.cc`: `store`).

  The usages of a process are in a hash map that is keyed by pointers, so the order in which
  `store()` goes through them differs from run to run, as do the addresses of the strings.
  What a usage adds to the entry depends on nothing that was stored before for another one
  (`outputOf`, `inputOf`), and the lists are sorted by path. The list of the removed paths is
  sorted, too, but by the addresses.

  Proved: `stored_entries_are_canonical`; `removed_paths_are_in_memory_order`.
-/

import Firebuild.Store

namespace Firebuild

open Option (getD_some isSome_some map_eq_none_iff map_eq_some_iff map_some)
open List

/-! ## Sorting by a key -/

section Sorting

variable {α β : Type} {l l' : List α}

variable {r : α → α → Prop}

/-- Sorting forgets the order of elements with different keys. -/
theorem insertionSort_eq_of_perm [DecidableRel r] [Std.Total r] [IsTrans α r] (key : α → String)
    (hr : ∀ a b, r a b → key a ≤ key b) (hnd : (l.map key).Nodup) (h : l.Perm l') :
    l.insertionSort r = l'.insertionSort r := by
  have hperm : (l.insertionSort r).Perm (l'.insertionSort r) :=
    ((perm_insertionSort r l).trans h).trans (perm_insertionSort r l').symm
  refine hperm.eq_of_pairwise ?_ (pairwise_insertionSort r l) (pairwise_insertionSort r l')
  intro a b ha hb hab hba
  have ha : a ∈ l := (perm_insertionSort r l).mem_iff.mp ha
  have hb : b ∈ l := h.mem_iff.mpr ((perm_insertionSort r l').mem_iff.mp hb)
  exact inj_on_of_nodup_map hnd ha hb (String.le_antisymm (hr a b hab) (hr b a hba))

theorem insertionSort_eq_of_short (s : α → α → Prop) [DecidableRel r] [DecidableRel s] (hl : l.length ≤ 1)
    (h : l.Perm l') : l.insertionSort r = l'.insertionSort s := by
  match l, hl with
  | [], _ =>
    rw [h.nil_eq.symm]
    rfl
  | [a], _ =>
    rw [← singleton_perm.mp h]
    rfl

/-- What each element adds has its key, and is at most one. -/
theorem flatMap_keys_sublist {key : β → String}
    (h : ∀ a ∈ l, ((g a).map key).Sublist [key' a]) : ((l.flatMap g).map key).Sublist (l.map key') := by
  induction l with
  | nil => exact List.Sublist.refl _
  | cons a l ih =>
    obtain ⟨ha, hl⟩ := forall_mem_cons.mp h
    rw [flatMap_cons, map_append]
    exact ha.append (ih hl)

end Sorting

instance : Std.Total SerializedFile.le where
  total a b := String.le_total a.path.str b.path.str

instance : IsTrans SerializedFile SerializedFile.le where
  trans _ _ _ hab hbc := String.le_trans hab hbc

instance : Std.Total FileName.le where
  total a b := String.le_total a.str b.str

instance : IsTrans FileName FileName.le where
  trans _ _ _ hab hbc := String.le_trans hab hbc

variable {env : StoreEnv} {p : StoredProcess} {cs : Caches} {x : FileName × FileUsage}
  {us us' : List (FileName × FileUsage)}

/-- One `FileName` for each string. -/
def DistinctNames (us : List (FileName × FileUsage)) : Prop := (us.map (·.1.str)).Nodup

theorem DistinctNames.perm (h : DistinctNames us) (hp : us.Perm us') : DistinctNames us' :=
  (hp.map _).nodup_iff.mp h

theorem DistinctNames.names (h : DistinctNames us) : (us.map Prod.fst).Nodup := by
  refine List.Nodup.of_map FileName.str ?_
  rw [map_map]
  exact h

/-! ## Inputs -/

theorem storeInput_keys (env : StoreEnv) (p : StoredProcess) (x : FileName × FileUsage) :
    ((inputOf env p x).path.map (·.path.str)).Sublist [x.1.str] ∧
      ((inputOf env p x).pathNotexist.map (·.str)).Sublist [x.1.str] := by
  unfold inputOf storeInput
  split
  · rename_i i h
    split at h
    · cases h
    cases ht : x.2.initialState.type <;> rw [ht] at h <;> simp only at h
    all_goals first
      | (cases h; exact ⟨by simp [addFile], by simp⟩)
      | (split at h
         · cases h
         · cases h; exact ⟨by simp [addFile], by simp⟩)
  · exact ⟨by simp, by simp⟩

/-- Another run of the process: the usages in another order, the strings somewhere else. -/
def StoreEnv.relocated (env : StoreEnv) (address : FileName → Nat) : StoreEnv := { env with address }

def StoredProcess.reordered (p : StoredProcess) (us : List (FileName × FileUsage)) : StoredProcess :=
  { p with fileUsages := us }

theorem storeInputs_reordered (address : FileName → Nat) (hnames : DistinctNames p.fileUsages)
    (hp : p.fileUsages.Perm us) (h : storeInputs env p = .ok i) :
    storeInputs (env.relocated address) (p.reordered us) = .ok i := by
  -- one pass
  have hpass : ∀ system acc, storeInputsPass env p system p.fileUsages {} = .ok acc →
      ∃ acc', storeInputsPass (env.relocated address) (p.reordered us) system us {} = .ok acc' ∧
        acc.path.insertionSort SerializedFile.le = acc'.path.insertionSort SerializedFile.le ∧
        acc.pathNotexist.insertionSort FileName.le = acc'.pathNotexist.insertionSort FileName.le := by
    intro system acc hacc
    obtain ⟨hok, rfl⟩ := storeInputsPass_iff.mp hacc
    have hfilter := hp.filter (env.isInReadOnlyLocation ·.1 = system)
    have hsub : ∀ {β : Type} (g : FileName × FileUsage → List β) (key : β → String),
        (∀ x, ((g x).map key).Sublist [x.1.str]) →
        (((p.fileUsages.filter (env.isInReadOnlyLocation ·.1 = system)).flatMap g).map key).Nodup := by
      intro β g key hg
      exact (hnames.sublist (filter_sublist.map _)).sublist (flatMap_keys_sublist fun x _ => hg x)
    refine ⟨_, storeInputsPass_iff.mpr ⟨fun x hx => hok x (hp.mem_iff.mpr hx), rfl⟩, ?_, ?_⟩
    · exact insertionSort_eq_of_perm (·.path.str) (fun _ _ h => h) (hsub _ _ fun x => (storeInput_keys env p x).1)
        (hfilter.flatMap_right _)
    · exact insertionSort_eq_of_perm (·.str) (fun _ _ h => h) (hsub _ _ fun x => (storeInput_keys env p x).2)
        (hfilter.flatMap_right _)
  unfold storeInputs at h ⊢
  cases h1 : storeInputsPass env p false p.fileUsages {} with
  | error r => simp only [h1] at h; cases h
  | ok nonSystem =>
    cases h2 : storeInputsPass env p true p.fileUsages {} with
    | error r => simp only [h1, h2] at h; cases h
    | ok system =>
      simp only [h1, h2] at h
      cases h
      obtain ⟨nonSystem', h1', hpath1, hmissing1⟩ := hpass false nonSystem h1
      obtain ⟨system', h2', hpath2, hmissing2⟩ := hpass true system h2
      simp only [StoredProcess.reordered] at h1' h2' ⊢
      simp only [h1', h2', hpath1, hpath2, hmissing1, hmissing2]

/-! ## What is stored does not depend on the blobs that are there -/

section Stores

variable {c : Codec} {cfg : CacheConfig} {fail : Option StoreFailure} {content : Bytes}

theorem map_fst_eq {x y : Option (α × β)} (h : x.map Prod.fst = y.map Prod.fst) :
    x = none ∧ y = none ∨ ∃ a b b', x = some (a, b) ∧ y = some (a, b') := by
  cases x with
  | none => exact .inl ⟨rfl, map_eq_none_iff.mp h.symm⟩
  | some x =>
    obtain ⟨⟨_, b'⟩, rfl, rfl⟩ := map_eq_some_iff.mp h.symm
    exact .inr ⟨_, x.2, b', rfl, rfl⟩

theorem storeContent_key (b b' : BlobCache) :
    (storeContent c cfg fail content b).map Prod.fst = (storeContent c cfg fail content b').map Prod.fst := by
  unfold storeContent
  split
  · rfl
  split
  · rfl
  split
  · rfl
  dsimp only
  cases b.blobs (c.hash content) <;> cases b'.blobs (c.hash content) <;> rfl

section Keys

variable (c : Codec) (cfg : CacheConfig) (fail : Option StoreFailure)

theorem storeFile_key (writers maxWriters : Nat) (opened : Bool) (content : Bytes) (skip : Nat) (b b' : BlobCache) :
    (storeFile c cfg fail writers maxWriters opened content skip b).map Prod.fst =
      (storeFile c cfg fail writers maxWriters opened content skip b').map Prod.fst := by
  unfold storeFile
  split
  · rfl
  split
  · rfl
  split
  · rfl
  exact storeContent_key b b'

theorem moveStoreFile_key (content : Bytes) (b b' : BlobCache) :
    (moveStoreFile c cfg fail content b).map Prod.fst = (moveStoreFile c cfg fail content b').map Prod.fst := by
  unfold moveStoreFile
  split
  · rfl
  exact storeContent_key b b'

theorem PipeRecorder.store_key (r : PipeRecorder)
    (b b' : BlobCache) : (r.store c cfg fail b).map Prod.fst = (r.store c cfg fail b').map Prod.fst := by
  unfold PipeRecorder.store
  split
  · rfl
  cases r.data with
  | memory buffer capacity => rfl
  | file content offset =>
    dsimp only
    rcases map_fst_eq (moveStoreFile_key c cfg fail content b b') with ⟨hx, hy⟩ | ⟨_, _, _, hx, hy⟩
    · rw [hx, hy]
    · rw [hx, hy]
      rfl

theorem updateHash_entry (writers : Nat) (content : Bytes) (e : HashCacheEntry) (b b' : BlobCache) :
    (updateHash c cfg fail writers content e b).map (fun r => (r.1, r.2.1)) =
      (updateHash c cfg fail writers content e b').map fun r => (r.1, r.2.1) := by
  unfold updateHash
  dsimp only
  split
  · rfl
  split
  · split
    · rfl
    rcases map_fst_eq (storeFile_key c cfg fail writers 0 true (content.take (e.info.size.getD 0)) 0 b b') with
      ⟨hx, hy⟩ | ⟨_, _, _, hx, hy⟩
    · rw [hx, hy]
    · rw [hx, hy]
      rfl
  split
  · rfl
  split
  · rfl
  · rfl

/-- The entry of the file is what counts. -/
theorem getEntryStoring_congr (readOnly : Bool)
    (writers : Nat) (node : FsNode) (content : Bytes)
    (h : cs.hashes path = cs'.hashes path) :
    (getEntryStoring c cfg fail readOnly writers node content path cs).1 =
        (getEntryStoring c cfg fail readOnly writers node content path cs').1 ∧
      (getEntryStoring c cfg fail readOnly writers node content path cs).2.1 =
        (getEntryStoring c cfg fail readOnly writers node content path cs').2.1 := by
  unfold getEntryStoring
  by_cases hw : writers > 0
  · simp only [if_pos hw, and_self]
  rw [if_neg hw, if_neg hw, ← h]
  have hentry := updateHash_entry c cfg fail writers content
    (updateStatinfo readOnly node ((cs.hashes path).getD {})) cs.blob cs'.blob
  cases hu : updateHash c cfg fail writers content (updateStatinfo readOnly node ((cs.hashes path).getD {})) cs.blob with
  | none =>
    rw [hu] at hentry
    rw [map_eq_none_iff.mp hentry.symm]
    exact ⟨rfl, rfl⟩
  | some r =>
    rw [hu] at hentry
    obtain ⟨r', hr', hfst⟩ := map_eq_some_iff.mp hentry.symm
    obtain ⟨e', stored', blob'⟩ := r'
    cases hfst
    rw [hr']
    dsimp only
    split
    · exact ⟨rfl, rfl⟩
    · exact ⟨rfl, rfl⟩

end Keys

theorem getEntryStoring_frame
    (h : other ≠ path) :
    (getEntryStoring c cfg fail readOnly writers node content path cs).2.2.hashes other = cs.hashes other := by
  unfold getEntryStoring
  split
  · rfl
  split
  · exact Function.update_of_ne h _ _
  split
  · exact Function.update_of_ne h _ _
  · exact Function.update_of_ne h _ _

end Stores

variable {name other : FileName} {cs' : Caches}

theorem newFileInfo_congr (env : StoreEnv) (fu : FileUsage) (h : cs.hashes name = cs'.hashes name) :
    (newFileInfo env name fu cs).2 = (newFileInfo env name fu cs').2 := by
  unfold newFileInfo
  cases env.disk name with
  | missing | special mode | dir hash mode mtime inode => rfl
  | reg content mode mtime inode =>
    simp only
    split
    · rfl
    split
    · rfl
    unfold storeAndGetHash
    obtain ⟨he, hn⟩ := getEntryStoring_congr env.codec env.cfg (env.fileFails name) (env.isInReadOnlyLocation name)
      (env.writersCount name) (.reg content mode mtime inode) content h
    cases env.isInIgnoreLocation name with
    | true => rfl
    | false => simp only [Bool.false_eq_true, if_false, he, hn]

theorem newFileInfo_frame (env : StoreEnv) (fu : FileUsage) (cs : Caches) (h : other ≠ name) :
    (newFileInfo env name fu cs).1.hashes other = cs.hashes other := by
  unfold newFileInfo
  cases env.disk name with
  | missing | special mode | dir hash mode mtime inode => rfl
  | reg content mode mtime inode =>
    simp only
    split
    · rfl
    split
    · rfl
    cases env.isInIgnoreLocation name with
    | true => rfl
    | false => exact getEntryStoring_frame h

/-! ## Outputs -/

/-- What a usage adds to the outputs, with the blob bytes it counts for; none if it is refused.
    Nothing is added for one that is completely unchanged. -/
def outputOf (env : StoreEnv) (cs : Caches) (x : FileName × FileUsage) : Option (ProcessOutputs × Nat) :=
  if x.2.written = false ∧ x.2.modeChanged = false then some ({}, 0)
  else
    match (newFileInfo env x.1 x.2 cs).2 with
    | .error _ => none
    | .ok (info, inlineData, storedBytes) =>
      match addOutput env x.1 x.2 info inlineData {} with
      | .error _ => none
      | .ok o => some (o, storedBytes)

def addedOutputs (env : StoreEnv) (cs : Caches) (x : FileName × FileUsage) : ProcessOutputs :=
  ((outputOf env cs x).map Prod.fst).getD {}

def addedBytes (env : StoreEnv) (cs : Caches) (x : FileName × FileUsage) : Nat :=
  ((outputOf env cs x).map Prod.snd).getD 0

def Changed (x : FileName × FileUsage) : Prop := ¬ (x.2.written = false ∧ x.2.modeChanged = false)

theorem outputOf_unchanged (h : ¬ Changed x) : outputOf env cs x = some ({}, 0) :=
  if_pos (not_not.mp h)

def allOutputs (env : StoreEnv) (cs : Caches) (us : List (FileName × FileUsage)) : ProcessOutputs where
  pathIsreg := us.flatMap fun x => (addedOutputs env cs x).pathIsreg
  pathIsdir := us.flatMap fun x => (addedOutputs env cs x).pathIsdir
  pathNotexist := us.flatMap fun x => (addedOutputs env cs x).pathNotexist

def allBytes (env : StoreEnv) (cs : Caches) (us : List (FileName × FileUsage)) : Nat := (us.map (addedBytes env cs)).sum

/-- The blob bytes are within the limit, where they are compared to it. -/
def Fits (env : StoreEnv) (cs : Caches) (us : List (FileName × FileUsage)) (stored : Nat) : Prop :=
  (∃ x ∈ us, Changed x) → stored + allBytes env cs us ≤ env.cfg.maxEntrySize

variable {cs0 : Caches}

theorem storeOutput_iff (env : StoreEnv) (x : FileName × FileUsage) (acc acc' : OutputAcc)
    (hcs : cs.hashes x.1 = cs0.hashes x.1) :
    (storeOutput env x.1 x.2 cs acc).2 = .ok acc' ↔
      (outputOf env cs0 x).isSome = true ∧
        (Changed x → acc.storedBlobBytes + addedBytes env cs0 x ≤ env.cfg.maxEntrySize) ∧
        acc' = ⟨acc.outputs.append (addedOutputs env cs0 x), acc.storedBlobBytes + addedBytes env cs0 x⟩ := by
  obtain ⟨name, fu⟩ := x
  unfold addedOutputs addedBytes
  by_cases hch : Changed (name, fu)
  · have hsame := newFileInfo_congr env fu hcs
    unfold storeOutput outputOf
    simp only [if_neg hch]
    rw [← hsame]
    generalize newFileInfo env name fu cs = r
    obtain ⟨cs1, res⟩ := r
    cases res with
    | error r => simp
    | ok v =>
      obtain ⟨info, inlineData, storedBytes⟩ := v
      dsimp only
      rw [addOutput_append env name fu info inlineData acc.outputs]
      by_cases hfit : acc.storedBlobBytes + storedBytes > env.cfg.maxEntrySize
      · rw [if_pos hfit]
        cases addOutput env name fu info inlineData {} with
        | error r => simp
        | ok o =>
          simp only [reduceCtorEq, isSome_some, map_some, getD_some, true_and, false_iff, not_and]
          intro hle
          exact absurd (hle hch) (by omega)
      · rw [if_neg hfit]
        cases addOutput env name fu info inlineData {} with
        | error r => simp [Except.map]
        | ok o =>
          simp only [Except.map, Except.ok.injEq, isSome_some, map_some, getD_some, true_and]
          constructor
          · intro h
            exact ⟨fun _ => by omega, h.symm⟩
          · intro h
            exact h.2.symm
  · have hnone : storeOutput env name fu cs acc = (cs, .ok acc) := if_pos (not_not.mp hch)
    rw [hnone, outputOf_unchanged hch]
    simp only [ProcessOutputs.append, Except.ok.injEq, isSome_some, map_some, getD_some,
      append_nil, hch, false_implies, true_and]
    exact eq_comm

variable {acc : OutputAcc}

theorem storeOutput_frame (h : other ≠ name) :
    (storeOutput env name fu cs acc).1.hashes other = cs.hashes other := by
  have hframe := newFileInfo_frame env fu cs h
  unfold storeOutput
  split
  · rfl
  generalize newFileInfo env name fu cs = r at hframe
  obtain ⟨cs1, res⟩ := r
  cases res with
  | error r => exact hframe
  | ok v =>
    dsimp only
    split
    · exact hframe
    split
    · exact hframe
    · exact hframe

variable {n : Nat}

/-- The bytes are compared to the limit after each usage that adds some. -/
theorem fits_cons : Fits env cs (x :: us) n ↔
      (Changed x → n + addedBytes env cs x ≤ env.cfg.maxEntrySize) ∧ Fits env cs us (n + addedBytes env cs x) := by
  have hsum : allBytes env cs (x :: us) = addedBytes env cs x + allBytes env cs us := sum_cons
  constructor
  · intro h
    refine ⟨fun hx => ?_, fun ⟨y, hy, hch⟩ => ?_⟩
    · have := h ⟨x, mem_cons_self, hx⟩
      omega
    · have := h ⟨y, mem_cons_of_mem _ hy, hch⟩
      omega
  · rintro ⟨hx, hus⟩ ⟨y, hy, hch⟩
    by_cases hany : ∃ z ∈ us, Changed z
    · have := hus hany
      omega
    -- the last usage that is compared is the first one
    have hzero : allBytes env cs us = 0 := by
      refine List.sum_eq_zero_iff_forall_eq_nat.mpr fun b hb => ?_
      obtain ⟨z, hz, rfl⟩ := mem_map.mp hb
      unfold addedBytes
      rw [outputOf_unchanged fun hch => hany ⟨z, hz, hch⟩]
      rfl
    rcases mem_cons.mp hy with rfl | hy
    · have := hx hch
      omega
    · exact absurd ⟨y, hy, hch⟩ hany

/-- The whole loop: what it adds is what each usage adds to nothing. -/
theorem storeOutputs_iff (hnames : DistinctNames us)
    (hcs : ∀ x ∈ us, cs.hashes x.1 = cs0.hashes x.1) :
    (storeOutputs env us cs acc).2 = .ok acc' ↔
      (∀ x ∈ us, (outputOf env cs0 x).isSome = true) ∧ Fits env cs0 us acc.storedBlobBytes ∧
        acc' = ⟨acc.outputs.append (allOutputs env cs0 us), acc.storedBlobBytes + allBytes env cs0 us⟩ := by
  induction us generalizing cs acc with
  | nil =>
    simp only [storeOutputs, storeEach, Fits, allOutputs, ProcessOutputs.append, not_mem_nil, false_and,
      exists_false, false_implies, implies_true, true_and, flatMap_nil, append_nil, Except.ok.injEq]
    exact eq_comm
  | cons x us ih =>
    obtain ⟨hx, hus⟩ := nodup_cons.mp hnames
    have hone := fun acc' => storeOutput_iff env x acc acc' (hcs x mem_cons_self)
    have hrest : ∀ y ∈ us, (storeOutput env x.1 x.2 cs acc).1.hashes y.1 = cs0.hashes y.1 := by
      intro y hy
      have hne : y.1 ≠ x.1 := fun h => hx (mem_map.mpr ⟨y, hy, congrArg FileName.str h⟩)
      rw [storeOutput_frame hne, hcs y (mem_cons_of_mem _ hy)]
    simp only [storeOutputs, storeEach]
    generalize storeOutput env x.1 x.2 cs acc = r at hone hrest
    obtain ⟨cs1, res⟩ := r
    cases res with
    | error r =>
      simp only [reduceCtorEq, false_iff, not_and, fits_cons, forall_mem_cons] at hone ⊢
      rintro ⟨hsome, -⟩ ⟨hfit, -⟩
      exact absurd rfl (hone _ hsome hfit)
    | ok acc1 =>
      obtain ⟨hsome, hfit, rfl⟩ := (hone acc1).mp rfl
      have hall : (⟨acc.outputs.append (allOutputs env cs0 (x :: us)),
          acc.storedBlobBytes + allBytes env cs0 (x :: us)⟩ : OutputAcc) =
          ⟨(acc.outputs.append (addedOutputs env cs0 x)).append (allOutputs env cs0 us),
            acc.storedBlobBytes + addedBytes env cs0 x + allBytes env cs0 us⟩ := by
        simp only [ProcessOutputs.append, allOutputs, allBytes, flatMap_cons, append_assoc, map_cons,
          sum_cons, Nat.add_assoc]
      rw [fits_cons, forall_mem_cons, hall]
      refine (ih hus hrest).trans ⟨?_, ?_⟩
      · rintro ⟨hsomes, hfits, h⟩
        exact ⟨⟨hsome, hsomes⟩, ⟨hfit, hfits⟩, h⟩
      · rintro ⟨⟨_, hsomes⟩, ⟨_, hfits⟩, h⟩
        exact ⟨hsomes, hfits, h⟩

def gone (env : StoreEnv) (x : FileName × FileUsage) : Bool :=
  match env.disk x.1 with
  | .missing => true
  | .reg .. => x.2.written && !env.canOpen x.1
  | .dir .. => false
  | .special _ => x.2.written

def removed (env : StoreEnv) (x : FileName × FileUsage) : Bool :=
  (x.2.written || x.2.modeChanged) && gone env x && x.2.initialState.type != .notExist

theorem newType_gone : newType env x.1 x.2 = .notExist ↔ gone env x = true := by
  unfold newType gone
  cases env.disk x.1 with
  | missing => simp
  | special mode | dir hash mode mtime inode => cases x.2.written <;> simp
  | reg content mode mtime inode => cases x.2.written <;> cases env.canOpen x.1 <;> simp

theorem addedOutputs_cases (hsome : (outputOf env cs x).isSome = true) :
    (addedOutputs env cs x).pathNotexist = (if removed env x then [x.1] else []) ∧
      ((addedOutputs env cs x).pathIsreg.map (·.path.str)).Sublist [x.1.str] ∧
      ((addedOutputs env cs x).pathIsdir.map (·.path.str)).Sublist [x.1.str] := by
  by_cases hch : Changed x
  · obtain ⟨⟨o, n⟩, hout⟩ := Option.isSome_iff_exists.mp hsome
    have ho : addedOutputs env cs x = o := by
      unfold addedOutputs
      rw [hout]
      rfl
    rw [ho]
    unfold outputOf at hout
    rw [if_neg hch] at hout
    have hch' : (x.2.written || x.2.modeChanged) = true := by
      unfold Changed at hch
      cases hw : x.2.written <;> cases hm : x.2.modeChanged <;> simp_all
    cases hinfo : (newFileInfo env x.1 x.2 cs).2 with
    | error r => simp only [hinfo] at hout; cases hout
    | ok v =>
      obtain ⟨info, inlineData, storedBytes⟩ := v
      have hgone : info.type = .notExist ↔ gone env x = true := by rw [(newFileInfo_ok hinfo).type, newType_gone]
      cases hadd : addOutput env x.1 x.2 info inlineData {} with
      | error r => simp only [hinfo, hadd] at hout; cases hout
      | ok o' =>
        simp only [hinfo, hadd] at hout
        obtain ⟨rfl, rfl⟩ := hout
        unfold removed
        rw [hch']
        cases addOutput_adds hadd with
        | file data hne =>
          have hnot : gone env x = false := by simpa using fun h => hne (hgone.mpr h)
          simp [hnot, addFile]
        | dir ht =>
          have hnot : gone env x = false := by simpa [ht] using hgone
          simp [hnot, addFile]
        | removed ht hi => simp [hgone.mp ht, hi]
        | nothing hi =>
          cases hg : gone env x with
          | true => simp [hi (hgone.mpr hg)]
          | false => simp
  · have hnone : removed env x = false := by
      unfold removed
      simp [not_not.mp hch]
    unfold addedOutputs
    rw [outputOf_unchanged hch, hnone]
    exact ⟨rfl, by simp, by simp⟩

/-! ## The data written to inherited files -/

/-- The accumulator of another run: the lists of paths may be in another order. -/
def OutputAcc.withPaths (acc : OutputAcc) (o : ProcessOutputs) : OutputAcc :=
  ⟨{ o with appendToFd := acc.outputs.appendToFd }, acc.storedBlobBytes⟩

theorem addAppend_withPaths (cfg : CacheConfig) (acc : OutputAcc) (o : ProcessOutputs) (record : Option AppendToFd)
    (n : Nat) : (acc.withPaths o).addAppend cfg record n = (acc.addAppend cfg record n).map (·.withPaths o) := by
  unfold OutputAcc.addAppend
  by_cases hfit : acc.storedBlobBytes + n > cfg.maxEntrySize
  · rw [if_pos hfit, if_pos (show (acc.withPaths o).storedBlobBytes + n > cfg.maxEntrySize from hfit)]
    rfl
  · rw [if_neg hfit, if_neg (show ¬(acc.withPaths o).storedBlobBytes + n > cfg.maxEntrySize from hfit)]
    rfl

theorem storeAppend_withPaths (env : StoreEnv) (f : InheritedFile) (cs cs' : Caches) (acc : OutputAcc)
    (o : ProcessOutputs) :
    (storeAppend env f cs' (acc.withPaths o)).2 = (storeAppend env f cs acc).2.map (·.withPaths o) := by
  unfold storeAppend
  split
  · rfl
  cases f.kind with
  | other => rfl
  | pipeOut recorder =>
    cases recorder with
    | none => rfl
    | some recorder =>
      dsimp only
      rcases map_fst_eq (recorder.store_key env.codec env.cfg (env.fdFails f.fd) cs.blob cs'.blob) with
        ⟨hx, hy⟩ | ⟨stored, _, _, hx, hy⟩
      · rw [hx, hy]
        rfl
      rw [hx, hy]
      cases stored with
      | empty | inlined data | blob hash n => exact addAppend_withPaths ..
  | file name startOffset =>
    dsimp only
    cases env.disk name with
    | missing | dir | special => rfl
    | reg content mode mtime inode =>
      dsimp only
      split
      · rfl
      split
      · rfl
      rcases map_fst_eq (storeFile_key env.codec env.cfg (env.fdFails f.fd) (env.writersCount name) 1 false content
        startOffset cs.blob cs'.blob) with ⟨hx, hy⟩ | ⟨_, _, _, hx, hy⟩
      · rw [hx, hy]
        rfl
      · rw [hx, hy]
        exact addAppend_withPaths ..

/-- The paths are not looked at, nor is what is in the caches. -/
theorem storeAppends_withPaths (env : StoreEnv) (fs : List InheritedFile) (cs cs' : Caches) (acc : OutputAcc)
    (o : ProcessOutputs) :
    (storeAppends env fs cs' (acc.withPaths o)).2 = (storeAppends env fs cs acc).2.map (·.withPaths o) := by
  unfold storeAppends
  induction fs generalizing cs cs' acc with
  | nil => rfl
  | cons f fs ih =>
    have hstep := storeAppend_withPaths env f cs cs' acc o
    rw [storeEach, storeEach]
    generalize storeAppend env f cs acc = x at hstep
    generalize storeAppend env f cs' (acc.withPaths o) = y at hstep
    obtain ⟨cs1, x⟩ := x
    obtain ⟨cs2, y⟩ := y
    cases x with
    | error r =>
      cases hstep
      rfl
    | ok acc1 =>
      cases hstep
      exact ih cs1 cs2 acc1

/-! ## Parent directories -/

variable {a : FileName}

theorem lookup_eq_some_iff {l : List (FileName × α)} (h : (l.map Prod.fst).Nodup) :
    l.lookup a = some b ↔ (a, b) ∈ l := by
  induction l with
  | nil => simp
  | cons y l ih =>
    obtain ⟨name, v⟩ := y
    obtain ⟨hy, hl⟩ := nodup_cons.mp h
    rw [lookup_cons]
    by_cases hname : a = name
    · subst hname
      have hnot : (a, b) ∉ l := fun hm => hy (mem_map.mpr ⟨(a, b), hm, rfl⟩)
      simp [hnot, eq_comm]
    · have hbeq : (a == name) = false := beq_false_of_ne hname
      simp [hbeq, hname, ih hl]

variable {dirs : List FileName}

theorem parentDirsOk_iff : parentDirsOk dirs us paths = some true ↔
      ∀ path ∈ paths, dirCreatedOrCouldExist dirs us (path.length + 1) path.parentDir = some true := by
  induction paths with
  | nil => simp [parentDirsOk]
  | cons path paths ih =>
    rw [parentDirsOk]
    split
    · rename_i h; simp [h]
    · rename_i h; simp [h]
    · rename_i h; simp [h, ih]

theorem dirCreatedOrCouldExist_congr (hdirs : ∀ d, d ∈ dirs ↔ d ∈ dirs')
    (hus : ∀ d, us.lookup d = us'.lookup d) (n : Nat) (d : Option FileName) :
    dirCreatedOrCouldExist dirs us n d = dirCreatedOrCouldExist dirs' us' n d := by
  have hcontains : ∀ d, dirs.contains d = dirs'.contains d := fun d => by
    rw [Bool.eq_iff_iff, contains_iff_mem, contains_iff_mem, hdirs]
  induction n generalizing d with
  | zero => cases d <;> rfl
  | succ n ih =>
    cases d with
    | none => rfl
    | some d =>
      rw [dirCreatedOrCouldExist, dirCreatedOrCouldExist, hus d, hcontains d, ih]

theorem DistinctNames.lookup (h : DistinctNames us) (hp : us.Perm us') (d : FileName) : us.lookup d = us'.lookup d := by
  refine Option.ext fun fu => ?_
  rw [lookup_eq_some_iff h.names, lookup_eq_some_iff (h.perm hp).names, hp.mem_iff]

variable {o : ProcessOutputs}

theorem consistentImplicitParentDirs_reordered (hnames : DistinctNames p.fileUsages)
    (hp : p.fileUsages.Perm us) (hreg : o.pathIsreg.Perm o'.pathIsreg) (hdir : o.pathIsdir.Perm o'.pathIsdir)
    (h : consistentImplicitParentDirs p o = some true) : consistentImplicitParentDirs (p.reordered us) o' = some true := by
  refine parentDirsOk_iff.mpr fun path hpath => ?_
  have hpath : path ∈ o.pathIsreg.map (·.path) ++ o.pathIsdir.map (·.path) :=
    ((hreg.map _).append (hdir.map _)).mem_iff.mpr hpath
  rw [← parentDirsOk_iff.mp h path hpath]
  exact (dirCreatedOrCouldExist_congr (fun d => (hdir.map _).mem_iff) (hnames.lookup hp) _ _).symm

/-! ## The entry -/

theorem allOutputs_removed (hsome : ∀ x ∈ us, (outputOf env cs x).isSome = true) :
    (allOutputs env cs us).pathNotexist = (us.filter (removed env)).map Prod.fst := by
  unfold allOutputs
  induction us with
  | nil => rfl
  | cons x us ih =>
    obtain ⟨hx, hus⟩ := forall_mem_cons.mp hsome
    have hrest := ih hus
    dsimp only at hrest ⊢
    rw [flatMap_cons, hrest, (addedOutputs_cases hx).1, filter_cons]
    split
    · rfl
    · rfl

theorem Fits.perm (h : Fits env cs us n) (hp : us.Perm us') : Fits env cs us' n := by
  rintro ⟨x, hx, hch⟩
  have hsum : allBytes env cs us' = allBytes env cs us := (hp.map _).sum_nat.symm
  rw [hsum]
  exact h ⟨x, hp.mem_iff.mpr hx, hch⟩

theorem storeOutputs_reordered (hnames : DistinctNames us) (hp : us.Perm us')
    (hcs : cs'.hashes = cs.hashes) (h : (storeOutputs env us cs {}).2 = .ok acc) :
    (∀ x ∈ us, (outputOf env cs x).isSome = true) ∧ acc.outputs = allOutputs env cs us ∧
      (storeOutputs env us' cs' {}).2 = .ok (acc.withPaths (allOutputs env cs us')) := by
  obtain ⟨hsome, hfits, rfl⟩ := (storeOutputs_iff hnames fun _ _ => rfl).mp h
  refine ⟨hsome, rfl, (storeOutputs_iff (hnames.perm hp) fun x _ => by rw [hcs]).mpr ⟨?_, hfits.perm hp, ?_⟩⟩
  · exact fun x hx => hsome x (hp.mem_iff.mpr hx)
  have hsum : allBytes env cs us = allBytes env cs us' := (hp.map _).sum_nat
  rw [hsum]
  rfl

theorem allOutputs_keys (hnames : DistinctNames us) (hsome : ∀ x ∈ us, (outputOf env cs x).isSome = true) :
    ((allOutputs env cs us).pathIsreg.map (·.path.str)).Nodup ∧ ((allOutputs env cs us).pathIsdir.map (·.path.str)).Nodup :=
  ⟨hnames.sublist (flatMap_keys_sublist fun x hx => (addedOutputs_cases (hsome x hx)).2.1),
    hnames.sublist (flatMap_keys_sublist fun x hx => (addedOutputs_cases (hsome x hx)).2.2)⟩

/-- Another run stores, too, and what it stores differs in the order of the removed paths only. -/
theorem storeAllOutputs_reordered (cs' : Caches) (address : FileName → Nat)
    (hnames : DistinctNames p.fileUsages) (hp : p.fileUsages.Perm us) (hcs : cs'.hashes = cs.hashes)
    (h : (storeAllOutputs env p cs).2 = .ok o) :
    o.pathNotexist =
        ((p.fileUsages.filter (removed env)).map Prod.fst).insertionSort (fun a b => env.address a ≤ env.address b) ∧
      (storeAllOutputs (env.relocated address) (p.reordered us) cs').2 =
        .ok { o with pathNotexist :=
          ((us.filter (removed env)).map Prod.fst).insertionSort fun a b => address a ≤ address b } := by
  obtain ⟨acc, acc', houtputs, happends, hdirs, rfl⟩ := storeAllOutputs_iff.mp h
  obtain ⟨hsome, hout, houtputs'⟩ := storeOutputs_reordered hnames hp hcs houtputs
  have happends' : ∀ cs' o, (storeAppends env p.inheritedFiles cs' (acc.withPaths o)).2 = .ok (acc'.withPaths o) := by
    intro cs' o
    rw [storeAppends_withPaths env _ (storeOutputs env p.fileUsages cs {}).1 cs', happends]
    rfl
  -- the appended data leaves the paths alone
  have hpaths : acc' = acc'.withPaths (allOutputs env cs p.fileUsages) := by
    have hsame := happends' (storeOutputs env p.fileUsages cs {}).1 acc.outputs
    rw [show acc.withPaths acc.outputs = acc from rfl, happends, hout] at hsame
    exact Except.ok.inj hsame
  obtain ⟨hkeysReg, hkeysDir⟩ := allOutputs_keys hnames hsome
  have hreg : (allOutputs env cs p.fileUsages).pathIsreg.Perm (allOutputs env cs us).pathIsreg := hp.flatMap_right _
  have hdir : (allOutputs env cs p.fileUsages).pathIsdir.Perm (allOutputs env cs us).pathIsdir := hp.flatMap_right _
  rw [hpaths] at hdirs ⊢
  refine ⟨?_, storeAllOutputs_iff.mpr ⟨_, _, houtputs', happends' _ _, ?_, ?_⟩⟩
  · show (allOutputs env cs p.fileUsages).pathNotexist.insertionSort _ = _
    rw [allOutputs_removed hsome]
  · exact consistentImplicitParentDirs_reordered hnames hp hreg hdir hdirs
  have hsortReg := insertionSort_eq_of_perm (r := SerializedFile.le) (·.path.str) (fun _ _ h => h) hkeysReg hreg
  have hsortDir := insertionSort_eq_of_perm (r := SerializedFile.le) (·.path.str) (fun _ _ h => h) hkeysDir hdir
  simp only [OutputAcc.withPaths, ProcessOutputs.sorted, StoredProcess.reordered, StoreEnv.relocated, hsortReg,
    hsortDir, allOutputs_removed fun x hx => hsome x (hp.mem_iff.mpr hx)]

/-- The strings of different names are in different places. -/
def DistinctAddresses (address : FileName → Nat) (us : List (FileName × FileUsage)) : Prop :=
  (us.map fun x => address x.1).Nodup

variable {address : FileName → Nat}

section

variable (h : DistinctAddresses address us)
include h

theorem DistinctAddresses.inj {m n : FileName}
    (hm : m ∈ us.map Prod.fst) (hn : n ∈ us.map Prod.fst) (hmn : address m = address n) : m = n := by
  have hmap : ((us.map Prod.fst).map address).Nodup := by
    rw [map_map]
    exact h
  exact inj_on_of_nodup_map hmap hm hn hmn

/-- Exchanging two of the strings in memory gives another layout. -/
theorem DistinctAddresses.swap
    (hnames : DistinctNames us) (ha : a ∈ us.map Prod.fst) (hb : b ∈ us.map Prod.fst) :
    DistinctAddresses (fun n => address (Equiv.swap a b n)) us := by
  have hswap : ∀ n ∈ us.map Prod.fst, Equiv.swap a b n ∈ us.map Prod.fst := by
    intro n hn
    rw [Equiv.swap_apply_def]
    split
    · exact hb
    split
    · exact ha
    · exact hn
  have hmap : ((us.map Prod.fst).map fun n => address (Equiv.swap a b n)).Nodup := by
    refine hnames.names.map_on fun m hm n hn hmn => ?_
    exact (Equiv.swap a b).injective (h.inj (hswap m hm) (hswap n hn) hmn)
  rw [map_map] at hmap
  exact hmap

/-- With two removed paths there is a layout that puts them the other way round. -/
theorem DistinctAddresses.other_order {names : List FileName} (hnames : DistinctNames us) (hsub : names.Sublist (us.map Prod.fst))
    (hmany : 1 < names.length) :
    ∃ address', DistinctAddresses address' us ∧
      names.insertionSort (fun a b => address' a ≤ address' b) ≠ names.insertionSort fun a b => address a ≤ address b := by
  have hperm := perm_insertionSort (fun a b => address a ≤ address b) names
  have hsorted := pairwise_insertionSort (fun a b => address a ≤ address b) names
  match hl : names.insertionSort fun a b => address a ≤ address b with
  | [] | [_] =>
    have hlen := hperm.length_eq
    rw [hl] at hlen
    simp at hlen
    omega
  | a :: b :: rest =>
    rw [hl] at hperm hsorted
    have hnodup : (a :: b :: rest).Nodup := hperm.nodup_iff.mpr (hnames.names.sublist hsub)
    have ha : a ∈ us.map Prod.fst := hsub.subset (hperm.mem_iff.mp mem_cons_self)
    have hb : b ∈ us.map Prod.fst := hsub.subset (hperm.mem_iff.mp (mem_cons_of_mem _ mem_cons_self))
    have hne : a ≠ b := fun hab => (nodup_cons.mp hnodup).1 (hab ▸ mem_cons_self)
    refine ⟨_, h.swap hnames ha hb, fun hsame => ?_⟩
    have hsorted' := pairwise_insertionSort (fun m n => address (Equiv.swap a b m) ≤ address (Equiv.swap a b n)) names
    rw [hsame] at hsorted'
    have hle : address a ≤ address b := (pairwise_cons.mp hsorted).1 b mem_cons_self
    have hge := (pairwise_cons.mp hsorted').1 b mem_cons_self
    rw [Equiv.swap_apply_left, Equiv.swap_apply_right] at hge
    exact hne (h.inj ha hb (le_antisymm hle hge))

end

/-- Every run of a process stores the same entry, whatever the order of its usages, the layout
    of the memory and the blobs that are there already, exactly if it removed at most one path. -/
theorem stored_entries_are_canonical {e : ProcessInputsOutputs} (hnames : DistinctNames p.fileUsages)
    (haddresses : DistinctAddresses env.address p.fileUsages) (h : (store env p cs).2 = .ok e) :
    (∀ address us blob, p.fileUsages.Perm us → DistinctAddresses address us →
        (store (env.relocated address) (p.reordered us) { cs with blob }).2 = .ok e) ↔
      (p.fileUsages.filter (removed env)).length ≤ 1 := by
  obtain ⟨hstore, hparent, hinputs, houtputs⟩ := store_iff.mp h
  constructor
  · intro hall
    by_contra hmany
    have hsub := (filter_sublist (p := removed env) (l := p.fileUsages)).map Prod.fst
    obtain ⟨address, hdistinct, hne⟩ := haddresses.other_order hnames hsub (by rw [length_map]; omega)
    obtain ⟨hlist, hother⟩ := storeAllOutputs_reordered cs address hnames (List.Perm.refl _) rfl houtputs
    have hsame := (store_iff.mp (hall address _ cs.blob (List.Perm.refl _) hdistinct)).2.2.2
    rw [hother, Except.ok.injEq] at hsame
    exact hne ((congrArg ProcessOutputs.pathNotexist hsame).trans hlist)
  · intro hfew address us blob hp _
    have hcs : ({ cs with blob } : Caches).hashes = cs.hashes := rfl
    obtain ⟨hlist, hother⟩ := storeAllOutputs_reordered _ address hnames hp hcs houtputs
    refine store_iff.mpr ⟨hstore, hparent, storeInputs_reordered address hnames hp hinputs, ?_⟩
    have hshort : ((p.fileUsages.filter (removed env)).map Prod.fst).length ≤ 1 := by rwa [length_map]
    have hsame := hlist.trans
      (insertionSort_eq_of_short (fun a b => address a ≤ address b) hshort ((hp.filter _).map _))
    rw [hother, ← hsame]

def removing (files : List String) : StoredProcess where
  fileUsages := files.map (fun f => (["d", f], { initialState := { type := .isReg, hash := some 1 }, written := true })) ++
    [(["d"], { initialState := { type := .isDir } })]

/-- The names are in memory in this order. -/
def storedWith (names : List FileName) : StoreEnv where
  codec := magicCodec
  cfg := { compressCache := false, maxInlineBlobSize := 0, maxEntrySize := 1000 }
  disk name := if name = ["d"] then .dir 0 0o755 5 7 else .missing
  address name := names.idxOf name

/-- The only removed path. -/
theorem stored_entries_are_canonical_for_one_removed_file :
    ∃ e, (store (storedWith [["d", "a"], ["d"]]) (removing ["a"]) (.start .empty)).2 = .ok e ∧
      (store ((storedWith [["d", "a"], ["d"]]).relocated fun name => if name = ["d"] then 1 else 7)
        ((removing ["a"]).reordered (removing ["a"]).fileUsages.reverse) (.start .empty)).2 = .ok e := by
  have hstored : (store (storedWith [["d", "a"], ["d"]]) (removing ["a"]) (.start .empty)).2 = .ok _ := rfl
  refine ⟨_, hstored, ?_⟩
  have hnames : DistinctNames (removing ["a"]).fileUsages := by unfold DistinctNames; decide
  have haddresses : DistinctAddresses (storedWith [["d", "a"], ["d"]]).address (removing ["a"]).fileUsages := by
    unfold DistinctAddresses; decide
  exact (stored_entries_are_canonical hnames haddresses hstored).mpr (by decide) _ _ _
    (reverse_perm _).symm (by unfold DistinctAddresses; decide)

/-- A process removes two files. The entry of its second run is another one, since the strings
    are in another order in memory. -/
theorem removed_paths_are_in_memory_order :
    ∃ e e', (store (storedWith [["d", "a"], ["d", "b"], ["d"]]) (removing ["a", "b"]) (.start .empty)).2 = .ok e ∧
      (store (storedWith [["d", "b"], ["d", "a"], ["d"]]) (removing ["a", "b"]) (.start .empty)).2 = .ok e' ∧
      e.outputs.pathNotexist = [["d", "a"], ["d", "b"]] ∧ e'.outputs.pathNotexist = [["d", "b"], ["d", "a"]] :=
  ⟨_, _, rfl, rfl, rfl, rfl⟩

end Firebuild
