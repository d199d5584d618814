/-
  Firebuild.Shortcut — looking up an entry (`execed_process_cacher.cc`: `pio_matches_fs`,
  `find_shortcut`), and what garbage collection does to it.

  The entries of a key are tried from the newest on. `find_shortcut()` counts every entry it
  looks at and compares before it counts, so it looks at one entry more than
  `shortcut_tries`. `gc_obj_cache_dir()` counts the usable ones, and stops at
  `shortcut_tries` of them.

  Proved: `gc_agrees_with_find_shortcut`; `the_last_candidate_is_removed`.
-/

import Firebuild.Gc

namespace Firebuild

open Lib.Collect
open List

/-! ## Lookup -/

/-- The check at the end of `pio_matches_fs()`: access() for writing does not fail with EACCES,
    or the file will be replaced. -/
def outputsApplicable (denied : FileName → Bool) (pio : ProcessInputsOutputs) : Bool :=
  pio.outputs.pathIsreg.all fun f =>
    !(decide (f.type = .isReg) && denied f.path) ||
      ((findInputFile pio.inputs f.path).isSome && decide ((fileToFileInfo f).modeMask &&& 0o200#12 ≠ 0))

def pioMatchesFs (env : GcEnv) (denied : FileName → Bool) (pio : ProcessInputsOutputs) : Bool :=
  pio.inputs.path.all (fun f => fileInfoMatches (fileToFileInfo f) (env.fs f.path)) &&
    pio.inputs.pathNotexist.all (fun name => fileInfoMatches { type := .notExist } (env.fs name)) &&
    outputsApplicable denied pio

/-- The loop of `find_shortcut()`, with `shortcut_attempts`: the entries it looks at and the
    one it finds. -/
def findShortcutLoop (tries : Int) (pioMatches : ProcessInputsOutputs → Bool) :
    List ObjFile → Nat → List ObjFile × Option ObjFile
  | [], _ => ([], none)
  | f :: fs, attempts =>
    if (attempts : Int) > tries then ([], none)
    else
      match f.content with
      | .unretrievable | .otherTag =>
        let rest := findShortcutLoop tries pioMatches fs (attempts + 1)
        (f :: rest.1, rest.2)
      | .entry pio =>
        if pioMatches pio then ([f], some f)
        else
          let rest := findShortcutLoop tries pioMatches fs (attempts + 1)
          (f :: rest.1, rest.2)

def findShortcut (env : GcEnv) (pioMatches : ProcessInputsOutputs → Bool) (objs : List ObjDir) (key : Hash) :
    List ObjFile × Option ObjFile :=
  findShortcutLoop env.shortcutTries pioMatches (listSubkeys env.debugCache objs key) 0

def ObjFile.candidate (pioMatches : ProcessInputsOutputs → Bool) (f : ObjFile) : Bool :=
  match f.content with
  | .unretrievable | .otherTag => false
  | .entry pio => pioMatches pio

variable {env : GcEnv} {tries : Int} {pioMatches : ProcessInputsOutputs → Bool} {s : CacheFiles} {key : Hash}
  {f : ObjFile} {fs : List ObjFile}

theorem findShortcutLoop_cons {attempts : Nat} (hgo : ¬ (attempts : Int) > tries) :
    findShortcutLoop tries pioMatches (f :: fs) attempts = if f.candidate pioMatches then ([f], some f) else
        (f :: (findShortcutLoop tries pioMatches fs (attempts + 1)).1,
          (findShortcutLoop tries pioMatches fs (attempts + 1)).2) := by
  rw [findShortcutLoop, if_neg hgo, ObjFile.candidate]
  cases f.content <;> rfl

/-- It finds the first match among the first `shortcut_tries + 1` entries, and looks at no
    other. -/
theorem findShortcutLoop_spec (tries : Int) (pioMatches : ProcessInputsOutputs → Bool) (fs : List ObjFile)
    (attempts : Nat) :
    (findShortcutLoop tries pioMatches fs attempts).2 =
        (fs.take (tries + 1 - attempts).toNat).find? (·.candidate pioMatches) ∧
      (findShortcutLoop tries pioMatches fs attempts).1 <+: fs.take (tries + 1 - attempts).toNat ∧
      ((∀ f ∈ fs, f.candidate pioMatches = false) →
        (findShortcutLoop tries pioMatches fs attempts).1 = fs.take (tries + 1 - attempts).toNat) := by
  induction fs generalizing attempts with
  | nil => simp [findShortcutLoop]
  | cons f fs ih =>
    by_cases hstop : (attempts : Int) > tries
    · have h0 : (tries + 1 - attempts).toNat = 0 := by omega
      simp [findShortcutLoop, hstop, h0]
    obtain ⟨m, hm⟩ : ∃ m, (tries + 1 - attempts).toNat = m + 1 := ⟨(tries - attempts).toNat, by omega⟩
    have hrest : (tries + 1 - ((attempts + 1 : Nat) : Int)).toNat = m := by omega
    obtain ⟨hfound, hlooked, hall⟩ := ih (attempts + 1)
    rw [hrest] at hfound hlooked hall
    rw [findShortcutLoop_cons hstop, hm, take_succ_cons, List.find?_cons]
    cases hc : f.candidate pioMatches with
    | true => exact ⟨rfl, by simp, fun h => by simp [h f] at hc⟩
    | false =>
      refine ⟨hfound, (prefix_cons_inj f).mpr hlooked, fun h => ?_⟩
      have hnext := hall fun g hg => h g (mem_cons_of_mem _ hg)
      exact congrArg (f :: ·) hnext

theorem findShortcut_spec (env : GcEnv) (pioMatches : ProcessInputsOutputs → Bool) (objs : List ObjDir) (key : Hash) :
    (findShortcut env pioMatches objs key).2 =
        ((listSubkeys env.debugCache objs key).take (env.shortcutTries + 1).toNat).find? (·.candidate pioMatches) ∧
      (findShortcut env pioMatches objs key).1 <+: (listSubkeys env.debugCache objs key).take (env.shortcutTries + 1).toNat ∧
      ((∀ f ∈ listSubkeys env.debugCache objs key, f.candidate pioMatches = false) →
        (findShortcut env pioMatches objs key).1 =
          (listSubkeys env.debugCache objs key).take (env.shortcutTries + 1).toNat) := by
  have h := findShortcutLoop_spec env.shortcutTries pioMatches (listSubkeys env.debugCache objs key) 0
  rwa [show env.shortcutTries + 1 - ((0 : Nat) : Int) = env.shortcutTries + 1 from Int.sub_zero _] at h

/-! ## The two loops -/

/-- The entries of a key that a pass looks at; the others are removed as superfluous. -/
def checkedFor (env : GcEnv) (s : CacheFiles) (key : Hash) : List ObjFile :=
  looked (·.usable env s.present) env.shortcutTries.toNat (listSubkeys env.debugCache s.objs key)

/-- The entry at this place is removed because it "will never be tried". -/
def Superfluous (env : GcEnv) (s : CacheFiles) (key : Hash) (i : Nat) : Prop :=
  (checkedFor env s key).length ≤ i ∧ i < (listSubkeys env.debugCache s.objs key).length

/-- A lookup looks at the entry at this place, if this is what matches. -/
def Examined (env : GcEnv) (s : CacheFiles) (key : Hash) (pioMatches : ProcessInputsOutputs → Bool) (i : Nat) : Prop :=
  i < (findShortcut env pioMatches s.objs key).1.length

/-- A lookup finds the entry, and the blobs it refers to are there. -/
def Hit (env : GcEnv) (denied : FileName → Bool) (s : CacheFiles) (key : Hash) (f : ObjFile) : Prop :=
  (findShortcut env (pioMatchesFs env denied) s.objs key).2 = some f ∧ ∀ k ∈ f.referenced, s.present k = true

/-- There are not too many entries, or an unusable one is among those that count. -/
def RoomForAnother (env : GcEnv) (s : CacheFiles) (key : Hash) : Prop :=
  env.shortcutTries < 0 ∨ (listSubkeys env.debugCache s.objs key).length ≤ env.shortcutTries.toNat ∨
    ∃ f ∈ (listSubkeys env.debugCache s.objs key).take env.shortcutTries.toNat, f.usable env s.present = false

/-- The collector looks at everything a lookup may look at. -/
theorem RoomForAnother.checks (h : RoomForAnother env s key) :
    (listSubkeys env.debugCache s.objs key).take (env.shortcutTries + 1).toNat <+: checkedFor env s key := by
  by_cases hneg : env.shortcutTries < 0
  · have h0 : (env.shortcutTries + 1).toNat = 0 := by omega
    rw [h0]
    exact nil_prefix
  have hsucc : (env.shortcutTries + 1).toNat = env.shortcutTries.toNat + 1 := by omega
  rw [hsucc]
  exact take_succ_prefix_looked (h.resolve_left hneg)

variable {denied : FileName → Bool}

theorem systemFileChanged_of_matches
    (h : pioMatchesFs env denied pio = true) : systemFileChanged env pio.inputs = false := by
  simp only [pioMatchesFs, Bool.and_eq_true, all_eq_true] at h
  rw [systemFileChanged, any_eq_false]
  intro f hf
  simp [h.1.1 f hf]

theorem Hit.usable (h : Hit env denied s key f) : f.usable env s.present = true := by
  obtain ⟨hfind, hrefs⟩ := h
  rw [(findShortcut_spec _ _ _ _).1] at hfind
  have hc := List.find?_some hfind
  unfold ObjFile.candidate at hc
  unfold ObjFile.referenced at hrefs
  unfold ObjFile.usable
  cases hcontent : f.content with
  | unretrievable | otherTag => rw [hcontent] at hc; cases hc
  | entry pio =>
    rw [hcontent] at hc hrefs
    simpa [systemFileChanged_of_matches hc] using hrefs

/-- Without a round for the size there is only one pass. -/
theorem gc_one_pass (keeps : List Nat) (hrun : env.Runs) (hsize : keptBytes env s ≤ env.maxCacheSize) :
    (gc env keeps s).objs = (gcPass env s).1.objs ∧ (gc env keeps s).blobs = (gcPass env s).1.blobs := by
  unfold gc
  rw [← keptBytes_eq] at hsize
  rw [hrun.1, hrun.2, if_neg (by decide)]
  have hruns : (gcPass env s).1.thisRuns = (gcPass env s).2.thisRuns := rfl
  simp only
  rw [if_neg (by omega)]
  exact ⟨rfl, rfl⟩

/-- The entries that are left for a key, if there are any. -/
theorem gcPass_listSubkeys (env : GcEnv) (s : CacheFiles) (key : Hash)
    (hne : keepFirst (·.usable env s.present) env.shortcutTries.toNat (listSubkeys env.debugCache s.objs key) ≠ []) :
    listSubkeys env.debugCache (gcPass env s).1.objs key =
      keepFirst (·.usable env s.present) env.shortcutTries.toNat (listSubkeys env.debugCache s.objs key) := by
  unfold listSubkeys at hne ⊢
  cases hd : s.objs.find? (·.path = objDir key) with
  | none =>
    rw [hd] at hne
    exact absurd (by simp [keepFirst]) hne
  | some d =>
    rw [hd] at hne
    obtain ⟨d', hd', _, hentries⟩ := (gcObjCacheDir_visits env s.present).find?
      (s := { thisRuns := s.thisRuns }) (fun _ _ h => h.1) Marked.nil hd hne
    have hfind : (gcPass env s).1.objs.find? (·.path = objDir key) = some d' := hd'
    rw [hfind]
    dsimp only
    rw [hentries]
    exact ((List.pairwise_insertionSort _ _).sublist keepFirst_sublist).insertionSort_eq

theorem Hit.gc (h : Hit env denied s key f) (hrun : env.Runs)
    (hsize : keptBytes env s ≤ env.maxCacheSize) (hroom : RoomForAnother env s key) :
    Hit env denied (gc env keeps s) key f := by
  have husable := h.usable
  obtain ⟨hfind, -⟩ := h
  rw [(findShortcut_spec _ _ _ _).1] at hfind
  have hpre := hroom.checks
  -- it is the first match among the entries that the collector looks at
  have hchecked : (checkedFor env s key).find? (·.candidate (pioMatchesFs env denied)) = some f := by
    obtain ⟨l, hl⟩ := hpre
    rw [← hl, List.find?_append, hfind]
    rfl
  -- and among those it keeps
  have hkept : (keepFirst (·.usable env s.present) env.shortcutTries.toNat
      (listSubkeys env.debugCache s.objs key)).find? (·.candidate (pioMatchesFs env denied)) = some f := by
    rw [← filter_looked]
    obtain ⟨hc, l1, l2, hl, hbefore⟩ := List.find?_eq_some_iff_append.mp hchecked
    rw [show looked (·.usable env s.present) env.shortcutTries.toNat (listSubkeys env.debugCache s.objs key) =
      l1 ++ f :: l2 from hl, filter_append, filter_cons_of_pos husable]
    refine List.find?_eq_some_iff_append.mpr ⟨hc, _, _, rfl, fun g hg => hbefore g (mem_filter.mp hg).1⟩
  have hmem := mem_of_find?_eq_some hkept
  obtain ⟨hobjs, hblobs⟩ := gc_one_pass keeps hrun hsize
  have hlist := gcPass_listSubkeys env s key (ne_nil_of_mem hmem)
  refine ⟨?_, ?_⟩
  · rw [(findShortcut_spec _ _ _ _).1, hobjs, hlist, take_of_length_le, hkept]
    exact keepFirst_length.trans (by omega)
  intro k hk
  have hd : ∃ d ∈ s.objs, f ∈ d.kept env s.present := by
    unfold listSubkeys at hmem
    cases hd : s.objs.find? (·.path = objDir key) with
    | none =>
      rw [hd] at hmem
      simp [keepFirst] at hmem
    | some d =>
      rw [hd] at hmem
      exact ⟨d, mem_of_find?_eq_some hd, hmem⟩
  obtain ⟨d, hd, hf⟩ := hd
  rw [CacheFiles.present, hblobs]
  exact gcPass_present (collected_of_kept hd hf k hk)

/-- What is removed as superfluous would not have been looked at, and no hit becomes a miss,
    exactly if there is room for another entry. -/
theorem gc_agrees_with_find_shortcut (env : GcEnv) (keeps : List Nat) (s : CacheFiles) (key : Hash) :
    ((∀ i, Superfluous env s key i → ∀ pioMatches, ¬ Examined env s key pioMatches i) ∧
        (env.Runs → keptBytes env s ≤ env.maxCacheSize →
          ∀ denied f, Hit env denied s key f → Hit env denied (gc env keeps s) key f)) ↔
      RoomForAnother env s key := by
  constructor
  · rintro ⟨hnever, -⟩
    by_contra hroom
    simp only [RoomForAnother, not_or, not_le, not_exists, not_and, Bool.not_eq_false] at hroom
    obtain ⟨hpos, hmany, hgood⟩ := hroom
    -- the entry at the place of the limit
    refine hnever env.shortcutTries.toNat ⟨looked_length hgood, hmany⟩ (fun _ => false) ?_
    have hall := (findShortcut_spec env (fun _ => false) s.objs key).2.2 fun f _ => by
      unfold ObjFile.candidate
      cases f.content <;> rfl
    rw [Examined, hall, length_take]
    omega
  · intro hroom
    refine ⟨fun i hi pioMatches hex => ?_, fun hrun hsize denied f h => h.gc hrun hsize hroom⟩
    have hlen := hroom.checks.length_le
    have hexam := (findShortcut_spec env pioMatches s.objs key).2.1.length_le
    have hsup := hi.1
    unfold Examined at hex
    omega

/-- Two entries for the key 7 that read the same file, the newer one with another content. -/
def twoEntryCache : CacheFiles where
  objs := [{ path := objDir 7, entries := [entryFor 2 6, entryFor 1 5] }]
where
  entryFor (subkey : Subkey) (hash : Hash) : ObjFile :=
    { subkey, size := 100
      content := .entry { inputs.path := [{ path := ["in"], type := .isReg, hash := some hash }] } }

def oneTry : GcEnv where
  shortcutTries := 1
  maxCacheSize := 1000
  fs _ := .reg 1 5 0o644#12

/-- With `shortcut_tries` 1 the older entry is looked at and found; the collector removes it. -/
theorem the_last_candidate_is_removed :
    Superfluous oneTry twoEntryCache 7 1 ∧ Examined oneTry twoEntryCache 7 (pioMatchesFs oneTry fun _ => false) 1 ∧
      Hit oneTry (fun _ => false) twoEntryCache 7 (twoEntryCache.entryFor 1 5) ∧
      (findShortcut oneTry (pioMatchesFs oneTry fun _ => false) (gc oneTry [] twoEntryCache).objs 7).2 = none := by
  unfold Superfluous Examined Hit
  decide

end Firebuild
