/-
  Firebuild.SharedLibs — the list of loaded libraries a process reports when it starts
  (`intercept.c`: `skip_shared_lib`, `shared_libs_as_cstring_view_array_cb`, `fb_ic_init`;
  `firebuild_common.c`: `is_canonical`, `make_canonical`, `is_cstring_view_array_full`,
  `cstring_view_array_append_noalloc`).

  dl_iterate_phdr() calls back for every library. There is room for 64 names and for 8 that have
  to be made canonical; what does not fit is counted, and then the libraries are gone through
  again with room for all of them. The room is in bytes, as it is allocated, and `overflow` says
  that something was stored beyond it. The new array is allocated with the size of a pointer
  for each name, where a name takes a `cstring_view` (`libs_are_reported_iff`,
  `the_new_array_is_too_small`). A library was opened by its name, so that is shorter than
  PATH_MAX.
-/

import Mathlib.Data.List.Infix
import Mathlib.Data.List.Sort
import Firebuild.Fingerprint

namespace Firebuild.SharedLibs

open List

def FB_PATH_BUFSIZE : Nat := 4096

/-- A pointer and a uint32_t. -/
def sizeofCstringView : Nat := 16

def sizeofPointer : Nat := 8

/-- `dlpi_name` -/
def LibName := { name : CString // name.val.length < FB_PATH_BUFSIZE }

/-- is_canonical() and make_canonical(), which leaves canonical names as they are. -/
structure Canonizing where
  isCanonical : Bytes → Bool
  makeCanonical : Bytes → Bytes
  same : ∀ {name}, isCanonical name = true → makeCanonical name = name

def slash : UInt8 := 0x2f

def dot : UInt8 := 0x2e

def isCanonical (path : Bytes) : Bool :=
  path = [] ∨ ¬([dot, slash] <+: path ∨ (2 ≤ path.length ∧ path.getLast? = some slash) ∨ [slash, dot] <:+ path ∨
    [slash, slash] <:+: path ∨ [slash, dot, slash] <:+: path)

/-- A run of slashes and non-initial "." components is skipped. -/
def skipSlashes : Bytes → Bytes
  | [] => []
  | c :: src => if c = slash ∨ c = dot ∧ (src.head? = some slash ∨ src = []) then skipSlashes src else c :: src

theorem skipSlashes_length_le (src : Bytes) : (skipSlashes src).length ≤ src.length := by
  induction src with
  | nil => exact Nat.le_refl 0
  | cons c src ih =>
    rw [skipSlashes]
    split
    · exact Nat.le_succ_of_le ih
    · exact Nat.le_refl _

/-- The loop of make_canonical(), which writes to `dst` what it reads from `src`. -/
def canonizeFrom (addSlash : Bool) (dst : Bytes) : Bytes → Bytes
  | [] => dst
  | c :: src =>
    if c = slash then
      canonizeFrom true ((if addSlash then dst ++ [slash] else dst) ++ (skipSlashes src).takeWhile (· ≠ slash))
        ((skipSlashes src).dropWhile (· ≠ slash))
    else canonizeFrom true (dst ++ c :: src.takeWhile (· ≠ slash)) (src.dropWhile (· ≠ slash))
termination_by src => src.length
decreasing_by
  · exact Nat.lt_succ_of_le (Nat.le_trans (dropWhile_suffix _).length_le (skipSlashes_length_le src))
  · exact Nat.lt_succ_of_le (dropWhile_suffix _).length_le

/-- The final "/" is stripped, except if the entire path is "/". -/
def stripSlash (path : Bytes) : Bytes :=
  if 2 ≤ path.length ∧ path.getLast? = some slash then path.dropLast else path

def makeCanonical (path : Bytes) : Bytes :=
  let finish dst := stripSlash (if dst = [] then [dot] else dst)
  if path = [] then []
  else if [dot, slash] <+: path then finish (canonizeFrom false [] path.tail)
  else
    match path.tails.findIdx? fun rest => [slash, slash] <+: rest ∨ [slash, dot, slash] <+: rest with
    | none => stripSlash (if [slash, dot] <:+ path then path.dropLast else path)
    | some k => finish (canonizeFrom true (path.take k) (path.drop k))

theorem makeCanonical_same {path : Bytes} (h : isCanonical path = true) : makeCanonical path = path := by
  simp only [isCanonical, decide_eq_true_eq, not_or] at h
  rcases h with rfl | ⟨hdot, hslash, hend, hdouble, hinner⟩
  · rfl
  have hnone : (path.tails.findIdx? fun rest => [slash, slash] <+: rest ∨ [slash, dot, slash] <+: rest) = none := by
    refine findIdx?_eq_none_iff.mpr fun rest hrest => decide_eq_false fun hodd => ?_
    have hsuffix := (mem_tails _ _).mp hrest
    rcases hodd with hp | hp
    · exact hdouble (hp.isInfix.trans hsuffix.isInfix)
    · exact hinner (hp.isInfix.trans hsuffix.isInfix)
  simp only [makeCanonical, hdot, if_false, hnone, hend, stripSlash, hslash, ite_eq_right_iff]
  exact Eq.symm

/-- What the interceptor is built with. -/
def canonizing : Canonizing := ⟨isCanonical, makeCanonical, makeCanonical_same⟩

def skipSharedLib (name : Bytes) : Bool :=
  name = [] ∨ ascii "/libfirebuild.so" <:+ name ∨ name = ascii "linux-vdso.so.1"

/-- What is allocated for a pass: for the array in entries and in bytes, and for the canonized names. -/
structure Room where
  sizeAlloc : Nat
  arrayBytes : Nat
  canonizedLibsSize : Nat

/-- `shared_libs_as_cstring_view_array_cb_data_t`, with the entries of the array. -/
structure CbData where
  array : List Bytes := []
  collectableEntries : Nat := 0
  notCanonicalEntries : Nat := 0
  canonizedLibsCount : Nat := 0
  overflow : Bool := false

/-- An entry is appended if the array is not full. -/
def CbData.append (room : Room) (cb : CbData) (name : Bytes) : CbData :=
  if cb.array.length = room.sizeAlloc then cb
  else { cb with
    array := cb.array ++ [name]
    overflow := cb.overflow || room.arrayBytes < (cb.array.length + 1) * sizeofCstringView }

/-- The name is copied with its NUL, and made canonical there. -/
def CbData.canonize (room : Room) (cb : CbData) (name : Bytes) : CbData := { cb with
  canonizedLibsCount := cb.canonizedLibsCount + 1
  overflow := cb.overflow ||
    room.canonizedLibsSize * FB_PATH_BUFSIZE < cb.canonizedLibsCount * FB_PATH_BUFSIZE + (name.length + 1) }

variable (c : Canonizing)

/-- "Add shared library's name to the file list" -/
def sharedLibsCb (room : Room) (cb : CbData) (lib : LibName) : CbData :=
  let name := lib.1.1
  if skipSharedLib name then cb
  else
    let cb := { cb with collectableEntries := cb.collectableEntries + 1 }
    if c.isCanonical name then cb.append room name
    else
      let cb := { cb with notCanonicalEntries := cb.notCanonicalEntries + 1 }
      if cb.canonizedLibsCount < room.canonizedLibsSize then (cb.canonize room name).append room (c.makeCanonical name)
      else cb

def firstRoom : Room := { sizeAlloc := 64, arrayBytes := 64 * sizeofCstringView, canonizedLibsSize := 8 }

/-- "The initially allocated space was not enough to collect all shared libs, trying again." -/
def secondRoom (cb : CbData) : Room :=
  let canonizedLibsSize :=
    if cb.notCanonicalEntries > firstRoom.canonizedLibsSize then cb.notCanonicalEntries else firstRoom.canonizedLibsSize
  if cb.collectableEntries > firstRoom.sizeAlloc - 1 then {
    sizeAlloc := cb.collectableEntries + 1
    arrayBytes := (cb.collectableEntries + 1) * sizeofPointer
    canonizedLibsSize }
  else { firstRoom with canonizedLibsSize }

/-- The part of fb_ic_init() that lists the libraries: what is reported, and whether something was
    stored where there is no room. -/
def fbIcInit (libs : List LibName) : List Bytes × Bool :=
  let cb := libs.foldl (sharedLibsCb c firstRoom) {}
  let cb :=
    if cb.collectableEntries > cb.array.length then
      libs.foldl (sharedLibsCb c (secondRoom cb)) { overflow := cb.overflow }
    else cb
  (cb.array.insertionSort (· ≤ ·), cb.overflow)

def kept (libs : List LibName) : List Bytes := (libs.map fun lib => lib.1.1).filter (!skipSharedLib ·)

def notCanonical (libs : List LibName) : List Bytes := (kept libs).filter (!c.isCanonical ·)

/-- What a pass has collected: `names` were not skipped, `n` of them were not canonical. Those in
    `found` were to be appended. -/
structure Collected (room : Room) (names : List Bytes) (n : Nat) (found : List Bytes) (cb : CbData) : Prop where
  collectable : cb.collectableEntries = names.length
  odd : cb.notCanonicalEntries = n
  canonized : cb.canonizedLibsCount = min n room.canonizedLibsSize
  counted : found.length + (n - room.canonizedLibsSize) = names.length
  all : n ≤ room.canonizedLibsSize → found = names.map c.makeCanonical
  array : cb.array = found.take room.sizeAlloc
  overflow : cb.overflow = decide (room.arrayBytes < cb.array.length * sizeofCstringView)

variable {c} {room : Room} {names found : List Bytes} {n n' : Nat} {cb cb' : CbData} {name : Bytes}

/-- One more name, which is canonical or has got room among the canonized ones. -/
theorem Collected.append (h : Collected c room names n found cb) (hn : n' = n ∨ n' = n + 1 ∧ n < room.canonizedLibsSize)
    (hcollectable : cb'.collectableEntries = cb.collectableEntries + 1) (hodd : cb'.notCanonicalEntries = n')
    (hcanonized : cb'.canonizedLibsCount = min n' room.canonizedLibsSize) (harray : cb'.array = cb.array)
    (hover : cb'.overflow = cb.overflow) :
    Collected c room (names ++ [name]) n' (found ++ [c.makeCanonical name]) (cb'.append room (c.makeCanonical name)) := by
  have hfound := h.counted
  have hlen : cb.array.length = min room.sizeAlloc found.length := by rw [h.array, length_take]
  have hall : n' ≤ room.canonizedLibsSize → found ++ [c.makeCanonical name] = (names ++ [name]).map c.makeCanonical :=
    fun hle => by rw [h.all (by omega), map_append, map_singleton]
  unfold CbData.append
  rw [harray, hover]
  split
  · refine ⟨by simp [hcollectable, h.collectable], hodd, hcanonized, by simp; omega, hall, ?_, ?_⟩
    · rw [harray, h.array, take_append_of_le_length (by omega)]
    · rw [hover, harray, h.overflow]
  · refine ⟨by simp [hcollectable, h.collectable], hodd, hcanonized, by simp; omega, hall, ?_, ?_⟩
    · rw [h.array, take_of_length_le (by omega), take_of_length_le (by simp; omega)]
    · rw [h.overflow, length_append, length_singleton, ← Bool.decide_or, decide_eq_decide, sizeofCstringView]
      omega

theorem Collected.step (h : Collected c room names n found cb) (lib : LibName) :
    ∃ found', Collected c room (names ++ if skipSharedLib lib.1.1 then [] else [lib.1.1])
      (n + if skipSharedLib lib.1.1 || c.isCanonical lib.1.1 then 0 else 1) found' (sharedLibsCb c room cb lib) := by
  have hcanonized := h.canonized
  cases hskip : skipSharedLib lib.1.1 with
  | true => exact ⟨found, by simpa [sharedLibsCb, hskip] using h⟩
  | false =>
    cases hcan : c.isCanonical lib.1.1 with
    | true =>
      refine ⟨found ++ [c.makeCanonical lib.1.1], ?_⟩
      simp only [sharedLibsCb, hskip, hcan]
      conv => rhs; rw [← c.same hcan]
      exact h.append (.inl rfl) rfl h.odd h.canonized rfl rfl
    | false =>
      simp only [sharedLibsCb, hskip, hcan, Bool.false_eq_true, Bool.or_self, if_false]
      split
      · rename_i hcount
        refine ⟨_, h.append (.inr ⟨rfl, by omega⟩) rfl (congrArg (· + 1) h.odd) ?_ rfl ?_⟩
        · simp only [CbData.canonize]
          omega
        · -- the slot is within the buffer, and a name fits into its slot
          have hslot := Nat.mul_le_mul_right FB_PATH_BUFSIZE hcount
          have hname := lib.2
          rw [Nat.succ_mul] at hslot
          simp only [CbData.canonize, Bool.or_eq_left_iff_imp, decide_eq_true_eq]
          omega
      · have hfound := h.counted
        refine ⟨found, by simp [h.collectable], congrArg (· + 1) h.odd, ?_, by simp; omega, fun hle => ?_, h.array,
          h.overflow⟩
        · simp only
          omega
        · omega

theorem pass_collected (libs : List LibName) (h : Collected c room names n found cb) : ∃ found',
    Collected c room (names ++ kept libs) (n + (notCanonical c libs).length) found' (libs.foldl (sharedLibsCb c room) cb) := by
  induction libs generalizing cb names n found with
  | nil => exact ⟨found, by simpa [kept, notCanonical] using h⟩
  | cons lib libs ih =>
    obtain ⟨_, hstep⟩ := h.step lib
    obtain ⟨found', hnext⟩ := ih hstep
    refine ⟨found', ?_⟩
    rw [append_assoc, Nat.add_assoc] at hnext
    rw [foldl_cons]
    convert hnext using 2
    · cases hskip : skipSharedLib lib.1.1 <;> simp [kept, hskip]
    · cases hskip : skipSharedLib lib.1.1 <;> cases hcan : c.isCanonical lib.1.1 <;>
        simp [notCanonical, kept, hskip, hcan, Nat.add_comm]

variable (c) in
theorem first_pass (room : Room) (libs : List LibName) :
    ∃ found, Collected c room (kept libs) (notCanonical c libs).length found (libs.foldl (sharedLibsCb c room) {}) := by
  have hstart : Collected c room [] 0 [] {} := by constructor <;> simp
  simpa using pass_collected libs hstart

/-- The names of the libraries that are not skipped are reported in canonical form, each once, and
    nothing is stored where there is no room, exactly if there are less than 64 of them, or
    64 of which at most 8 have to be made canonical. -/
theorem libs_are_reported_iff (c : Canonizing) (libs : List LibName) :
    ((fbIcInit c libs).1.Perm ((kept libs).map c.makeCanonical) ∧ (fbIcInit c libs).2 = false) ↔
      (kept libs).length < 64 ∨ (kept libs).length = 64 ∧ (notCanonical c libs).length ≤ 8 := by
  obtain ⟨found, h1⟩ := first_pass c firstRoom libs
  simp only [fbIcInit]
  generalize libs.foldl (sharedLibsCb c firstRoom) {} = cb at h1
  have hfound : found.length + ((notCanonical c libs).length - 8) = (kept libs).length := h1.counted
  have hlen : cb.array.length = min 64 found.length := by rw [h1.array, length_take]; rfl
  have hsafe : cb.overflow = false := by
    rw [h1.overflow, decide_eq_false_iff_not, sizeofCstringView, show firstRoom.arrayBytes = 64 * 16 from rfl]
    omega
  by_cases hfit : (kept libs).length ≤ 64 ∧ (notCanonical c libs).length ≤ 8
  · rw [if_neg (by rw [h1.collectable]; omega)]
    have harray : cb.array = (kept libs).map c.makeCanonical := by
      rw [h1.array, ← h1.all hfit.2]
      exact take_of_length_le (show found.length ≤ 64 by omega)
    exact iff_of_true ⟨(perm_insertionSort _ _).trans (.of_eq harray), hsafe⟩ (by omega)
  rw [if_pos (by rw [h1.collectable]; omega), hsafe]
  obtain ⟨found', h2⟩ := first_pass c (secondRoom cb) libs
  have hroom : (notCanonical c libs).length ≤ (secondRoom cb).canonizedLibsSize ∧
      (kept libs).length ≤ (secondRoom cb).sizeAlloc ∧
      ((secondRoom cb).arrayBytes < (kept libs).length * sizeofCstringView ↔ 64 ≤ (kept libs).length) := by
    simp only [secondRoom, firstRoom, h1.odd, h1.collectable, sizeofCstringView, sizeofPointer]
    split <;> split <;> simp only <;> omega
  have harray : (libs.foldl (sharedLibsCb c (secondRoom cb)) {}).array = (kept libs).map c.makeCanonical := by
    rw [h2.array, h2.all hroom.1, take_of_length_le (by rw [length_map]; exact hroom.2.1)]
  rw [h2.overflow, harray, length_map, decide_eq_false_iff_not]
  refine ⟨fun h => ?_, fun _ => ⟨perm_insertionSort _ _, ?_⟩⟩ <;> omega

def lib : LibName := ⟨⟨ascii "/l", by decide⟩, by decide⟩

/-- 65 libraries with canonical names. -/
theorem the_new_array_is_too_small :
    (fbIcInit canonizing (replicate 65 lib)).2 = true := by decide +kernel

end Firebuild.SharedLibs
