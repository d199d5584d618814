/-
  Firebuild.Parsers — two parsers of the interceptor: the mode of fopen() (`ic_file_ops.c`:
  `intercept_fopen_mode_to_open_flags_helper`) and a list of locations in an environment
  variable (`intercept.c`: `store_entries`).

  (1) '+' is seen next to the first letter only, so "rb+" is taken for reading
  (`fopen_modes_agree_iff`, `an_update_mode_is_read_only`). fopen() itself looks at seven
  characters of the mode.

  (2) The loop over the entries does not step over an empty one, and goes on for ever
  (`entries_are_stored_iff`, `an_empty_entry_is_not_left`). A run that does not end within
  its fuel gives `none`.
-/

import Mathlib.Data.List.DropRight

namespace Firebuild.Parsers

open List

inductive AccessMode
  | rdonly | wronly | rdwr
deriving DecidableEq

structure Flags where
  access : AccessMode
  creat : Bool := false
  trunc : Bool := false
  append : Bool := false
  excl : Bool := false
  cloexec : Bool := false
deriving DecidableEq

def firstFlags : Char → Option Flags
  | 'r' => some { access := .rdonly }
  | 'w' => some { access := .wronly, creat := true, trunc := true }
  | 'a' => some { access := .wronly, creat := true, append := true }
  | _ => none

def extensionFlags (flags : Flags) : List Char → Flags
  | [] => flags
  | c :: p =>
    if c = 'e' then extensionFlags { flags with cloexec := true } p
    else if c = 'x' then extensionFlags { flags with excl := true } p
    else if c = ',' then flags
    else extensionFlags flags p

def fopenModeToOpenFlags : List Char → Option Flags
  | [] => none
  | c :: p => (firstFlags c).map fun flags =>
    if p.head? = some '+' then extensionFlags { flags with access := .rdwr } (p.drop 1) else extensionFlags flags p

def letters (mode : List Char) : List Char := (mode.drop 1).takeWhile (· ≠ ',')

def examined (mode : List Char) : List Char := (letters mode).take 6

def fopenFlags (mode : List Char) : Option Flags :=
  (mode.head?.bind firstFlags).map fun flags => { flags with
    access := if '+' ∈ examined mode then .rdwr else flags.access
    excl := 'x' ∈ examined mode
    cloexec := 'e' ∈ examined mode }

theorem extensionFlags_eq (flags : Flags) (p : List Char) : extensionFlags flags p = { flags with
    excl := flags.excl || decide ('x' ∈ p.takeWhile (· ≠ ','))
    cloexec := flags.cloexec || decide ('e' ∈ p.takeWhile (· ≠ ',')) } := by
  fun_induction extensionFlags flags p with
  | case1 => simp
  | case2 flags p ih => simp [ih]
  | case3 flags p _ ih => simp [ih]
  | case4 => simp
  | case5 flags c p he hx hc ih => simp [ih, hc, Ne.symm he, Ne.symm hx]

theorem firstFlags_plain (h : firstFlags c = some flags) :
    flags.access ≠ .rdwr ∧ flags.excl = false ∧ flags.cloexec = false := by
  unfold firstFlags at h
  split at h <;> cases h <;> decide

theorem fopenModeToOpenFlags_eq (hc : firstFlags c = some first) (p : List Char) :
    fopenModeToOpenFlags (c :: p) = some { first with
      access := if p.head? = some '+' then .rdwr else first.access
      excl := 'x' ∈ letters (c :: p)
      cloexec := 'e' ∈ letters (c :: p) } := by
  obtain ⟨-, hx, he⟩ := firstFlags_plain hc
  rw [fopenModeToOpenFlags, hc]
  simp only [Option.map_some, extensionFlags_eq, hx, he]
  by_cases hp : p.head? = some '+'
  · obtain ⟨q, rfl⟩ := head?_eq_some_iff.1 hp
    simp [letters]
  · rw [if_neg hp, if_neg hp]
    rfl

/-- The flags that are reported are those of fopen(), exactly if a '+' that fopen() sees is right
    after the first letter, and it sees an 'x' and an 'e' that are there. -/
theorem fopen_modes_agree_iff (mode : List Char) (flags : Flags) (h : fopenFlags mode = some flags) :
    fopenModeToOpenFlags mode = some flags ↔ ('+' ∈ examined mode → (mode.drop 1).head? = some '+') ∧
      ('x' ∈ letters mode → 'x' ∈ examined mode) ∧ ('e' ∈ letters mode → 'e' ∈ examined mode) := by
  cases mode with
  | nil => cases h
  | cons c p =>
    obtain ⟨first, hfirst, rfl⟩ := Option.map_eq_some_iff.1 h
    have hc : firstFlags c = some first := hfirst
    have ha := (firstFlags_plain hc).1
    have hsub : ∀ x, x ∈ examined (c :: p) → x ∈ letters (c :: p) := fun _ => mem_of_mem_take
    have hplus : p.head? = some '+' → '+' ∈ examined (c :: p) := by
      intro hp
      obtain ⟨q, rfl⟩ := head?_eq_some_iff.1 hp
      simp [examined, letters]
    rw [fopenModeToOpenFlags_eq hc, Option.some.injEq, Flags.mk.injEq]
    simp only [true_and, drop_one, tail_cons, decide_eq_decide]
    refine and_congr ?_ (and_congr ⟨Iff.mp, fun h => ⟨h, hsub _⟩⟩ ⟨Iff.mp, fun h => ⟨h, hsub _⟩⟩)
    by_cases hp : p.head? = some '+'
    · simp [hp, hplus hp]
    · by_cases hl : '+' ∈ examined (c :: p) <;> simp [hp, hl, ha]

theorem fopen_modes_agree_for_update :
    fopenFlags "r+b".toList = some { access := .rdwr } ∧ fopenModeToOpenFlags "r+b".toList = some { access := .rdwr } :=
  ⟨by decide, (fopen_modes_agree_iff _ _ (by decide)).2 (by decide)⟩

theorem an_update_mode_is_read_only :
    (fopenModeToOpenFlags "rb+".toList).map Flags.access = some .rdonly ∧
      (fopenFlags "rb+".toList).map Flags.access = some .rdwr := by
  decide

/-! ## store_entries() -/

/-- The buffer after the value is copied and cut. -/
def entriesEnvBuf (value : List Char) (bufferSize : Nat) : List Char :=
  if bufferSize < value.length + 1 then
    let buf := value.take (bufferSize - 1)
    if ':' ∈ buf then (buf.rdropWhile (· ≠ ':')).dropLast else []
  else value

/-- The loop. What `prefix` points to is given as the entries from there on; it is a null
    pointer after the last one. -/
def storeLoop (capacity : Nat) : Nat → List (List Char) → List (List Char) → Option (List (List Char))
  | 0, _, _ => none
  | _ + 1, [], entries => some entries
  | n + 1, entry :: next, entries =>
    if entries.length = capacity then some entries
    else if entry ≠ [] then storeLoop capacity n next (entries ++ [entry])
    -- the separator has become a NUL, and `prefix` stays
    else storeLoop capacity n [entry] entries

def storeEntries (value : List Char) (bufferSize capacity fuel : Nat) : Option (List (List Char)) :=
  storeLoop capacity fuel ((entriesEnvBuf value bufferSize).splitOn ':') []

def completeEntries (value : List Char) (bufferSize : Nat) : List (List Char) :=
  (((value ++ [':']).take bufferSize).splitOn ':').dropLast

variable {capacity : Nat} {value : List Char} {entries stored : List (List Char)}

theorem storeLoop_empty (hcap : entries.length ≠ capacity) (n : Nat) : storeLoop capacity n [[]] entries = none := by
  induction n with
  | zero => rfl
  | succ n ih => simp [storeLoop, hcap, ih]

/-- The loop ends exactly if no entry it comes to is empty. -/
theorem storeLoop_eq (es entries : List (List Char)) (hlen : entries.length ≤ capacity) :
    (∃ n, storeLoop capacity n es entries = some stored) ↔
      [] ∉ es.take (capacity - entries.length) ∧ stored = entries ++ es.take (capacity - entries.length) := by
  induction es generalizing entries with
  | nil =>
    rw [← Nat.or_exists_add_one]
    simp [storeLoop, eq_comm]
  | cons e es ih =>
    rw [← Nat.or_exists_add_one]
    by_cases hcap : entries.length = capacity
    · simp [storeLoop, hcap, eq_comm]
    obtain ⟨k, hk⟩ : ∃ k, capacity - entries.length = k + 1 := ⟨capacity - entries.length - 1, by omega⟩
    by_cases he : e = []
    · simp [storeLoop, hcap, he, hk, storeLoop_empty hcap]
    have ih := ih (entries ++ [e]) (by simp; omega)
    rw [length_append, ← Nat.sub_sub] at ih
    simpa [storeLoop, hcap, he, hk] using ih

/-- The entries that end within the first `k` bytes. -/
theorem dropLast_splitOn_take (l : List Char) (k : Nat) :
    ((l.take k).splitOn ':').dropLast = (l.splitOn ':').take ((l.take k).count ':') := by
  induction l generalizing k with
  | nil => simp
  | cons x l ih =>
    cases k with
    | zero => simp
    | succ k =>
      rw [take_succ_cons, splitOn_cons_eq_if_modifyHead, splitOn_cons_eq_if_modifyHead]
      by_cases hx : x = ':'
      · simp [hx, dropLast_cons_of_ne_nil (splitOn_ne_nil _ _), ih]
      · simp [hx, ← modifyHead_dropLast, ih]

/-- A value that does not fit is cut at the last separator, or altogether. -/
theorem kept_eq (hsize : bufferSize ≤ value.length) : (entriesEnvBuf value bufferSize).splitOn ':' =
    if ':' ∈ value.take (bufferSize - 1) then (value.splitOn ':').take ((value.take (bufferSize - 1)).count ':') else [[]] := by
  rw [entriesEnvBuf, if_pos (by omega), ← dropLast_splitOn_take]
  generalize value.take (bufferSize - 1) = buf
  dsimp only
  split
  · rename_i hsep
    have hne : buf.rdropWhile (· ≠ ':') ≠ [] := fun h => by simpa using rdropWhile_eq_nil_iff.1 h _ hsep
    have hlast := of_decide_eq_false (eq_false_of_ne_true (rdropWhile_last_not _ _ hne))
    have hrest : ':' ∉ buf.rtakeWhile (· ≠ ':') := fun h => by simpa using mem_rtakeWhile_imp h
    have hbuf : buf.rdropWhile (· ≠ ':') ++ buf.rtakeWhile (· ≠ ':') = buf := rdropWhile_append_rtakeWhile
    rw [← dropLast_append_getLast hne, not_ne_iff.1 hlast, append_assoc, singleton_append] at hbuf
    conv_rhs => rw [← hbuf, splitOn_append_cons_self, splitOn_eq_singleton hrest, dropLast_concat]
  · rfl

theorem completeEntries_eq (value : List Char) (bufferSize : Nat) : completeEntries value bufferSize =
    if value.length < bufferSize then value.splitOn ':' else (value.splitOn ':').take ((value.take bufferSize).count ':') := by
  rw [completeEntries]
  split
  · rw [take_of_length_le (by simp; omega), splitOn_append_cons_self]
    simp
  · rw [take_append_of_le_length (by omega), dropLast_splitOn_take]

/-- If none of the first entries is empty, they are the first of those that are not. -/
theorem take_filter_of_notMem (h : [] ∉ entries.take capacity) :
    (entries.filter (· ≠ [])).take capacity = entries.take capacity := by
  have hall : (entries.take capacity).filter (· ≠ []) = entries.take capacity :=
    filter_eq_self.2 fun e he => decide_eq_true fun h' => h (h' ▸ he)
  conv_lhs => rw [← take_append_drop capacity entries, filter_append, hall]
  rcases Nat.le_total capacity entries.length with hle | hle
  · exact take_left' (by simp [hle])
  · rw [drop_of_length_le hle, filter_nil, append_nil, take_take, Nat.min_self]

/-- No entry that is tried is empty. Of a value that does not fit, one entry at least ends before
    the last byte of the buffer, and none ends right there that there is room for. -/
def Storable (value : List Char) (bufferSize capacity : Nat) : Prop :=
  let entries := value.splitOn ':'
  let ended := (value.take (bufferSize - 1)).count ':'
  if value.length < bufferSize then [] ∉ entries.take capacity
  else capacity = 0 ∨ 0 < ended ∧ [] ∉ (entries.take ended).take capacity ∧
    (ended < capacity → value[bufferSize - 1]? = some ':' → entries.getD ended [] = [])

/-- The complete entries that are not empty are stored, for which values, buffers and arrays. -/
theorem entries_are_stored_iff (value : List Char) (bufferSize capacity : Nat) :
    (∃ fuel, storeEntries value bufferSize capacity fuel =
        some (((completeEntries value bufferSize).filter (· ≠ [])).take capacity)) ↔ Storable value bufferSize capacity := by
  refine (storeLoop_eq _ [] (Nat.zero_le _)).trans ?_
  rw [completeEntries_eq, Storable]
  simp only [nil_append, length_nil, Nat.sub_zero]
  by_cases hsize : value.length < bufferSize
  · rw [if_pos hsize, if_pos hsize, entriesEnvBuf, if_neg (by omega)]
    exact ⟨And.left, fun h => ⟨h, take_filter_of_notMem h⟩⟩
  rw [if_neg hsize, if_neg hsize, kept_eq (by omega)]
  rcases Nat.eq_zero_or_pos capacity with rfl | hcap
  · simp
  rw [or_iff_right (by omega), count_pos_iff]
  split
  · rename_i hsep
    rw [and_iff_right hsep]
    refine and_congr_right fun hempty => ?_
    obtain ⟨k, rfl⟩ : ∃ k, bufferSize = k + 1 := ⟨bufferSize - 1, by cases bufferSize <;> simp at hsep ⊢⟩
    rw [Nat.add_sub_cancel] at hempty hsep ⊢
    rw [take_add_one, count_append]
    generalize (value.take k).count ':' = ended at hempty ⊢
    generalize value.splitOn ':' = entries at hempty ⊢
    by_cases hend : value[k]? = some ':'
    · simp only [hend, Option.toList_some, count_singleton_self, forall_const]
      by_cases hroom : ended < capacity
      · have hall := take_filter_of_notMem hempty
        have hlen : (entries.take ended).length < capacity := by simp; omega
        rw [take_of_length_le hlen.le] at hall ⊢
        rw [take_of_length_le ((length_filter_le ..).trans hlen.le)] at hall
        rw [take_add_one, filter_append, hall, getD_eq_getElem?_getD]
        generalize entries.take ended = kept at hlen
        cases entries[ended]? with
        | none => simp [take_of_length_le hlen.le]
        | some e =>
          rw [take_of_length_le (by grind)]
          by_cases he : e = [] <;> simp [he, hroom]
      · rw [take_take, Nat.min_eq_left (by omega)] at hempty ⊢
        rw [take_filter_of_notMem, take_take, Nat.min_eq_left (by omega)]
        · simp [hroom]
        · rwa [take_take, Nat.min_eq_left (by omega)]
    · have hnone : count ':' value[k]?.toList = 0 := by
        cases hk : value[k]? <;> simp_all
      rw [hnone, Nat.add_zero, take_filter_of_notMem hempty]
      simp [hend]
  · rename_i hsep
    obtain ⟨k, rfl⟩ : ∃ k, capacity = k + 1 := ⟨capacity - 1, by omega⟩
    simp [hsep]

theorem an_empty_entry_is_not_left : ¬∃ fuel stored, storeEntries "/a::/b".toList 4096 32 fuel = some stored := by
  rintro ⟨fuel, stored, h⟩
  exact ((storeLoop_eq _ [] (Nat.zero_le _)).1 ⟨fuel, h⟩).1 (by decide)

end Firebuild.Parsers
