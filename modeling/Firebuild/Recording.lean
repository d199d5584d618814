/-
  Firebuild.Recording — sequences of calls to pipe recorders (`pipe_recorder.cc`).

  A call gives a chunk to every active recorder of a list, from a buffer, a pipe or a file; a
  recorder may be in a list several times and gets the chunk as often. A call goes through if
  its assertions hold (`proper`): there is data, a file is as long as it is said to be,
  something taken out of a pipe has an active recorder to go to (that is in the list once: its
  buffer may move if it is appended to while it is copied from), and a recorder is deactivated
  once. `alloc` says for each call which reallocations succeed.

  Proved: `recorders_faithful`; `short_data_in_a_file` after a failed first allocation.
-/

import Firebuild.PipeRecorder

namespace Firebuild

open Function (update_of_ne update_self)
open List

inductive RecorderCall where
  | fromBuffer (alloc : Nat → Bool) (d : Bytes) (is : List Nat)
  | fromUnixPipe (alloc : Nat → Bool) (d : Bytes) (is : List Nat)
  /-- The file may be longer than what is recorded. -/
  | fromRegularFd (alloc : Nat → Bool) (file : Bytes) (len : Nat) (is : List Nat)
  | deactivate (i : Nat)

def spares (alloc : Nat → Bool) (maxInline : Nat) (d : Bytes) : List Nat → (Nat → PipeRecorder) → Bool
  | [], _ => true
  | i :: is, recs =>
    if (recs i).deactivated then spares alloc maxInline d is recs
    else if (recs i).data.Loses alloc maxInline d.length then false
    else
      match (recs i).addDataFromBuffer alloc maxInline d with
      | none => true
      | some r => spares alloc maxInline d is (Function.update recs i r)

namespace RecorderCall

def alloc : RecorderCall → Nat → Bool
  | fromBuffer alloc _ _ | fromUnixPipe alloc _ _ | fromRegularFd alloc _ _ _ => alloc
  | deactivate _ => fun _ => true

def recorders : RecorderCall → List Nat
  | fromBuffer _ _ is | fromUnixPipe _ _ is | fromRegularFd _ _ _ is => is
  | deactivate _ => []

def chunk : RecorderCall → Bytes
  | fromBuffer _ d _ | fromUnixPipe _ d _ => d
  | fromRegularFd _ file len _ => file.take len
  | deactivate _ => []

/-- Some buffer that would be inlined cannot be allocated. -/
def Refuses (maxInline : Nat) (c : RecorderCall) : Prop := ∃ n ≤ maxInline, c.alloc n = false

def run (maxInline : Nat) (recs : Nat → PipeRecorder) : RecorderCall → Option (Nat → PipeRecorder)
  | fromBuffer alloc d is => recordDataFromBuffer alloc maxInline d is recs
  | fromUnixPipe alloc d is => recordDataFromUnixPipe alloc maxInline d is recs
  | fromRegularFd alloc file len is => recordDataFromRegularFd alloc maxInline file len is recs
  | deactivate i => if (recs i).deactivated then none else some (Function.update recs i (recs i).deactivate)

/-- The call goes through its assertions and no buffer is freed with data in it. -/
def proper (maxInline : Nat) (recs : Nat → PipeRecorder) : RecorderCall → Bool
  | fromBuffer alloc d is => !d.isEmpty && spares alloc maxInline d is recs
  | fromUnixPipe alloc d is =>
    !d.isEmpty && spares alloc maxInline d is recs && (firstActive recs is).any fun j => is.count j == 1
  | fromRegularFd alloc file len is =>
    0 < len && len ≤ file.length && spares alloc maxInline (file.take len) is recs
  | deactivate i => !(recs i).deactivated

def runAll (maxInline : Nat) : List RecorderCall → (Nat → PipeRecorder) → Option (Nat → PipeRecorder)
  | [], recs => some recs
  | c :: cs, recs => (c.run maxInline recs).bind (runAll maxInline cs)

def allProper (maxInline : Nat) : List RecorderCall → (Nat → PipeRecorder) → Bool
  | [], _ => true
  | c :: cs, recs => c.proper maxInline recs && (c.run maxInline recs).all (allProper maxInline cs)

def given (calls : List RecorderCall) (i : Nat) : Bytes :=
  calls.flatMap fun c => (List.replicate (c.recorders.count i) c.chunk).flatten

@[simp] theorem given_nil (i : Nat) : given [] i = [] := rfl

theorem given_cons (c : RecorderCall) (cs : List RecorderCall) (i : Nat) :
    given (c :: cs) i = (List.replicate (c.recorders.count i) c.chunk).flatten ++ given cs i := rfl

end RecorderCall

/-! ## One recorder -/

/-- An active recorder that has got `g`: in memory only what is inlined, in a file only more than that,
unless an allocation was refused. -/
structure PipeRecorder.Holds (maxInline : Nat) (refused : Prop) (r : PipeRecorder) (g : Bytes) : Prop where
  bytes : r.data.bytes = g
  offset : r.data.Exact
  recording : r.abandoned = false
  inlined : ∀ buffer capacity, r.data = .memory buffer capacity → buffer.length ≤ maxInline
  spilled : ∀ content offset, r.data = .file content offset → content ≠ [] ∧ (maxInline < content.length ∨ refused)

namespace PipeRecorder.Holds

variable {alloc : Nat → Bool} {maxInline : Nat} {refused refused' : Prop} {r : PipeRecorder} {g d : Bytes}

theorem fresh : PipeRecorder.Holds maxInline False {} [] where
  bytes := rfl
  offset := trivial
  recording := rfl
  inlined := by
    intro buffer capacity h
    cases h
    exact Nat.zero_le _
  spilled := by
    intro content offset h
    cases h

theorem mono (h : r.Holds maxInline refused g) (hr : refused → refused') : r.Holds maxInline refused' g where
  bytes := h.bytes
  offset := h.offset
  recording := h.recording
  inlined := h.inlined
  spilled content offset hdata := ⟨(h.spilled content offset hdata).1, (h.spilled content offset hdata).2.imp_right hr⟩

variable (alloc) in
/-- Where the data is after a chunk was appended. -/
theorem append_data (h : r.Holds maxInline refused g) (hne : d ≠ []) :
    (∀ buffer capacity, (r.data.prepareForAppend alloc maxInline d.length).append d = .memory buffer capacity →
        buffer.length ≤ maxInline) ∧
      ∀ content offset, (r.data.prepareForAppend alloc maxInline d.length).append d = .file content offset →
        content ≠ [] ∧ (maxInline < content.length ∨ (refused ∨ ∃ n ≤ maxInline, alloc n = false)) := by
  cases hdata : r.data with
  | memory buffer capacity =>
    rw [RecorderData.prepareForAppend]
    by_cases hlen : buffer.length + d.length ≤ maxInline
    · rw [if_pos hlen]
      by_cases hcap : capacity < buffer.length + d.length
      · rw [if_pos hcap]
        cases hall : alloc (buffer.length + d.length) with
        | true =>
          refine ⟨?_, fun _ _ h => (by cases h)⟩
          rintro _ _ ⟨⟩
          rwa [length_append]
        | false =>
          refine ⟨fun _ _ h => (by cases h), ?_⟩
          rintro _ _ ⟨⟩
          exact ⟨by simpa using hne, .inr (.inr ⟨_, hlen, hall⟩)⟩
      · rw [if_neg hcap]
        refine ⟨?_, fun _ _ h => (by cases h)⟩
        rintro _ _ ⟨⟩
        rwa [length_append]
    · rw [if_neg hlen]
      refine ⟨fun _ _ h => (by cases h), ?_⟩
      rintro _ _ ⟨⟩
      refine ⟨by simp [hne], .inl ?_⟩
      rw [length_append]
      omega
  | file content offset =>
    refine ⟨fun _ _ h => (by cases h), ?_⟩
    rintro _ _ ⟨⟩
    refine ⟨by simp [hne], ?_⟩
    rcases (h.spilled content offset hdata).2 with hlong | hr
    · rw [length_append]
      exact .inl (by omega)
    · exact .inr (.inl hr)

/-- An active recorder takes a chunk and has it after the others. -/
theorem add (h : r.Holds maxInline refused g) (hact : r.Active) (hne : d ≠ [])
    (hl : ¬r.data.Loses alloc maxInline d.length) :
    ∃ r', r.addDataFromBuffer alloc maxInline d = some r' ∧ r'.Active ∧
      r'.Holds maxInline (refused ∨ ∃ n ≤ maxInline, alloc n = false) (g ++ d) := by
  have hok : ¬(r.deactivated = true ∨ r.abandoned = true ∨ d = []) := by
    rintro (hd | ha | hd)
    · exact nomatch hd.symm.trans hact
    · exact nomatch ha.symm.trans h.recording
    · exact hne hd
  obtain ⟨hinlined, hspilled⟩ := h.append_data alloc hne
  refine ⟨_, if_neg hok, hact, ?_, ?_, h.recording, hinlined, hspilled⟩
  · rw [RecorderData.bytes_append, RecorderData.prepareForAppend_bytes, if_neg hl, h.bytes]
  · exact (RecorderData.prepareForAppend_exact h.offset hl).append d

theorem store_eq (h : r.Holds maxInline refused g) (hact : r.Active) (c : Codec) (cfg : CacheConfig)
    (fail : Option StoreFailure) (b : BlobCache) :
    ∃ inlined : Bool, (g.length ≤ maxInline → ¬refused → inlined = true) ∧ (maxInline < g.length → inlined = false) ∧
      r.store c cfg fail b = if g = [] then some (.empty, b) else if inlined then some (.inlined g, b)
        else (moveStoreFile c cfg fail g b).map fun x => (.blob x.1 g.length, x.2) := by
  have hok : ¬(r.deactivated = true ∨ r.abandoned = true) := by
    rintro (hd | ha)
    · exact nomatch hd.symm.trans hact
    · exact nomatch ha.symm.trans h.recording
  have hbytes := h.bytes
  unfold PipeRecorder.store
  rw [if_neg hok]
  cases hdata : r.data with
  | memory buffer capacity =>
    rw [hdata] at hbytes
    obtain rfl : buffer = g := hbytes
    have hshort := h.inlined buffer capacity hdata
    refine ⟨true, fun _ _ => rfl, fun hlong => absurd hlong (Nat.not_lt.mpr hshort), ?_⟩
    by_cases hnil : buffer = []
    · simp [hnil]
    · simp [hnil]
  | file content offset =>
    rw [hdata] at hbytes
    obtain rfl : content = g := hbytes
    obtain ⟨hne, hwhy⟩ := h.spilled content offset hdata
    have hoffset : offset = content.length := by
      have := h.offset
      rwa [hdata] at this
    refine ⟨false, fun hshort hnot => ?_, fun _ => rfl, ?_⟩
    · rcases hwhy with hlong | hr
      · exact absurd hlong (Nat.not_lt.mpr hshort)
      · exact absurd hr hnot
    rw [if_neg hne, hoffset]
    dsimp only
    cases moveStoreFile c cfg fail content b with
    | none | some x => rfl

end PipeRecorder.Holds

/-! ## One call -/

variable {alloc : Nat → Bool} {maxInline : Nat} {d : Bytes} {is : List Nat} {recs recs' : Nat → PipeRecorder}
  {g : Nat → Bytes} {refused : Nat → Prop}

/-- The recorders that are active have what they were given, the others nothing. -/
structure Gathered (maxInline : Nat) (refused : Nat → Prop) (recs : Nat → PipeRecorder) (g : Nat → Bytes) : Prop where
  active : ∀ i, (recs i).Active → (recs i).Holds maxInline (refused i) (g i)
  deactivated : ∀ i, (recs i).deactivated = true → (recs i).data = .memory [] 0

theorem Gathered.update
    (h : Gathered maxInline refused recs g) (hr : r.Active) (hholds : r.Holds maxInline (refused' i) (g' i))
    (hg : ∀ k, k ≠ i → g' k = g k) (hrefused : ∀ k, refused k → refused' k) :
    Gathered maxInline refused' (Function.update recs i r) g' := by
  constructor
  · intro k hk
    by_cases hki : k = i
    · subst hki
      rwa [update_self]
    rw [update_of_ne hki] at hk ⊢
    rw [hg k hki]
    exact (h.active k hk).mono (hrefused k)
  · intro k hk
    by_cases hki : k = i
    · subst hki
      rw [update_self] at hk
      exact nomatch hk.symm.trans hr
    · rw [update_of_ne hki] at hk ⊢
      exact h.deactivated k hk

/-- The loop gives every active recorder the chunk as often as it is in the list. -/
theorem recordEach_gathered (h : Gathered maxInline refused recs g) (hne : d ≠ [])
    (hspares : spares alloc maxInline d is recs = true) :
    ∃ recs', recordEach (·.addDataFromBuffer alloc maxInline d) is recs = some recs' ∧
      (∀ i, (recs' i).deactivated = (recs i).deactivated) ∧
      Gathered maxInline (fun i => refused i ∨ i ∈ is ∧ ∃ n ≤ maxInline, alloc n = false) recs'
        fun i => g i ++ (List.replicate (is.count i) d).flatten := by
  induction is generalizing recs g refused with
  | nil =>
    refine ⟨recs, rfl, fun _ => rfl, fun i hi => ?_, h.deactivated⟩
    simpa using (h.active i hi)
  | cons j js ih =>
    rw [spares] at hspares
    rw [recordEach]
    by_cases hd : (recs j).deactivated = true
    · rw [if_pos hd] at hspares ⊢
      obtain ⟨recs', hrun, hsame, hrec⟩ := ih h hspares
      refine ⟨recs', hrun, hsame, fun i hi => ?_, hrec.deactivated⟩
      have hij : i ≠ j := by
        rintro rfl
        exact absurd (hi.symm.trans (hsame i)) (by rw [hd]; decide)
      rw [count_cons_of_ne (Ne.symm hij)]
      exact (hrec.active i hi).mono (Or.imp_right (And.imp_left (mem_cons_of_mem _)))
    · have hact : (recs j).Active := by simpa [PipeRecorder.Active] using hd
      rw [if_neg hd] at hspares ⊢
      by_cases hl : (recs j).data.Loses alloc maxInline d.length
      · rw [if_pos hl] at hspares
        cases hspares
      rw [if_neg hl] at hspares
      obtain ⟨r, hadd, hr, hholds⟩ := (h.active j hact).add hact hne hl
      rw [hadd] at hspares ⊢
      have hstep : Gathered maxInline (fun i => refused i ∨ i = j ∧ ∃ n ≤ maxInline, alloc n = false)
          (Function.update recs j r) (fun i => if i = j then g i ++ d else g i) :=
        h.update hr (by simpa using hholds) (fun k hk => if_neg hk) fun k hk => .inl hk
      obtain ⟨recs', hrun, hsame, hrec⟩ := ih hstep hspares
      refine ⟨recs', hrun, fun i => ?_, fun i hi => ?_, hrec.deactivated⟩
      · rw [hsame i]
        by_cases hij : i = j
        · subst hij
          rw [update_self]
          exact hr.trans hact.symm
        · rw [update_of_ne hij]
      · have hi' := hrec.active i hi
        by_cases hij : i = j
        · subst hij
          rw [if_pos rfl, append_assoc] at hi'
          rw [count_cons_self, replicate_succ]
          refine hi'.mono ?_
          rintro ((hr | hr) | hr)
          · exact .inl hr
          · exact .inr ⟨mem_cons_self, hr.2⟩
          · exact .inr ⟨mem_cons_self, hr.2⟩
        · rw [if_neg hij] at hi'
          rw [count_cons_of_ne (Ne.symm hij)]
          refine hi'.mono ?_
          rintro ((hr | hr) | hr)
          · exact .inl hr
          · exact absurd hr.1 hij
          · exact .inr ⟨mem_cons_of_mem _ hr.1, hr.2⟩

theorem recordDataFromBuffer_of_ne_nil (hne : d ≠ []) :
    recordDataFromBuffer alloc maxInline d is recs = recordEach (·.addDataFromBuffer alloc maxInline d) is recs :=
  if_neg hne

theorem spares_first (h : spares alloc maxInline d is recs = true) (hfirst : firstActive recs is = some j) :
    ¬(recs j).data.Loses alloc maxInline d.length := by
  induction is with
  | nil => cases hfirst
  | cons i is ih =>
    rw [spares] at h
    by_cases hd : (recs i).deactivated = true
    · rw [if_pos hd] at h
      exact ih h (by simpa [firstActive, hd] using hfirst)
    rw [if_neg hd] at h
    obtain rfl : i = j := by simpa [firstActive, hd] using hfirst
    intro hl
    rw [if_pos hl] at h
    cases h

namespace RecorderCall

/-- A proper call goes through, whichever way the data comes. -/
theorem run_gathered (h : Gathered maxInline refused recs g) (hproper : c.proper maxInline recs = true) :
    ∃ recs', c.run maxInline recs = some recs' ∧
      (∀ i, (recs' i).Active ↔ (recs i).Active ∧ c ≠ deactivate i) ∧
      Gathered maxInline (fun i => refused i ∨ i ∈ c.recorders ∧ c.Refuses maxInline) recs'
        fun i => g i ++ (List.replicate (c.recorders.count i) c.chunk).flatten := by
  cases c with
  | fromBuffer alloc d is =>
    obtain ⟨hne, hspares⟩ : d ≠ [] ∧ spares alloc maxInline d is recs = true := by simpa [proper] using hproper
    obtain ⟨recs', hrun, hsame, hrec⟩ := recordEach_gathered h hne hspares
    refine ⟨recs', (recordDataFromBuffer_of_ne_nil hne).trans hrun, fun i => ?_, hrec⟩
    simp [PipeRecorder.Active, hsame i]
  | fromUnixPipe alloc d is =>
    obtain ⟨⟨hne, hspares⟩, j, hfirst, -⟩ : (d ≠ [] ∧ spares alloc maxInline d is recs = true) ∧
        ∃ j, firstActive recs is = some j ∧ is.count j = 1 := by
      simpa [proper, Option.any_eq_true] using hproper
    obtain ⟨recs', hrun, hsame, hrec⟩ := recordEach_gathered h hne hspares
    have hj : (recs j).Active := by simpa [PipeRecorder.Active] using List.find?_some hfirst
    have heq : recordDataFromUnixPipe alloc maxInline d is recs = recordDataFromBuffer alloc maxInline d is recs :=
      recordDataFromUnixPipe_eq_of_first hfirst (h.active j hj).offset (spares_first hspares hfirst)
    refine ⟨recs', heq.trans ((recordDataFromBuffer_of_ne_nil hne).trans hrun), fun i => ?_, hrec⟩
    simp [PipeRecorder.Active, hsame i]
  | fromRegularFd alloc file len is =>
    obtain ⟨⟨hpos, hlen⟩, hspares⟩ : (0 < len ∧ len ≤ file.length) ∧ spares alloc maxInline (file.take len) is recs = true := by
      simpa [proper] using hproper
    have hne : file.take len ≠ [] := by
      intro hnil
      have := congrArg List.length hnil
      rw [length_take_of_le hlen] at this
      exact absurd this (Nat.pos_iff_ne_zero.mp hpos)
    obtain ⟨recs', hrun, hsame, hrec⟩ := recordEach_gathered h hne hspares
    have heq : recordDataFromRegularFd alloc maxInline file len is recs =
        recordEach (·.addDataFromBuffer alloc maxInline (file.take len)) is recs := by
      unfold recordDataFromRegularFd
      rw [if_neg (Nat.pos_iff_ne_zero.mp hpos)]
      refine recordEach_congr fun r => ?_
      unfold PipeRecorder.addDataFromRegularFd
      rw [drop_zero, if_pos (length_take_of_le hlen)]
    refine ⟨recs', heq.trans hrun, fun i => ?_, hrec⟩
    simp [PipeRecorder.Active, hsame i]
  | deactivate j =>
    have hj : (recs j).deactivated = false := by simpa [proper] using hproper
    refine ⟨Function.update recs j (recs j).deactivate, if_neg (by rw [hj]; decide), fun i => ?_, fun i hi => ?_, fun i hi => ?_⟩
    · by_cases hij : i = j
      · subst hij
        simp [PipeRecorder.Active, PipeRecorder.deactivate]
      · rw [update_of_ne hij]
        simp [Ne.symm hij]
    · by_cases hij : i = j
      · subst hij
        rw [update_self] at hi
        cases hi
      · rw [update_of_ne hij] at hi ⊢
        simpa [recorders] using (h.active i hi)
    · by_cases hij : i = j
      · subst hij
        rw [update_self]
        rfl
      · rw [update_of_ne hij] at hi ⊢
        exact h.deactivated i hi

/-! ## All the calls -/

theorem runAll_gathered (h : Gathered maxInline refused recs g)
    (hproper : allProper maxInline calls recs = true) :
    ∃ recs', runAll maxInline calls recs = some recs' ∧
      (∀ i, (recs' i).Active ↔ (recs i).Active ∧ deactivate i ∉ calls) ∧
      Gathered maxInline (fun i => refused i ∨ ∃ c ∈ calls, i ∈ c.recorders ∧ c.Refuses maxInline) recs'
        fun i => g i ++ given calls i := by
  induction calls generalizing recs g refused with
  | nil =>
    refine ⟨recs, rfl, fun i => by simp, fun i hi => ?_, h.deactivated⟩
    simpa using h.active i hi
  | cons c cs ih =>
    rw [allProper, Bool.and_eq_true] at hproper
    obtain ⟨recs1, hrun, hact, hrec⟩ := run_gathered h hproper.1
    rw [hrun] at hproper
    obtain ⟨recs', hrun', hact', hrec'⟩ := ih hrec hproper.2
    refine ⟨recs', by rw [runAll, hrun]; exact hrun', fun i => ?_, fun i hi => ?_, hrec'.deactivated⟩
    · rw [hact' i, hact i, and_assoc, mem_cons, not_or, ne_comm]
    have hi' := hrec'.active i hi
    rw [given_cons, ← append_assoc]
    refine hi'.mono ?_
    rintro ((hr | ⟨hmem, hr⟩) | ⟨c', hc', hr⟩)
    · exact .inl hr
    · exact .inr ⟨c, mem_cons_self, hmem, hr⟩
    · exact .inr ⟨c', mem_cons_of_mem _ hc', hr⟩

/-- Whatever calls are made to recorders, as long as each goes through its assertions and no reallocation
fails for a recorder with data in memory: exactly the recorders that were not deactivated are active, and
storing one of them yields all that it was given. It is inlined if it is not too long and no allocation was
refused, and a blob with its hash if it is too long. What was deactivated has no data. -/
theorem recorders_faithful (maxInline : Nat) (calls : List RecorderCall)
    (hproper : allProper maxInline calls (fun _ => {}) = true) :
    ∃ recs, runAll maxInline calls (fun _ => {}) = some recs ∧ ∀ i,
      ((recs i).Active ↔ deactivate i ∉ calls) ∧
      ((recs i).deactivated = true → (recs i).data = .memory [] 0) ∧
      ((recs i).Active → ∀ c cfg fail b, ∃ inlined : Bool,
        ((given calls i).length ≤ maxInline → (∀ call ∈ calls, i ∈ call.recorders → ¬call.Refuses maxInline) →
          inlined = true) ∧
        (maxInline < (given calls i).length → inlined = false) ∧
        (recs i).store c cfg fail b =
          (if given calls i = [] then some (.empty, b)
          else if inlined then some (.inlined (given calls i), b)
          else (moveStoreFile c cfg fail (given calls i) b).map fun x => (.blob x.1 (given calls i).length, x.2)) ∧
        ∀ key b', moveStoreFile c cfg fail (given calls i) b = some (key, b') → key = c.hash (given calls i)) := by
  have hfresh : Gathered maxInline (fun _ => False) (fun _ => ({} : PipeRecorder)) fun _ => [] :=
    ⟨fun _ _ => .fresh, fun _ => nofun⟩
  obtain ⟨recs, hrun, hact, hrec⟩ := runAll_gathered hfresh hproper
  refine ⟨recs, hrun, fun i => ⟨?_, hrec.deactivated i, fun hi c cfg fail b => ?_⟩⟩
  · rw [hact i]
    exact and_iff_right rfl
  obtain ⟨inlined, hshort, hlong, hstore⟩ := (hrec.active i hi).store_eq hi c cfg fail b
  refine ⟨inlined, fun hlen hnone => hshort hlen ?_, hlong, hstore, fun key b' h => (moveStoreFile_spec h).1⟩
  rintro (hr | ⟨call, hcall, hmem, hr⟩)
  · exact hr
  · exact hnone call hcall hmem hr

/-- Two recorders get a byte each from a buffer and from a pipe and spill; one is then deactivated, the
other one gets another byte. -/
theorem recorders_faithful_spill : ∃ recs,
    runAll 1 [fromBuffer (fun _ => true) [7] [0, 1], fromUnixPipe (fun _ => true) [8] [0, 1], deactivate 0,
      fromRegularFd (fun _ => true) [9, 10] 1 [0, 1]] (fun _ => {}) = some recs ∧
      (recs 0).data = .memory [] 0 ∧
      ((recs 1).store magicCodec {} none .empty).map Prod.fst = some (.blob (magicCodec.hash [7, 8, 9]) 3) := by
  obtain ⟨recs, hrun, h⟩ := recorders_faithful 1 [fromBuffer (fun _ => true) [7] [0, 1],
    fromUnixPipe (fun _ => true) [8] [0, 1], deactivate 0, fromRegularFd (fun _ => true) [9, 10] 1 [0, 1]] (by decide)
  refine ⟨recs, hrun, ?_, ?_⟩
  · cases hrun
    rfl
  obtain ⟨inlined, -, hlong, hstore, -⟩ := (h 1).2.2 ((h 1).1.mpr (by simp)) magicCodec {} none .empty
  rw [hstore, hlong (by decide)]
  rfl

/-- Not what is inlined is always short, nor has a chunk from a pipe always someone to go to: the first
allocation fails and one byte becomes a blob; a list without an active recorder is taken out of its bounds. -/
theorem short_data_in_a_file :
    ((runAll 4096 [fromBuffer (fun _ => false) [7] [0]] (fun _ => {})).bind fun recs =>
        ((recs 0).store magicCodec {} none .empty).map Prod.fst) = some (.blob (magicCodec.hash [7]) 1) ∧
      (runAll 4096 [deactivate 0, fromUnixPipe (fun _ => true) [7] [0]] (fun _ => {})).isNone = true := by
  decide

end RecorderCall
end Firebuild
