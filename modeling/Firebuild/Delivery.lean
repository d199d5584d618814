/-
  Firebuild.Delivery — no byte gets lost in a pipe (`pipe.cc`: `forward`, `send_buf`,
  `add_data_from_fd`, `add_data_from_buffer`, `finish`).

  Data goes straight from an end to the reading end by tee() or splice() as long as the buffer is
  empty, and through the buffer else. Either way every active recorder of the end gets a copy.

  `finish` sends what is buffered once more and closes the reading end. If that is full at
  this moment, EAGAIN is not waited for: the buffered data is lost, though the reader is still
  there. A timer that was started when the last end was closed leads to it, too: replayed
  data may have been added to the pipe since.

  Proved: `pipe_delivers`; `finish_discards_what_is_not_taken`.
-/

import Firebuild.PipeEnds

namespace Firebuild

open Option (map_eq_some_iff)
open List
namespace PipeState

variable {dup : Nat → Nat} {env : PipeEnv} {s s' : PipeState} {ws : List WriteResult} {e : Nat} {allocs flushes : Prop}
  {alloc : Nat → Bool} {d : Bytes}

/-! ## What arrived -/

def arrivedBytes (s : PipeState) : Bytes := s.arrived.flatMap Prod.snd

def arrivedFor (s : PipeState) (r : Nat) : Bytes :=
  (s.arrived.filter fun x => x.1.any fun e => (s.ends e).recorders.contains r).flatMap Prod.snd

/-- No byte is lost; `allocs` says that the recorders get their memory, `flushes` that `finish`
    gets rid of the data. -/
structure Delivering (allocs flushes : Prop) (s : PipeState) : Prop where
  stream : s.sent ++ s.buf.bytes = s.arrivedBytes
  recorded : allocs → ∀ r, (s.recs r).Active → (s.recs r).data.bytes = s.arrivedFor r ∧ (s.recs r).data.Exact
  known : ∀ x ∈ s.arrived, ∀ e, x.1 = some e → e < s.nextEnd
  kept : flushes → s.finished = true → s.buf.bytes = [] ∨ s.fd0Failed = true

/-- A pipe that is finished has sent everything, or has no reader. -/
def Drained (s : PipeState) : Prop := s.finished = true → s.buf.bytes = [] ∨ s.fd0Failed = true

/-- The part of the state that sending does not change. -/
def trace (s : PipeState) : (Nat → PipeRecorder) × List (Option Nat × Bytes) × (Nat → PipeEnd) × Nat :=
  (s.recs, s.arrived, s.ends, s.nextEnd)

theorem Delivering.congr (h : Delivering allocs flushes s) (htrace : s'.trace = s.trace)
    (hstream : s'.sent ++ s'.buf.bytes = s.sent ++ s.buf.bytes)
    (hkept : flushes → s'.Drained) : Delivering allocs flushes s' := by
  simp only [trace, Prod.mk.injEq] at htrace
  obtain ⟨hrecs, harrived, hends, hnext⟩ := htrace
  refine ⟨?_, fun ha r hr => ?_, fun x hx e he => ?_, hkept⟩
  · rw [hstream, h.stream, arrivedBytes, arrivedBytes, harrived]
  · rw [hrecs] at hr ⊢
    obtain ⟨hbytes, hexact⟩ := h.recorded ha r hr
    exact ⟨by rw [hbytes, arrivedFor, arrivedFor, harrived, hends], hexact⟩
  rw [harrived] at hx
  rw [hnext]
  exact h.known x hx e he

theorem Sends.trace (h : Sends r s s') : s'.trace = s.trace := by
  obtain ⟨fd0, m, ep, mode, sent, b, closed, rfl⟩ := h.only
  rfl

/-! ## Recording -/

def Records (d : Bytes) (is : List Nat) (recs recs' : Nat → PipeRecorder) : Prop :=
  ∀ r, (recs' r).Active → (recs r).Active ∧ ((recs r).data.Exact → (recs' r).data.Exact ∧
    (recs' r).data.bytes = (recs r).data.bytes ++ if r ∈ is then d else [])

variable {maxInline n : Nat}

theorem not_loses (halloc : ∀ n, alloc n = true) (r : RecorderData) : ¬r.Loses alloc maxInline n := by
  intro hl
  cases r with
  | memory buffer capacity => exact nomatch (halloc _).symm.trans hl.2.2.2
  | file content offset => exact hl

theorem addDataFromBuffer_exact {r r' : PipeRecorder}
    (h : r.addDataFromBuffer alloc maxInline d = some r') (hl : ¬r.data.Loses alloc maxInline d.length)
    (hexact : r.data.Exact) : r'.data.Exact := by
  unfold PipeRecorder.addDataFromBuffer at h
  split at h
  · cases h
  · cases h
    exact (RecorderData.prepareForAppend_exact hexact hl).append d

variable {is : List Nat} {recs recs' : Nat → PipeRecorder}

theorem recordDataFromBuffer_records (halloc : ∀ n, alloc n = true) (hnd : is.Nodup)
    (h : recordDataFromBuffer alloc maxInline d is recs = some recs') : Records d is recs recs' := by
  intro r hr
  have hspec := recordDataFromBuffer_spec hnd h r
  by_cases hmem : r ∈ is ∧ (recs r).Active
  · rw [if_pos hmem] at hspec
    refine ⟨hmem.2, fun hexact => ⟨?_, by rw [hspec.2, if_neg (not_loses halloc _), if_pos hmem.1]⟩⟩
    unfold recordDataFromBuffer at h
    split at h
    · cases h
    have hadd := recordEach_spec hnd h r
    rw [if_pos hmem] at hadd
    exact addDataFromBuffer_exact hadd (not_loses halloc _) hexact
  · rw [if_neg hmem] at hspec
    rw [hspec] at hr ⊢
    have hnot : r ∉ is := fun hm => hmem ⟨hm, hr⟩
    exact ⟨hr, fun hexact => ⟨hexact, by rw [if_neg hnot, append_nil]⟩⟩

theorem Records.nil (is : List Nat) (recs : Nat → PipeRecorder) : Records [] is recs recs :=
  fun _ hr => ⟨hr, fun hexact => ⟨hexact, by simp⟩⟩

theorem Records.trans (h : Records d is recs recs1)
    (h' : Records d' is recs1 recs') : Records (d ++ d') is recs recs' := by
  intro r hr
  obtain ⟨hactive1, hstep'⟩ := h' r hr
  obtain ⟨hactive, hstep⟩ := h r hactive1
  refine ⟨hactive, fun hexact => ?_⟩
  obtain ⟨hexact1, hbytes1⟩ := hstep hexact
  obtain ⟨hexact', hbytes'⟩ := hstep' hexact1
  refine ⟨hexact', ?_⟩
  rw [hbytes', hbytes1]
  by_cases hmem : r ∈ is
  · simp [hmem]
  · simp [hmem]

/-! ## Forwarding -/

/-- What forwarding from an end does: the data `t` comes through the end, is sent or buffered, and
    is recorded by the active recorders of the end. -/
structure Forwards (env : PipeEnv) (e : Nat) (t : List (Option Nat × Bytes)) (s s' : PipeState) : Prop where
  ffds : s'.ffd2fd1Ends = s.ffd2fd1Ends
  ends : s'.ends = s.ends
  nextEnd : s'.nextEnd = s.nextEnd
  procs : s'.proc2recorders = s.proc2recorders
  arrived : s'.arrived = s.arrived ++ t
  source : ∀ x ∈ t, x.1 = some e
  stream : s'.sent ++ s'.buf.bytes = s.sent ++ s.buf.bytes ++ t.flatMap Prod.snd
  records : (∀ n, env.alloc n = true) → (∀ r ∈ (s.ends e).recorders, (s.recs r).Active → (s.recs r).data.Exact) →
    Records (t.flatMap Prod.snd) (s.ends e).recorders s.recs s'.recs

theorem Forwards.refl (env : PipeEnv) (e : Nat) (s : PipeState) : Forwards env e [] s s :=
  ⟨rfl, rfl, rfl, rfl, by simp, by simp, by simp, fun _ _ => .nil _ _⟩

theorem Forwards.trans (h : Forwards env e t s s1)
    (h' : Forwards env e t' s1 s') : Forwards env e (t ++ t') s s' := by
  refine ⟨h'.ffds.trans h.ffds, h'.ends.trans h.ends, h'.nextEnd.trans h.nextEnd, h'.procs.trans h.procs, ?_, ?_, ?_, ?_⟩
  · rw [h'.arrived, h.arrived, append_assoc]
  · intro x hx
    rcases mem_append.mp hx with hx | hx
    · exact h.source x hx
    · exact h'.source x hx
  · rw [h'.stream, h.stream, flatMap_append, append_assoc]
  · intro halloc hexact
    have hfirst := h.records halloc hexact
    have hsecond := h'.records halloc
    rw [h.ends] at hsecond
    rw [flatMap_append]
    refine hfirst.trans (hsecond fun r hr hactive => ?_)
    obtain ⟨hactive0, hstep⟩ := hfirst r hactive
    exact (hstep (hexact r hr hactive0)).1

theorem Sends.forwards (h : Sends r s s') (env : PipeEnv) (e : Nat) : Forwards env e [] s s' := by
  have hstream := h.stream
  obtain ⟨fd0, m, ep, mode, sent, b, closed, rfl⟩ := h.only
  exact ⟨rfl, rfl, rfl, rfl, by simp, by simp, by simpa using hstream, fun _ _ => .nil _ _⟩

theorem forwardDirect_forwards (hempty : s.buf.bytes = []) (h : s.forwardDirect env e ds = some s') :
    ∃ t, Forwards env e t s s' := by
  induction ds generalizing s with
  | nil =>
    cases h
    exact ⟨[], .refl _ _ _⟩
  | cons d ds ih =>
    rw [forwardDirect] at h
    split at h
    · cases h
      exact ⟨[], .refl _ _ _⟩
    have hstream : (s.passed e d).sent ++ (s.passed e d).buf.bytes = s.sent ++ s.buf.bytes ++ d := by
      simp [passed, hempty]
    split at h
    · rename_i hactive
      split at h
      · cases h
      rename_i recs hrecord
      have hpassed : Forwards env e [(some e, d)] s { s.passed e d with recs } := by
        refine ⟨rfl, rfl, rfl, rfl, rfl, by simp, by simpa using hstream, fun halloc hexact => ?_⟩
        have hact : ∃ i ∈ (s.ends e).recorders, (s.recs i).Active := by
          obtain ⟨i, hi, hact⟩ := any_eq_true.mp hactive
          exact ⟨i, hi, by simpa [PipeRecorder.Active] using hact⟩
        rw [recordDataFromUnixPipe_eq hexact (fun i _ _ => not_loses halloc _) hact] at hrecord
        simpa using recordDataFromBuffer_records halloc (s.ends e).nodup hrecord
      obtain ⟨t, ht⟩ := ih (s := { s.passed e d with recs }) hempty h
      exact ⟨_, hpassed.trans ht⟩
    · rename_i hinactive
      have hpassed : Forwards env e [(some e, d)] s (s.passed e d) := by
        refine ⟨rfl, rfl, rfl, rfl, rfl, by simp, by simpa using hstream, fun _ _ r hr => ⟨hr, fun hexact => ⟨hexact, ?_⟩⟩⟩
        -- no active recorder is among those of the end
        have hnot : r ∉ (s.ends e).recorders := by
          intro hmem
          refine hinactive (any_eq_true.mpr ⟨r, hmem, ?_⟩)
          have hr : (s.recs r).deactivated = false := hr
          rw [hr]
          rfl
        rw [if_neg hnot, append_nil]
        rfl
      obtain ⟨t, ht⟩ := ih (s := s.passed e d) hempty h
      exact ⟨_, hpassed.trans ht⟩

variable {b : LinearBuffer}

theorem received_forwards (hn : n = d.length) (hb : b.bytes = s.buf.bytes ++ d)
    (h : s.received env e n b = some s') : Forwards env e [(some e, d)] s s' := by
  have hdata : b.bytes.drop (b.length - n) = d := by
    have hlen : b.length - n = s.buf.bytes.length := by
      rw [← LinearBuffer.length_bytes b, hb, length_append]
      omega
    rw [hlen, hb, drop_left]
  unfold received at h
  dsimp only at h
  rw [hdata] at h
  split at h
  · cases h
  rename_i recs hrecord
  cases h
  refine ⟨rfl, rfl, rfl, rfl, rfl, by simp, ?_, fun halloc _ => ?_⟩
  · simp [hb]
  · simpa using recordDataFromBuffer_records halloc (s.ends e).nodup hrecord

variable {rs : List ForwardRound} {other : PipeState → PipeState} {r : ForwardResult} {fd : Nat}

variable {drain : Bool} {adds : Prop}

theorem forwardLoop_forwards (hrun : s.forwardLoop env e drain rs = some (r, s')) :
    (∃ t, Forwards env e t s s') ∧ s'.finished = false ∧ (r = .sending .fd0Epipe → s'.fd0Failed = true) := by
  induction rs generalizing s with
  | nil =>
    obtain ⟨⟨r', s1⟩, hsend, ⟨⟩⟩ := map_eq_some_iff.mp hrun
    have hsends := sendBuf_sends hsend
    exact ⟨⟨[], hsends.forwards env e⟩, hsends.open, fun hr => hsends.epipe (by cases hr; rfl)⟩
  | cons round rs ih =>
    obtain ⟨s1, x, b, hdirect, hx, hround⟩ := forwardLoop_cons hrun
    obtain ⟨t1, hs1⟩ : ∃ t, Forwards env e t s s1 := by
      split at hdirect
      · rename_i hempty
        exact forwardDirect_forwards (bufferEmpty_iff.mp hempty) hdirect
      · cases hdirect
        exact ⟨[], .refl _ _ _⟩
    have hread := s1.buf.readAll_spec round.read
    rw [hx] at hread
    rcases hround with ⟨hnothing, r', hsend, hr⟩ | ⟨n, s2, r', s3, rfl, hreceived, hsend, hrest⟩
    · have hb : b.bytes = s1.buf.bytes := by
        rcases hread with ⟨d, rfl, hb⟩ | ⟨-, hb⟩
        · rcases hnothing with h0 | ⟨err, h0⟩
          · rw [hb, length_eq_zero_iff.mp (Except.ok.inj h0), append_nil]
          · cases h0
        · exact hb
      have hbuf : Forwards env e [] s1 { s1 with buf := b } :=
        ⟨rfl, rfl, rfl, rfl, by simp, by simp, by simp [hb], fun _ _ => .nil _ _⟩
      have hsends := sendBuf_sends hsend
      refine ⟨⟨_, hs1.trans (hbuf.trans (hsends.forwards env e))⟩, hsends.open, ?_⟩
      rcases hr with rfl | rfl
      · exact nofun
      · exact fun hr => hsends.epipe (by cases hr; rfl)
    obtain ⟨d, hn, hb⟩ := hread.resolve_right fun h => by cases h.1.choose_spec
    have hs2 := received_forwards (Except.ok.inj hn) hb hreceived
    have hsends := sendBuf_sends hsend
    have hs3 := (hs1.trans hs2).trans (hsends.forwards env e)
    rcases hrest with ⟨-, -, hrun⟩ | ⟨-, rfl, rfl⟩
    · obtain ⟨⟨t, ht⟩, hrest⟩ := ih hrun
      exact ⟨⟨_, hs3.trans ht⟩, hrest⟩
    · exact ⟨⟨_, hs3⟩, hsends.open, fun hr => hsends.epipe (by cases hr; rfl)⟩

/-! ## Finishing -/

/-- The kernel takes this many bytes, or a write() fails before it says EAGAIN. -/
def takesAll : Nat → List WriteResult → Bool
  | 0, _ => true
  | _ + 1, [] => false
  | n + 1, w :: ws =>
    match w with
    | .eagain => false
    | .error | .sent 0 => true
    | .sent k => takesAll (n + 1 - k) ws

/-- Sending is blocked exactly by an EAGAIN before the last byte. -/
theorem sendBuf_blocked {r : PipeOpResult} (h : s.sendBuf dup ws = some (r, s')) :
    (takesAll s.buf.length ws = true → r ≠ .wouldBlock) ∧
      (takesAll s.buf.length ws = false → s'.buf.bytes ≠ [] ∧ s'.fd0Failed = s.fd0Failed) := by
  have hsome : ∀ {s : PipeState}, s.buf.bytes ≠ [] → ∃ n, s.buf.length = n + 1 := by
    intro s hempty
    refine Nat.exists_eq_succ_of_ne_zero fun h0 => hempty ?_
    rw [← LinearBuffer.length_bytes] at h0
    exact length_eq_zero_iff.mp h0
  replace h := sendBuf_sending h
  induction h with
  | @empty s ws _ hempty =>
    have hzero : s.buf.length = 0 := by rw [← LinearBuffer.length_bytes, hempty]; rfl
    rw [hzero, takesAll]
    exact ⟨nofun, nofun⟩
  | @blocked s s' ws _ hempty hws hmode =>
    obtain ⟨n, hn⟩ := hsome hempty
    have htakes : takesAll s.buf.length ws = false := by
      rw [hn]
      rcases hws with rfl | hws
      · rfl
      · obtain ⟨ws, rfl⟩ := List.head?_eq_some_iff.mp hws
        rfl
    obtain ⟨fd0, m, ep, rfl⟩ := setSendOnlyMode_eq hmode
    exact ⟨fun ht => (nomatch ht.symm.trans htakes), fun _ => ⟨hempty, rfl⟩⟩
  | @closed s w ws _ hempty hw =>
    obtain ⟨n, hn⟩ := hsome hempty
    have htakes : takesAll s.buf.length (w :: ws) = true := by
      rw [hn]
      rcases hw with rfl | rfl <;> rfl
    exact ⟨nofun, fun hf => nomatch htakes.symm.trans hf⟩
  | @took s s1 s' k ws r _ hempty h1 _ ih =>
    obtain ⟨n, hn⟩ := hsome hempty
    have hsame : s1.buf.length = n + 1 - (k + 1) ∧ s1.fd0Failed = s.fd0Failed := by
      split at h1
      · obtain ⟨fd0, m, ep, rfl⟩ := setSendOnlyMode_eq h1
        exact ⟨by rw [← hn]; rfl, rfl⟩
      · subst h1
        exact ⟨by rw [← hn]; rfl, rfl⟩
    rw [hsame.1, hsame.2] at ih
    rw [hn]
    exact ih

/-- Finishing the pipe sends what is buffered if the kernel takes it. -/
theorem finish_kept (hrun : s.finish dup ws = some s') (hopen : s.finished = false)
    (hflush : s.fd0Failed = true ∨ takesAll s.buf.length ws = true) : s'.buf.bytes = [] ∨ s'.fd0Failed = true := by
  unfold finish at hrun
  rw [if_neg (by rw [hopen]; decide)] at hrun
  obtain ⟨⟨r, s1⟩, hsend, rfl⟩ := map_eq_some_iff.mp hrun
  have hsends := sendBuf_sends hsend
  rcases hflush with hclosed | htakes
  · exact .inr (hsends.keptClosed hclosed)
  have hres := (sendBuf_blocked hsend).1 htakes
  cases r with
  | wouldBlock => exact absurd rfl hres
  | fd0Epipe => exact .inr (hsends.epipe rfl)
  | success => exact .inl (hsends.success rfl)

/-- Nothing is discarded exactly if the kernel takes everything. -/
theorem finish_keeps_iff (hopen : s.finished = false) (hclosed : s.fd0Failed = false) (hrun : s.finish dup ws = some s') :
    (s'.buf.bytes = [] ∨ s'.fd0Failed = true) ↔ takesAll s.buf.length ws = true := by
  refine ⟨fun h => ?_, fun htakes => finish_kept hrun hopen (.inr htakes)⟩
  unfold finish at hrun
  rw [if_neg (by rw [hopen]; decide)] at hrun
  obtain ⟨⟨r, s1⟩, hsend, rfl⟩ := map_eq_some_iff.mp hrun
  by_contra htakes
  obtain ⟨hbuf, hsame⟩ := (sendBuf_blocked hsend).2 (Bool.eq_false_of_not_eq_true htakes)
  rcases h with h | h
  · exact hbuf h
  · exact nomatch (h.symm.trans hsame).trans hclosed

/-! ## What calls are made of -/

/-- What closing an end or the pipe is made of. The pipe is finished when nothing is buffered, the
    reader is gone or the kernel takes the data. -/
inductive Close (env : PipeEnv) (flushes : Prop) (s : PipeState) : PipeState → Prop
  | mode {mode : Bool} {s' : PipeState} (h : s.setSendOnlyMode env.dup mode = some s') : Close env flushes s s'
  | send {ws : List WriteResult} {r : PipeOpResult} {s' : PipeState} (h : s.sendBuf env.dup ws = some (r, s')) :
    Close env flushes s s'
  | finish {ws : List WriteResult} {s' : PipeState}
    (hflush : flushes → s.finished = false → s.fd0Failed = true ∨ takesAll s.buf.length ws = true)
    (h : s.finish env.dup ws = some s') : Close env flushes s s'
  | dropEnd {fd e : Nat} (he : s.conn2fd1Ends.lookup fd = some e) : Close env flushes s (s.dropEnd fd e)
  | timer (round : Nat) (set held closed : Bool) (hclosed : s.fd0Failed = true → closed = true) :
    Close env flushes s { s with fd1TimeoutRound := round, fd1TimeoutSet := set, fd1PtrsHeld := held, fd0Failed := closed }

/-- What calls are made of; `adds` says that they may add data. -/
inductive Act (env : PipeEnv) (flushes adds : Prop) (s : PipeState) : PipeState → Prop
  | close {s' : PipeState} (h : Close env flushes s s') : Act env flushes adds s s'
  | forward {fd : Nat} {drain : Bool} {rs : List ForwardRound} {r : ForwardResult} {s' : PipeState}
    (h : s.forward env fd drain rs = some (r, s')) : Act env flushes adds s s'
  | dropFileFd {f e : Nat} (he : s.getFd1End f = some e) : Act env flushes adds s (s.dropFileFd f e)
  | add {b : LinearBuffer} {d : Bytes} (ha : adds) (hopen : s.finished = false) (hb : b.bytes = s.buf.bytes ++ d) :
    Act env flushes adds s { s with buf := b, arrived := s.arrived ++ [(none, d)] }

abbrev Closes (env : PipeEnv) (flushes : Prop) : PipeState → PipeState → Prop := Relation.ReflTransGen (Close env flushes)

abbrev Acts (env : PipeEnv) (flushes adds : Prop) : PipeState → PipeState → Prop :=
  Relation.ReflTransGen (Act env flushes adds)

theorem Closes.acts (h : Closes env flushes s s') : Acts env flushes adds s s' := by
  induction h with
  | refl => exact .refl
  | tail _ hclose ih => exact ih.tail (.close hclose)

theorem empty_flush (hempty : s.bufferEmpty = true) :
    flushes → s.finished = false → s.fd0Failed = true ∨ takesAll s.buf.length ws = true := by
  intro _ _
  rw [show s.buf.length = 0 from beq_iff_eq.mp hempty, takesAll]
  exact .inr rfl

theorem finishOrWait_closes (hempty : s.bufferEmpty = true) (h : s.finishOrWait env.dup = some s') :
    Closes env flushes s s' := by
  unfold finishOrWait at h
  split at h
  · unfold startFd1Timeout at h
    split at h
    · cases h
    · cases h
      exact .single (.timer 0 true _ _ id)
  · exact .single (.finish (empty_flush hempty) h)

theorem closeOneFd1_closes (h : s.closeOneFd1 env.dup fd = some s') : Closes env flushes s s' := by
  unfold closeOneFd1 at h
  split at h
  · cases h
    exact .refl
  rename_i e he
  refine .head (.dropEnd he) ?_
  dsimp only at h
  split at h
  · split at h
    · rename_i hempty
      exact finishOrWait_closes hempty h
    · exact .single (.mode h)
  · cases h
    exact .refl

/-- After forwarding: the end or the pipe is closed, or something else is done. -/
theorem afterForward_cases (h : afterForward dup fd ws other (r, s) = some s') :
    (r = .fd1Eof ∧ s.closeOneFd1 dup fd = some s') ∨ (r = .sending .fd0Epipe ∧ s.finish dup ws = some s') ∨
      r ≠ .fd1Eof ∧ r ≠ .sending .fd0Epipe ∧ s' = other s := by
  unfold afterForward at h
  split at h
  · rename_i heq
    cases heq
    exact .inl ⟨rfl, h⟩
  · rename_i heq
    cases heq
    exact .inr (.inl ⟨rfl, h⟩)
  rename_i hne hne' heq
  cases heq
  cases h
  exact .inr (.inr ⟨hne, hne', rfl⟩)

theorem forward_cases (h : s.forward env fd drain rs = some (r, s')) :
    (s.finished = true ∧ r = .finished ∧ s' = s) ∨ s.finished = false ∧
      ∃ e, s.conn2fd1Ends.lookup fd = some e ∧ s.forwardLoop env e drain rs = some (r, s') := by
  unfold forward at h
  split at h
  · rename_i hfin
    cases h
    exact .inl ⟨hfin, rfl, rfl⟩
  rename_i hopen
  split at h
  · cases h
  · rename_i e he
    exact .inr ⟨Bool.eq_false_of_not_eq_true hopen, e, he, h⟩

theorem afterForward_closes
    (hclosed : r = .sending .fd0Epipe → s.fd0Failed = true) (h : afterForward env.dup fd ws other (r, s) = some s') :
    Closes env flushes s s' ∨ s' = other s := by
  rcases afterForward_cases h with ⟨_, hclose⟩ | ⟨hr, hfinish⟩ | ⟨_, _, rfl⟩
  · exact .inl (closeOneFd1_closes hclose)
  · exact .inl (.single (.finish (fun _ _ => .inl (hclosed hr)) hfinish))
  · exact .inr rfl

theorem forwardAfter_acts (hother : ∀ s1, s1.ffd2fd1Ends = s.ffd2fd1Ends → Acts env flushes adds s1 (other s1))
    (h : (s.forward env fd drain rs).bind (afterForward env.dup fd ws other) = some s') : Acts env flushes adds s s' := by
  obtain ⟨⟨r, s1⟩, hforward, hafter⟩ := Option.bind_eq_some_iff.mp h
  refine .head (.forward hforward) ?_
  obtain ⟨hffds, hclosed⟩ : s1.ffd2fd1Ends = s.ffd2fd1Ends ∧ (r = .sending .fd0Epipe → s1.fd0Failed = true) := by
    rcases forward_cases hforward with ⟨_, rfl, rfl⟩ | ⟨_, e, _, hloop⟩
    · exact ⟨rfl, nofun⟩
    · obtain ⟨⟨t, ht⟩, _, hclosed⟩ := forwardLoop_forwards hloop
      exact ⟨ht.ffds, hclosed⟩
  rcases afterForward_closes hclosed hafter with hcloses | rfl
  · exact hcloses.acts
  · exact hother s1 hffds

theorem drainFd1End_acts (h : s.drainFd1End env f rs ws = some s') : Acts env flushes adds s s' := by
  unfold drainFd1End at h
  split at h
  · cases h
    exact .refl
  split at h
  · cases h
    exact .refl
  rename_i e he
  refine forwardAfter_acts (fun s1 hs1 => .single (.dropFileFd ?_)) h
  exact (congrArg (·.lookup f) hs1).trans he

theorem maybeFinish_closes (h : s.maybeFinish env = some s') : Closes env flushes s s' := by
  unfold maybeFinish at h
  split at h
  · cases h
    exact .refl
  split at h
  · rename_i hempty
    exact .single (.finish (empty_flush hempty) h)
  · exact .single (.mode h)

theorem pipeFd0WriteCb_closes {readyForWrite : Bool}
    (h : s.pipeFd0WriteCb env readyForWrite ws finishWs = some s') : Closes env flushes s s' := by
  unfold pipeFd0WriteCb at h
  split at h
  · split at h
    · cases h
    · rename_i s1 hsend
      cases h
      exact .single (.send hsend)
    · rename_i s1 hsend
      exact .head (.send hsend) (.single (.finish (fun _ _ => .inl ((sendBuf_sends hsend).epipe rfl)) h))
    rename_i s1 hsend
    refine .head (.send hsend) ?_
    split at h
    · rename_i hboth
      exact finishOrWait_closes hboth.1 h
    · cases h
      exact .refl
  · exact .head (.timer _ _ _ true fun _ => rfl) (.single (.finish (fun _ _ => .inl rfl) h))

theorem addData_acts (ha : adds) (hb : b.bytes = s.buf.bytes ++ d)
    (h : (sendBuf env.dup { s with buf := b, arrived := s.arrived ++ [(none, d)] } ws).map Prod.snd = some s') :
    Acts env flushes adds s s' := by
  obtain ⟨⟨r, s1⟩, hsend, rfl⟩ := map_eq_some_iff.mp h
  have hopen := not_finished_of_sendBuf hsend
  exact .head (.add ha hopen hb) (.single (.close (.send hsend)))

end PipeState

namespace PipeCall

open PipeState

variable {env : PipeEnv} {s s' : PipeState} {allocs flushes fresh : Prop}

/-- Where the pipe may be finished with data in the buffer, the kernel takes it. -/
def TakesAll (s : PipeState) : PipeCall → Prop
  | finish ws => s.finished = false → s.fd0Failed = false → takesAll s.buf.length ws = true
  | fd1TimeoutCb ws =>
    s.fd1TimeoutRound + 1 ≥ 2 → s.finished = false → s.fd0Failed = false → takesAll s.buf.length ws = true
  | _ => True

/-- The calls that change the FileFDs, the recorders or epoll, or open an end, and do nothing else. -/
def Direct : PipeCall → Prop
  | addFd1AndProc .. | handleDup .. | deactivate .. | epollAdd .. | epollDel .. => True
  | _ => False

/-- The calls that belong to no process: all but opening an end and replaying. -/
def Plain : PipeCall → Prop
  | addFd1AndProc .. | addDataFromFd .. | addDataFromBuffer .. => False
  | _ => True

theorem run_acts {c : PipeCall} (hdirect : ¬c.Direct) (hflush : flushes → c.TakesAll s) (hrun : c.run env s = some s') :
    Acts env flushes (¬c.Plain) s s' := by
  have hkept : ∀ {ws : List WriteResult}, (flushes → s.finished = false → s.fd0Failed = false → takesAll s.buf.length ws = true) →
      flushes → s.finished = false → s.fd0Failed = true ∨ takesAll s.buf.length ws = true := by
    intro ws htakes hf hopen
    cases hclosed : s.fd0Failed with
    | true => exact .inl rfl
    | false => exact .inr (htakes hf hopen hclosed)
  cases c with
  | handleClose fileFd rs ws =>
    simp only [run, PipeState.handleClose] at hrun
    split at hrun
    · cases hrun
      exact .refl
    rename_i e he
    split at hrun
    · exact drainFd1End_acts hrun
    · cases hrun
      exact .single (.dropFileFd he)
  | drainFd1End fileFd rs ws => exact drainFd1End_acts hrun
  | pipeFd1ReadCb fd readyForRead drain rs ws =>
    simp only [run, PipeState.pipeFd1ReadCb] at hrun
    split at hrun
    · exact forwardAfter_acts (fun _ _ => .refl) hrun
    · exact (closeOneFd1_closes hrun).acts
  | pipeFd0WriteCb readyForWrite ws finishWs => exact (pipeFd0WriteCb_closes hrun).acts
  | fd1TimeoutCb ws =>
    simp only [run, PipeState.fd1TimeoutCb] at hrun
    split at hrun
    · rename_i hround
      refine .head (.close (.timer (s.fd1TimeoutRound + 1) false _ _ id)) (.single (.close (.finish ?_ hrun)))
      exact hkept fun hf => hflush hf hround
    · cases hrun
      exact .single (.close (.timer _ true _ _ id))
  | setSendOnlyMode mode => exact .single (.close (.mode hrun))
  | forward fd1 drain rs =>
    obtain ⟨⟨r, s1⟩, hforward, rfl⟩ := map_eq_some_iff.mp hrun
    exact .single (.forward hforward)
  | sendBuf ws =>
    obtain ⟨⟨r, s1⟩, hsend, rfl⟩ := map_eq_some_iff.mp hrun
    exact .single (.close (.send hsend))
  | addDataFromFd len r ws =>
    simp only [run, PipeState.addDataFromFd] at hrun
    split at hrun
    · cases hrun
      exact .refl
    refine addData_acts id ?_ hrun
    rcases s.buf.readAtMost_spec len r with ⟨d, _, hb⟩ | ⟨_, hb⟩
    · rw [hb, ← LinearBuffer.length_bytes, drop_left]
    · rw [hb, ← LinearBuffer.length_bytes, drop_length, append_nil]
  | addDataFromBuffer d ws =>
    simp only [run, PipeState.addDataFromBuffer] at hrun
    split at hrun
    · cases hrun
      exact .refl
    · exact addData_acts id (s.buf.bytes_add d) hrun
  | finish ws => exact .single (.close (.finish (hkept hflush) hrun))
  | resetFd0Ptrs => exact (maybeFinish_closes hrun).acts
  | resetFd1Ptrs =>
    obtain ⟨s1, hmaybe, rfl⟩ := map_eq_some_iff.mp hrun
    exact .tail (maybeFinish_closes hmaybe).acts (.close (.timer _ _ false _ id))
  | _ => exact absurd trivial hdirect

end PipeCall

/-! ## What passes through -/

namespace PipeState

variable {dup : Nat → Nat} {env : PipeEnv} {s s' s1 : PipeState} {ws : List WriteResult} {e : Nat}
  {t t' : List (Option Nat × Bytes)}
  {allocs flushes adds fresh : Prop}

def recordedBy (ends : Nat → PipeEnd) (r : Nat) (t : List (Option Nat × Bytes)) : Bytes :=
  (t.filter fun x => x.1.any fun e => (ends e).recorders.contains r).flatMap Prod.snd

theorem recordedBy_append (ends : Nat → PipeEnd) (r : Nat) (t t' : List (Option Nat × Bytes)) :
    recordedBy ends r (t ++ t') = recordedBy ends r t ++ recordedBy ends r t' := by
  simp [recordedBy]

theorem recordedBy_congr {ends ends' : Nat → PipeEnd} (h : ∀ e, (ends' e).recorders = (ends e).recorders) (r : Nat)
    (t : List (Option Nat × Bytes)) : recordedBy ends' r t = recordedBy ends r t := by
  simp only [recordedBy, h]

def Faithful (s : PipeState) : Prop :=
  ∀ e, s.HasEnd e → ∀ r ∈ (s.ends e).recorders, (s.recs r).Active → (s.recs r).data.Exact

/-- The data `t` comes through ends of the pipe or is added, is sent or buffered, and is recorded by
    the active recorders of the ends. No end is new, and a finished pipe stays as it is. -/
structure Passes (env : PipeEnv) (adds : Prop) (t : List (Option Nat × Bytes)) (s s' : PipeState) : Prop where
  hasEnd : ∀ e, s'.HasEnd e → s.HasEnd e
  finished : s.finished = true → s'.finished = true ∧ t = []
  nextEnd : s'.nextEnd = s.nextEnd
  procs : s'.proc2recorders = s.proc2recorders
  recorders : ∀ e, (s'.ends e).recorders = (s.ends e).recorders
  arrived : s'.arrived = s.arrived ++ t
  source : ∀ x ∈ t, (adds ∧ x.1 = none) ∨ ∃ e, x.1 = some e ∧ s.HasEnd e
  stream : s'.sent ++ s'.buf.bytes = s.sent ++ s.buf.bytes ++ t.flatMap Prod.snd
  records : (∀ n, env.alloc n = true) → s.Faithful → ∀ r, (s'.recs r).Active → (s.recs r).Active ∧
    ((s.recs r).data.Exact → (s'.recs r).data.Exact ∧
      (s'.recs r).data.bytes = (s.recs r).data.bytes ++ recordedBy s.ends r t)

theorem Passes.of_same (hhas : ∀ e, s'.HasEnd e → s.HasEnd e) (hfin : s.finished = true → s'.finished = true)
    (hnext : s'.nextEnd = s.nextEnd) (hprocs : s'.proc2recorders = s.proc2recorders)
    (hrecorders : ∀ e, (s'.ends e).recorders = (s.ends e).recorders) (harrived : s'.arrived = s.arrived)
    (hstream : s'.sent ++ s'.buf.bytes = s.sent ++ s.buf.bytes) (hrecs : s'.recs = s.recs) : Passes env adds [] s s' := by
  refine ⟨hhas, fun h => ⟨hfin h, rfl⟩, hnext, hprocs, hrecorders, by simp [harrived], by simp, by simp [hstream], ?_⟩
  intro _ _ r hr
  rw [hrecs] at hr ⊢
  exact ⟨hr, fun hexact => ⟨hexact, by simp [recordedBy]⟩⟩

theorem Passes.refl (env : PipeEnv) (adds : Prop) (s : PipeState) : Passes env adds [] s s :=
  .of_same (fun _ => id) id rfl rfl (fun _ => rfl) rfl rfl rfl

theorem Passes.faithful (h : Passes env adds t s s1) (halloc : ∀ n, env.alloc n = true) (hs : s.Faithful) : s1.Faithful := by
  intro e he r hr hactive
  rw [h.recorders e] at hr
  obtain ⟨hactive0, hstep⟩ := h.records halloc hs r hactive
  exact (hstep (hs e (h.hasEnd e he) r hr hactive0)).1

theorem Passes.trans (h : Passes env adds t s s1) (h' : Passes env adds t' s1 s') : Passes env adds (t ++ t') s s' := by
  refine ⟨fun e he => h.hasEnd e (h'.hasEnd e he), fun hfin => ?_, h'.nextEnd.trans h.nextEnd, h'.procs.trans h.procs,
    fun e => (h'.recorders e).trans (h.recorders e), ?_, fun x hx => ?_, ?_, fun halloc hs r hr => ?_⟩
  · obtain ⟨hfin1, rfl⟩ := h.finished hfin
    obtain ⟨hfin', rfl⟩ := h'.finished hfin1
    exact ⟨hfin', rfl⟩
  · rw [h'.arrived, h.arrived, append_assoc]
  · rcases mem_append.mp hx with hx | hx
    · exact h.source x hx
    · exact (h'.source x hx).imp_right fun ⟨e, hx, he⟩ => ⟨e, hx, h.hasEnd e he⟩
  · rw [h'.stream, h.stream, flatMap_append, append_assoc]
  obtain ⟨hactive1, hstep'⟩ := h'.records halloc (h.faithful halloc hs) r hr
  obtain ⟨hactive, hstep⟩ := h.records halloc hs r hactive1
  refine ⟨hactive, fun hexact => ?_⟩
  obtain ⟨hexact1, hbytes1⟩ := hstep hexact
  obtain ⟨hexact', hbytes'⟩ := hstep' hexact1
  rw [recordedBy_congr h.recorders] at hbytes'
  exact ⟨hexact', by rw [hbytes', hbytes1, recordedBy_append, append_assoc]⟩

theorem Sends.passes (h : Sends r s s') (hopen : s.finished = false)
    (hhas : ∀ e, s'.HasEnd e ↔ s.HasEnd e) : Passes env adds [] s s' := by
  have hstream := h.stream
  have hnot : s.finished = true → s'.finished = true := fun hfin => nomatch hfin.symm.trans hopen
  obtain ⟨fd0, m, ep, mode, sent, b, closed, rfl⟩ := h.only
  exact .of_same (fun e => (hhas e).mp) hnot rfl rfl (fun _ => rfl) rfl hstream rfl

theorem Forwards.passes (h : Forwards env e t s s') (he : s.HasEnd e) (hopen : s.finished = false)
    (hhas : ∀ e, s'.HasEnd e ↔ s.HasEnd e) : Passes env adds t s s' := by
  refine ⟨fun x => (hhas x).mp, fun hfin => (nomatch hfin.symm.trans hopen), h.nextEnd, h.procs,
    fun x => by rw [h.ends], h.arrived, fun x hx => .inr ⟨e, h.source x hx, he⟩, h.stream, fun halloc hs r hr => ?_⟩
  obtain ⟨hactive, hstep⟩ := h.records halloc (hs e he) r hr
  refine ⟨hactive, fun hexact => ⟨(hstep hexact).1, ?_⟩⟩
  rw [(hstep hexact).2, recordedBy]
  by_cases hmem : r ∈ (s.ends e).recorders
  · rw [if_pos hmem, filter_eq_self.mpr fun x hx => by simp [h.source x hx, hmem]]
  · rw [if_neg hmem, filter_eq_nil_iff.mpr fun x hx => by simp [h.source x hx, hmem]]
    rfl

theorem finish_passes (hb : Booked fresh s) (h : s.finish dup ws = some s') : Passes env adds [] s s' := by
  obtain ⟨hb', hfin⟩ := finish_booked h hb
  have hgone : ∀ e, s'.HasEnd e → s.HasEnd e := fun e he => absurd he (hb'.closed hfin e)
  unfold finish at h
  split at h
  · cases h
    exact .refl env _ s
  obtain ⟨⟨r, s1⟩, hsend, rfl⟩ := map_eq_some_iff.mp h
  have hsends := sendBuf_sends hsend
  have hstream := hsends.stream
  obtain ⟨fd0, m, ep, mode, sent, b, closed, rfl⟩ := hsends.only
  exact .of_same hgone (fun _ => hfin) rfl rfl (fun _ => rfl) rfl hstream rfl

/-- FileFDs come and go; the recorders of an end stay. -/
theorem update_recorders (ends : Nat → PipeEnd) (e : Nat) (fileFds : Finset Nat) (x : Nat) :
    (Function.update ends e { ends e with fileFds := fileFds } x).recorders = (ends x).recorders := by
  by_cases hx : x = e
  · subst hx
    rw [Function.update_self]
  · rw [Function.update_of_ne hx]

theorem open_of_setSendOnlyMode (h : s.setSendOnlyMode dup mode = some s') : s.finished = false := by
  unfold setSendOnlyMode at h
  cases hfd : s.fd0Conn with
  | none =>
    rw [hfd] at h
    cases h
  | some fd0 => exact finished_eq_false_iff.mpr ⟨fd0, hfd⟩

theorem Close.booked (h : Close env flushes s s') (hb : Booked fresh s) : Booked fresh s' := by
  cases h with
  | mode h => exact (setSendOnlyMode_keeps hb h).booked
  | send h => exact (sendBuf_keeps hb h).booked
  | finish _ h => exact (finish_booked h hb).1
  | dropEnd he => exact (dropEnd_spec hb he).1
  | timer round set held closed _ => exact hb.congr rfl

theorem Close.passes (h : Close env flushes s s') (hb : Booked fresh s) : Passes env adds [] s s' := by
  cases h with
  | mode h => exact (setSendOnlyMode_sends h).passes (open_of_setSendOnlyMode h) (setSendOnlyMode_keeps hb h).same
  | send h => exact (sendBuf_sends h).passes (not_finished_of_sendBuf h) (sendBuf_keeps hb h).same
  | finish _ h => exact finish_passes hb h
  | dropEnd he => exact .of_same (fun x hx => (((dropEnd_spec hb he).2 x).mp hx).1) id rfl rfl (fun _ => rfl) rfl rfl rfl
  | timer round set held closed _ => exact .of_same (fun _ => id) id rfl rfl (fun _ => rfl) rfl rfl rfl

theorem Close.kept (h : Close env flushes s s') (hf : flushes) (hkept : s.Drained) : s'.Drained := by
  intro hfin
  cases h with
  | mode h => exact nomatch hfin.symm.trans (setSendOnlyMode_sends h).open
  | send h => exact nomatch hfin.symm.trans (sendBuf_sends h).open
  | finish hflush h =>
    cases hopen : s.finished with
    | false => exact finish_kept h hopen (hflush hf hopen)
    | true =>
      unfold PipeState.finish at h
      rw [if_pos hopen] at h
      cases h
      exact hkept hopen
  | dropEnd he => exact hkept hfin
  | timer round set held closed hclosed => exact (hkept hfin).imp_right hclosed

theorem Act.booked (h : Act env flushes adds s s') (hb : Booked fresh s) : Booked fresh s' := by
  cases h with
  | close h => exact h.booked hb
  | forward h => exact (forward_keeps hb h).booked
  | dropFileFd he => exact (dropFileFd_keeps hb).booked
  | add _ _ _ => exact hb.congr rfl

theorem Act.passes (h : Act env flushes adds s s') (hb : Booked fresh s) : ∃ t, Passes env adds t s s' := by
  cases h with
  | close h => exact ⟨[], h.passes hb⟩
  | forward h =>
    have hsame := (forward_keeps hb h).same
    rcases forward_cases h with ⟨_, _, rfl⟩ | ⟨hopen, e, he, hloop⟩
    · exact ⟨[], .refl env _ _⟩
    · obtain ⟨⟨t, ht⟩, _⟩ := forwardLoop_forwards hloop
      exact ⟨t, ht.passes ⟨_, he⟩ hopen hsame⟩
  | dropFileFd he => exact ⟨[], .of_same (fun _ => id) id rfl rfl (update_recorders s.ends _ _) rfl rfl rfl⟩
  | add ha hopen hb =>
    refine ⟨_, fun _ => id, fun hfin => (nomatch hfin.symm.trans hopen), rfl, rfl, fun _ => rfl, rfl, by simp [ha],
      by simp [hb], fun _ _ r hr => ⟨hr, fun hexact => ⟨hexact, by simp [recordedBy]⟩⟩⟩

theorem Act.kept (h : Act env flushes adds s s') (hf : flushes) (hkept : s.Drained) : s'.Drained := by
  intro hfin
  cases h with
  | close h => exact h.kept hf hkept hfin
  | forward h =>
    rcases forward_cases h with ⟨_, _, rfl⟩ | ⟨_, e, _, hloop⟩
    · exact hkept hfin
    · exact nomatch hfin.symm.trans (forwardLoop_forwards hloop).2.1
  | dropFileFd he => exact hkept hfin
  | add _ hopen _ => exact nomatch hfin.symm.trans hopen

theorem Acts.passes (h : Acts env flushes adds s s') (hb : Booked fresh s) :
    Booked fresh s' ∧ ∃ t, Passes env adds t s s' := by
  induction h with
  | refl => exact ⟨hb, [], .refl env _ s⟩
  | tail _ hact ih =>
    obtain ⟨hb1, t, ht⟩ := ih
    obtain ⟨t', ht'⟩ := hact.passes hb1
    exact ⟨hact.booked hb1, t ++ t', ht.trans ht'⟩

theorem Acts.kept (h : Acts env flushes adds s s') (hf : flushes) (hkept : s.Drained) : s'.Drained := by
  induction h with
  | refl => exact hkept
  | tail _ hact ih => exact hact.kept hf ih

theorem Delivering.passes (halloc : allocs → ∀ n, env.alloc n = true) (h : Delivering allocs flushes s)
    (hnum : ∀ e, s.HasEnd e → e < s.nextEnd) (hp : Passes env adds t s s')
    (hkept : flushes → s'.Drained) : Delivering allocs flushes s' := by
  refine ⟨?_, fun ha r hr => ?_, fun x hx e hx' => ?_, hkept⟩
  · rw [hp.stream, h.stream, arrivedBytes, arrivedBytes, hp.arrived, flatMap_append]
  · have hs : s.Faithful := fun _ _ i _ hi => (h.recorded ha i hi).2
    obtain ⟨hactive, hstep⟩ := hp.records (halloc ha) hs r hr
    obtain ⟨hbytes, hexact⟩ := h.recorded ha r hactive
    refine ⟨?_, (hstep hexact).1⟩
    rw [(hstep hexact).2, hbytes]
    show recordedBy s.ends r s.arrived ++ _ = recordedBy s'.ends r s'.arrived
    rw [recordedBy_congr hp.recorders, hp.arrived, recordedBy_append]
  · rw [hp.arrived] at hx
    rw [hp.nextEnd]
    rcases mem_append.mp hx with hx | hx
    · exact h.known x hx e hx'
    rcases hp.source x hx with ⟨_, hx⟩ | ⟨e', hx, he'⟩
    · rw [hx] at hx'
      cases hx'
    rw [hx] at hx'
    cases hx'
    exact hnum _ he'

/-- Nothing has come through a new end. -/
theorem withEnd_delivers
    (h : Delivering allocs flushes s) : Delivering allocs flushes (s.withEnd fd1Conn fileFd proc recorders hnd) := by
  refine ⟨h.stream, fun ha r hr => ?_, fun x hx e he => Nat.lt_succ_of_lt (h.known x hx e he), h.kept⟩
  obtain ⟨hbytes, hexact⟩ := h.recorded ha r hr
  refine ⟨hbytes.trans ?_, hexact⟩
  unfold arrivedFor
  congr 1
  refine filter_congr fun x hx => ?_
  cases hend : x.1 with
  | none => rfl
  | some e =>
    have hne : e ≠ s.nextEnd := ne_of_lt (h.known x hx e hend)
    simp only [Option.any_some, withEnd, Function.update_of_ne hne]

end PipeState

namespace PipeCall

open PipeState

variable {env : PipeEnv} {s s' : PipeState} {allocs flushes fresh : Prop} {c : PipeCall}

def Opens : PipeCall → Prop
  | addFd1AndProc .. => True
  | _ => False

/-- What a call does that opens no end: data passes through, and none of it is discarded. -/
theorem run_passes (hopens : ¬c.Opens) (hflush : flushes → c.TakesAll s) (hb : Booked fresh s)
    (hkept : flushes → s.Drained) (hrun : c.run env s = some s') :
    (∃ t, Passes env (¬c.Plain) t s s') ∧
      (flushes → s'.Drained) := by
  by_cases hdirect : c.Direct
  · cases c with
    | handleDup oldFileFd newFileFd =>
      cases hrun
      unfold PipeState.handleDup
      split
      · exact ⟨⟨[], .refl env _ s⟩, hkept⟩
      · exact ⟨⟨[], .of_same (fun _ => id) id rfl rfl (update_recorders s.ends _ _) rfl rfl rfl⟩, hkept⟩
    | deactivate recorder =>
      cases hrun
      refine ⟨⟨[], fun _ => id, fun hfin => ⟨hfin, rfl⟩, rfl, rfl, fun _ => rfl, by simp, by simp, by simp, ?_⟩, hkept⟩
      intro _ _ r hr
      by_cases hr' : r = recorder
      · subst hr'
        simp [PipeRecorder.Active, PipeRecorder.deactivate] at hr
      · simp only [Function.update_of_ne hr'] at hr ⊢
        exact ⟨hr, fun hexact => ⟨hexact, by simp [recordedBy]⟩⟩
    | epollAdd fd =>
      obtain ⟨ep, _, rfl⟩ := map_eq_some_iff.mp hrun
      exact ⟨⟨[], .of_same (fun _ => id) id rfl rfl (fun _ => rfl) rfl rfl rfl⟩, hkept⟩
    | epollDel fd =>
      simp only [run] at hrun
      split at hrun
      · cases hrun
      · obtain ⟨ep, _, rfl⟩ := map_eq_some_iff.mp hrun
        exact ⟨⟨[], .of_same (fun _ => id) id rfl rfl (fun _ => rfl) rfl rfl rfl⟩, hkept⟩
    | addFd1AndProc => exact absurd trivial hopens
    | _ => exact hdirect.elim
  · have hacts := run_acts hdirect hflush hrun
    exact ⟨(hacts.passes hb).2, fun hf => hacts.kept hf (hkept hf)⟩

theorem addFd1AndProc_eq
    (h : s.addFd1AndProc fd1Conn fileFd proc recorders hnd = some s') :
    s.finished = false ∧ ∃ ep, s' = { s.withEnd fd1Conn fileFd proc recorders hnd with epoll := ep } := by
  unfold PipeState.addFd1AndProc at h
  split at h
  · cases h
  rename_i hguard
  refine ⟨Bool.eq_false_of_not_eq_true fun hfin => hguard (.inl hfin), ?_⟩
  split at h
  · cases h
    exact ⟨s.epoll, rfl⟩
  · obtain ⟨ep, _, rfl⟩ := map_eq_some_iff.mp h
    exact ⟨ep, rfl⟩

theorem run_delivers (halloc : allocs → ∀ n, env.alloc n = true) (hflush : flushes → c.TakesAll s)
    (h : Delivering allocs flushes s) (hb : Booked fresh s) (hrun : c.run env s = some s') :
    Delivering allocs flushes s' := by
  by_cases hopens : c.Opens
  · cases c with
    | addFd1AndProc fd1Conn fileFd proc recorders hnd =>
      obtain ⟨_, ep, rfl⟩ := addFd1AndProc_eq hrun
      have hadded : Delivering allocs flushes (s.withEnd fd1Conn fileFd proc recorders hnd) := withEnd_delivers h
      exact hadded.congr rfl rfl hadded.kept
    | _ => exact hopens.elim
  · obtain ⟨⟨t, ht⟩, hkept⟩ := run_passes hopens hflush hb h.kept hrun
    exact h.passes halloc hb.numbered ht hkept

end PipeCall

open PipeState

variable {ok : PipeEnv → PipeState → PipeCall → Prop} {s : PipeState}

theorem PipeRun.delivering (h : PipeRun ok s) :
    Delivering (∀ env s c, ok env s c → ∀ n, env.alloc n = true) (∀ env s c, ok env s c → c.TakesAll s) s := by
  induction h with
  | new fd0 ends fd1PtrsHeld epoll => exact ⟨rfl, fun _ r _ => ⟨rfl, trivial⟩, nofun, nofun⟩
  | call env c hprev hok hrun ih =>
    exact PipeCall.run_delivers (fun ha => ha _ _ _ hok) (fun hf => hf _ _ _ hok) ih hprev.booked hrun

end Firebuild
