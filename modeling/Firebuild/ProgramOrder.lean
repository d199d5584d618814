/-
  Firebuild.ProgramOrder — the order of what several processes write to one pipe
  (`message_processor.cc`: `accept_exec_child`; `pipe.cc`: `drain`; `process.cc`: `pass_on_fds`).

  An exec()ed child gets an end of its own, or its recorded output is replayed. "There may be
  incoming data from the (transitive) parent(s), drain it. Do it before trying to shortcut."
  `drain` reads the ends for which the pipe knows a FileFD.

  The FileFDs the pipe knows are not all there are. A forked process has copies of its parent's
  FileFDs, and so has the child of an exec(); a copy is not made known to the pipe
  (`FileFD(const FileFD&)`). Nor are the further fds of a child that share one end: they are
  dup()ed before the end is there. So the last FileFD of an end may be closed while a process can
  still write to it, though `handle_close` says "This was the last open fd". The end is not drained
  any more then.

  A run consists of writes of the processes, calls of the pipe and the draining for a child.

  Proved: `program_order_kept_iff`; `a_forked_process_is_overtaken`.
-/

import Mathlib.Logic.Relation
import Firebuild.Draining

namespace Firebuild

open PipeState
open List

/-- A pipe, and what the processes have written to each of its ends. -/
structure SharedPipe where
  pipe : PipeState
  written : Nat → Bytes

namespace SharedPipe

/-- One step of a run. No connection is in epoll for somebody else, and a FileFD that is new to
    the pipe is not known to it. -/
inductive Step : SharedPipe → SharedPipe → Prop
  | write {p : SharedPipe} (e : Nat) (d : Bytes) (h : p.pipe.HasEnd e) :
    Step p ⟨p.pipe, Function.update p.written e (p.written e ++ d)⟩
  | call {p : SharedPipe} {s : PipeState} (env : PipeEnv) (c : PipeCall) (hfresh : c.Fresh p.pipe)
    (hnew : c.NewFileFd p.pipe) (hans : c.Answered env p.written p.pipe) (hrun : c.run env p.pipe = some s)
    (hread : ∀ e, through e s.arrived <+: p.written e) : Step p ⟨s, p.written⟩
  | drain {p : SharedPipe} {s : PipeState} (env : PipeEnv) (answers : DrainAnswers)
    (hans : answers.Truthful env p.written) (hrun : p.pipe.drain env answers = some s) : Step p ⟨s, p.written⟩

def Later : SharedPipe → SharedPipe → Prop := Relation.ReflTransGen Step

def new (fd0 : Nat) (ends : Nat → PipeEnd) (fd1PtrsHeld : Bool) (epoll : Epoll) : SharedPipe :=
  ⟨{ fd0Conn := some fd0, ends, fd1PtrsHeld, epoll, recs := fun _ => {} }, fun _ => []⟩

def Reachable (p : SharedPipe) : Prop := ∃ fd0 ends fd1PtrsHeld epoll, Later (new fd0 ends fd1PtrsHeld epoll) p

/-- Every end with data that is to be read has a FileFD. -/
def Attached (p : SharedPipe) : Prop :=
  ∀ e, p.pipe.HasEnd e → through e p.pipe.arrived ≠ p.written e → ∃ f, p.pipe.ffd2fd1Ends.lookup f = some e

/-- The child is accepted in `p`. Of what is delivered later, a byte that is replayed or comes
    through an end that was not there yet is behind all that had been written. -/
structure InOrder (p : SharedPipe) (s : PipeState) : Prop where
  delivered : s.sent <+: s.arrivedBytes
  behind : ∀ pre x post, s.arrived = p.pipe.arrived ++ pre ++ x :: post →
    (∀ e, x.1 = some e → p.pipe.nextEnd ≤ e) →
    ((p.pipe.arrived ++ pre).flatMap Prod.snd).length < s.sent.length →
    ∀ e < p.pipe.nextEnd, p.written e <+: through e (p.pipe.arrived ++ pre)

variable {p q : SharedPipe} {env : PipeEnv} {s : PipeState} {answers : DrainAnswers}

/-! ## Runs -/

theorem new_settled (fd0 : Nat) (ends : Nat → PipeEnd) (fd1PtrsHeld : Bool) (epoll : Epoll) :
    Settled (new fd0 ends fd1PtrsHeld epoll).written (new fd0 ends fd1PtrsHeld epoll).pipe := by
  have hnone : ∀ e, ¬(new fd0 ends fd1PtrsHeld epoll).pipe.HasEnd e := by
    rintro e ⟨c, hc⟩
    cases hc
  refine ⟨.of_empty hnone fun f e hf => ?_, ⟨rfl, nofun, nofun, nofun⟩,
    fun e he => absurd he (hnone e), fun _ e => prefix_refl _, fun _ e he => ?_⟩
  · cases hf
  · exact absurd he (Nat.not_lt_zero e)

theorem write_settled (d : Bytes) (h : Settled p.written p.pipe) (he : p.pipe.HasEnd e) :
    Settled (Function.update p.written e (p.written e ++ d)) p.pipe := by
  refine ⟨h.booked, h.delivering, h.owned, fun hopen x => ?_, fun hopen x hx hnot => ?_⟩
  · by_cases hxe : x = e
    · subst hxe
      rw [Function.update_self]
      exact (h.read hopen x).trans (prefix_append _ _)
    · rw [Function.update_of_ne hxe]
      exact h.read hopen x
  · have hxe : x ≠ e := fun heq => hnot (heq ▸ he)
    rw [Function.update_of_ne hxe]
    exact h.dropped hopen x hx hnot

/-- A step keeps the invariant, and appends to what arrived unless the pipe is finished. -/
theorem Step.settled (hstep : Step p q) (h : Settled p.written p.pipe) :
    Settled q.written q.pipe ∧ (p.pipe.finished = true → q.pipe.finished = true) ∧
      ∃ t, q.pipe.arrived = p.pipe.arrived ++ t ∧ (p.pipe.finished = true → t = []) := by
  cases hstep with
  | write e d he => exact ⟨write_settled d h he, id, [], by simp⟩
  | call env c hfresh hnew hans hrun hread =>
    have hgrows := PipeCall.run_grows h.booked hrun
    exact ⟨PipeCall.run_settled hrun h hfresh hnew hans fun _ => hread, hgrows.finished, hgrows.arrived⟩
  | drain env answers hans hrun =>
    obtain ⟨hsettled, hdrains, _⟩ := drain_spec hans h hrun
    refine ⟨hsettled, hdrains.finished, ?_⟩
    obtain ⟨t, ht, _⟩ := hdrains.arrived
    refine ⟨t, ht, fun hfin => ?_⟩
    unfold PipeState.drain at hrun
    rw [if_pos hfin] at hrun
    cases hrun
    simpa using ht

theorem Later.settled (hlater : Later p q) (h : Settled p.written p.pipe) :
    Settled q.written q.pipe ∧ (p.pipe.finished = true → q.pipe.finished = true) ∧
      ∃ t, q.pipe.arrived = p.pipe.arrived ++ t ∧ (p.pipe.finished = true → t = []) := by
  induction hlater with
  | refl => exact ⟨h, id, [], by simp⟩
  | tail _ hstep ih =>
    obtain ⟨hsettled, hfin, t, ht, hnil⟩ := ih
    obtain ⟨hsettled', hfin', t', ht', hnil'⟩ := hstep.settled hsettled
    refine ⟨hsettled', fun hf => hfin' (hfin hf), t ++ t', by rw [ht', ht, append_assoc], fun hf => ?_⟩
    rw [hnil hf, hnil' (hfin hf)]
    rfl

theorem Reachable.settled (h : Reachable p) : Settled p.written p.pipe := by
  obtain ⟨fd0, ends, held, epoll, hlater⟩ := h
  exact (hlater.settled (new_settled fd0 ends held epoll)).1

/-! ## The order -/

/-- When all has been read before the child, nothing of the child can come first. -/
theorem inOrder_of_attached (h : Settled p.written p.pipe) (hans : answers.Truthful env p.written)
    (hdrain : p.pipe.drain env answers = some s) (hattached : p.Attached) (hlater : Later ⟨s, p.written⟩ q) :
    InOrder p q.pipe := by
  obtain ⟨hsettled, hdrains, hread⟩ := drain_spec hans h hdrain
  obtain ⟨hsettled', _, t', ht', hnil⟩ := hlater.settled hsettled
  obtain ⟨t, ht, hfrom⟩ := hdrains.arrived
  refine ⟨⟨q.pipe.buf.bytes, hsettled'.delivering.stream⟩, ?_⟩
  intro pre x post hsplit hchild _ e he
  have hx : x ∉ t := by
    intro hx
    obtain ⟨f, e', hxe, hf⟩ := hfrom x hx
    have hlt := h.booked.numbered e' (h.booked.fileFds f e' hf).2
    have hge := hchild e' hxe
    omega
  -- what came while the pipe was drained is before the child's data
  have heq : t ++ t' = pre ++ x :: post := by
    have harrived : p.pipe.arrived ++ (t ++ t') = p.pipe.arrived ++ (pre ++ x :: post) := by
      rw [← append_assoc, ← ht, ← append_assoc, ← hsplit]
      exact ht'.symm
    exact append_cancel_left harrived
  have hpre : t <+: pre := by
    rcases append_eq_append_iff.mp heq with ⟨m, hm, _⟩ | ⟨m, hm, hrest⟩
    · exact ⟨m, hm.symm⟩
    cases m with
    | nil =>
      exact ⟨[], by simp [hm]⟩
    | cons y m =>
      obtain ⟨rfl, _⟩ := List.cons.inj hrest
      refine absurd ?_ hx
      rw [hm]
      simp
  have hopen : s.finished = false := by
    cases hfin : s.finished with
    | false => rfl
    | true =>
      -- nothing comes after the pipe is finished
      rw [hnil hfin, append_nil] at heq
      refine absurd ?_ hx
      rw [heq]
      simp
  have hall : through e s.arrived = p.written e := by
    by_cases hdone : through e p.pipe.arrived = p.written e
    · have hmore : p.written e <+: through e s.arrived := by
        rw [ht, through_append, hdone]
        exact prefix_append _ _
      exact (hsettled.read hopen e).eq_of_length_le hmore.length_le
    · have hhas : p.pipe.HasEnd e := by
        by_contra hnot
        have hopen0 : p.pipe.finished = false :=
          Bool.eq_false_of_not_eq_true fun hfin => nomatch (hdrains.finished hfin).symm.trans hopen
        exact hdone (h.dropped hopen0 e he hnot)
      obtain ⟨f, hf⟩ := hattached e hhas hdone
      exact hread hopen f e hf
  obtain ⟨m, rfl⟩ := hpre
  rw [← hall, ht, ← append_assoc, through_append e (p.pipe.arrived ++ t) m]
  exact prefix_append _ _

/-- Replayed data of which one byte is taken, after all that is buffered. -/
theorem replay_one_byte (dup : Nat → Nat) (hopen : s.finished = false) (hstream : s.sent ++ s.buf.bytes = s.arrivedBytes) :
    ∃ s', s.addDataFromBuffer dup [0, 1] [.sent (s.buf.length + 1), .error] = some s' ∧
      s'.arrived = s.arrived ++ [(none, [0, 1])] ∧ s.arrivedBytes.length < s'.sent.length := by
  obtain ⟨s1, hs1⟩ : ∃ s1, s1 = { s with buf := s.buf.add [0, 1], arrived := s.arrived ++ [(none, [0, 1])] } := ⟨_, rfl⟩
  have hlen : s1.buf.length = s.buf.length + 2 := by
    rw [← LinearBuffer.length_bytes, hs1, LinearBuffer.bytes_add, length_append, LinearBuffer.length_bytes]
    rfl
  have hopen1 : s1.finished = false := by
    rw [hs1]
    exact hopen
  have htook : (s1.took (s.buf.length + 1)).buf.length = 1 := by
    show s1.buf.length - (s.buf.length + 1) = 1
    omega
  have hsend : s1.sendBuf dup [.sent (s.buf.length + 1), .error] =
      some (.fd0Epipe, { s1.took (s.buf.length + 1) with fd0Failed := true }) := by
    have hempty : s1.bufferEmpty = false := by simp [bufferEmpty, hlen]
    have hempty' : (s1.took (s.buf.length + 1)).bufferEmpty = false := by simp [bufferEmpty, htook]
    have hopen' : (s1.took (s.buf.length + 1)).finished = false := hopen1
    simp [sendBuf, hopen1, hempty, hempty', hopen']
  refine ⟨{ s1.took (s.buf.length + 1) with fd0Failed := true }, ?_, ?_, ?_⟩
  · unfold addDataFromBuffer
    rw [← hs1, hsend]
    rfl
  · rw [hs1]
    rfl
  have hsent : (s1.took (s.buf.length + 1)).sent = s.sent ++ (s.buf.bytes ++ [0, 1]).take (s.buf.length + 1) := by
    rw [hs1, took, LinearBuffer.bytes_add]
  rw [hsent, ← hstream]
  simp only [length_append, length_take, LinearBuffer.length_bytes, length_cons]
  omega

/-- An end without a FileFD is not read, and the child's output can be replayed first. -/
theorem overtaken_of_not_attached (h : Settled p.written p.pipe) (hans : answers.Truthful env p.written)
    (hdrain : p.pipe.drain env answers = some s) (hopen : s.finished = false) (hnot : ¬p.Attached) :
    ∃ q, Later ⟨s, p.written⟩ q ∧ ¬InOrder p q.pipe := by
  obtain ⟨hsettled, hdrains, _⟩ := drain_spec hans h hdrain
  obtain ⟨t, ht, hfrom⟩ := hdrains.arrived
  unfold Attached at hnot
  push Not at hnot
  obtain ⟨e, he, hunread, hnone⟩ := hnot
  have hsame : through e s.arrived = through e p.pipe.arrived := by
    have htail : through e t = [] := by
      apply through_of_other
      intro x hx hxe
      obtain ⟨f, e', hxe', hf⟩ := hfrom x hx
      rw [hxe] at hxe'
      cases hxe'
      exact hnone f hf
    rw [ht, through_append, htail, append_nil]
  obtain ⟨s', hrun, harrived, hsent⟩ := replay_one_byte env.dup hopen hsettled.delivering.stream
  have hstep : Step ⟨s, p.written⟩ ⟨s', p.written⟩ := by
    refine .call env (.addDataFromBuffer [0, 1] [.sent (s.buf.length + 1), .error]) trivial trivial trivial hrun fun x => ?_
    have hreplayed : through x [(none, [0, 1])] = [] := rfl
    rw [harrived, through_append, hreplayed, append_nil]
    exact hsettled.read hopen x
  refine ⟨⟨s', p.written⟩, .single hstep, fun horder => hunread ?_⟩
  have hbehind := horder.behind t (none, [0, 1]) [] (by rw [← ht]; exact harrived) nofun
    (by rw [← ht]; exact hsent) e (h.booked.numbered e he)
  rw [← ht, hsame] at hbehind
  exact (h.read (h.booked.open he) e).eq_of_length_le hbehind.length_le

/-- The order is kept in every continuation if every end with data to be read has a FileFD. If
    one has not, it can be broken, unless the reading end turns out to be closed. -/
theorem program_order_kept_iff (hp : Reachable p) (hans : answers.Truthful env p.written)
    (hdrain : p.pipe.drain env answers = some s) :
    (p.Attached → ∀ q, Later ⟨s, p.written⟩ q → InOrder p q.pipe) ∧
      (s.finished = false → (∀ q, Later ⟨s, p.written⟩ q → InOrder p q.pipe) → p.Attached) := by
  refine ⟨fun hattached q hlater => inOrder_of_attached hp.settled hans hdrain hattached hlater, fun hopen horder => ?_⟩
  by_contra hnot
  obtain ⟨q, hlater, hbroken⟩ := overtaken_of_not_attached hp.settled hans hdrain hopen hnot
  exact hbroken (horder q hlater)

/-! ## Two runs -/

/-- A kernel that has all there is in one go; if the buffer is in use, it says that the reading
    end is closed. -/
def eagerAnswers (written : Nat → Bytes) : DrainAnswers := fun s fd =>
  match s.conn2fd1Ends.lookup fd with
  | none => ([], [])
  | some e =>
    let rest := (written e).drop (through e s.arrived).length
    if s.bufferEmpty then ([{ direct := [rest], read := { first := .error .eagain } }], [])
    else if rest = [] then ([], [])
    else ([{ read := { first := .data rest }, writes := [.error] }], [])

theorem readAll_data (b : LinearBuffer) (hd : d ≠ []) :
    ∃ n, (b.readAll { first := .data d }).1 = .ok (n + 1) := by
  have hroom := b.room_ensureSpace (8 * 1024)
  obtain ⟨b1, hb1⟩ : ∃ b1, b1 = b.ensureSpace (8 * 1024) := ⟨_, rfl⟩
  rw [← hb1] at hroom
  have hlen : (d.take b1.room).length ≠ 0 := by
    have hpos := length_pos_iff.mpr hd
    rw [length_take]
    omega
  obtain ⟨n, hn⟩ := Nat.exists_eq_succ_of_ne_zero hlen
  rw [LinearBuffer.readAll, ← hb1, LinearBuffer.readTwice, LinearBuffer.readInto]
  simp [hn]

theorem eagerAnswers_truthful (env : PipeEnv) (written : Nat → Bytes) : (eagerAnswers written).Truthful env written := by
  intro s fd e he hprefix
  obtain ⟨rest, hrest⟩ := hprefix
  have hdrop : (written e).drop (through e s.arrived).length = rest := by rw [← hrest, drop_left]
  unfold eagerAnswers
  simp only [he, hdrop]
  split
  · rename_i hempty
    intro s1 hs1
    rw [if_pos hempty] at hs1
    show through e s1.arrived = written e
    rw [← hrest]
    by_cases hnil : rest = []
    · rw [forwardDirect, if_pos hnil] at hs1
      cases hs1
      rw [hnil, append_nil]
    have hpassed : through e (s.arrived ++ [(some e, rest)]) = through e s.arrived ++ rest := by
      simp [through]
    rw [forwardDirect, if_neg hnil] at hs1
    split at hs1
    · split at hs1
      · cases hs1
      · cases hs1
        exact hpassed
    · cases hs1
      exact hpassed
  · rename_i hfull
    split
    · rename_i hnil
      rw [hnil, append_nil] at hrest
      exact hrest
    rename_i hsome
    intro s1 hs1
    rw [if_neg hfull] at hs1
    cases hs1
    obtain ⟨n, hn⟩ := readAll_data s.buf hsome
    have hread := s.buf.readAll_spec { first := .data rest }
    generalize s.buf.readAll { first := .data rest } = answer at hn hread ⊢
    obtain ⟨r, b⟩ := answer
    subst hn
    have hbuf : b.bytes ≠ [] := by
      rcases hread with ⟨d, _, hb⟩ | ⟨⟨err, herr⟩, _⟩
      · intro hnil
        rw [hnil] at hb
        exact hfull (bufferEmpty_iff.mpr (append_eq_nil_iff.mp hb.symm).1)
      · cases herr
    -- the error is what is answered to the write
    intro res s2 hsend _ hres
    obtain ⟨s1, hreceived, hsend⟩ := Option.bind_eq_some_iff.mp hsend
    refine absurd ?_ hres
    have hempty : s1.bufferEmpty = false := by
      unfold received at hreceived
      dsimp only at hreceived
      split at hreceived
      · cases hreceived
      · cases hreceived
        exact Bool.eq_false_of_not_eq_true fun hb => hbuf (bufferEmpty_iff.mp hb)
    have hopen := not_finished_of_sendBuf hsend
    simp only [sendBuf, hopen, hempty, Bool.false_eq_true, if_false, Option.some.injEq, Prod.mk.injEq] at hsend
    exact hsend.1.symm

def oneEnd : SharedPipe := ⟨(addEnd.run dupEnv newPipe).getD newPipe, fun _ => []⟩

theorem oneEnd_reachable : Reachable oneEnd := by
  refine ⟨3, newPipe.ends, true, {}, .single ?_⟩
  exact .call dupEnv addEnd (Finset.notMem_empty _) (AList.notMem_empty 10) trivial rfl fun _ => prefix_refl _

def oneByte (s : PipeState) : SharedPipe := ⟨s, Function.update (fun _ => []) 0 [7]⟩

theorem Reachable.step (h : Reachable p) (hstep : Step p q) : Reachable q := by
  obtain ⟨fd0, ends, held, epoll, hlater⟩ := h
  exact ⟨fd0, ends, held, epoll, hlater.tail hstep⟩

/-- A process writes to the pipe and starts a child: its byte is delivered before all of the child. -/
theorem program_order_kept_with_file_fd :
    ∃ p s, p.written 0 = [7] ∧ s.sent = [7] ∧ p.Attached ∧ ∀ q, Later ⟨s, p.written⟩ q → InOrder p q.pipe := by
  have hwrite : Step oneEnd (oneByte oneEnd.pipe) := .write 0 [7] ⟨5, rfl⟩
  have hattached : (oneByte oneEnd.pipe).Attached := by
    rintro e ⟨c, hc⟩ _
    rcases EndMap.lookup_insert_iff.mp hc with ⟨_, rfl⟩ | ⟨_, hc⟩
    · exact ⟨10, rfl⟩
    · cases (AList.lookup_empty c).symm.trans hc
  obtain ⟨s, hdrain, hsent⟩ : ∃ s, (oneByte oneEnd.pipe).pipe.drain dupEnv (eagerAnswers (oneByte oneEnd.pipe).written) = some s ∧
      s.sent = [7] := ⟨_, rfl, rfl⟩
  have horder := program_order_kept_iff (oneEnd_reachable.step hwrite) (eagerAnswers_truthful dupEnv _) hdrain
  exact ⟨_, s, rfl, hsent, hattached, horder.1 hattached⟩

def orphanedEnd : PipeState := ((PipeCall.handleClose 10 [] []).run dupEnv oneEnd.pipe).getD newPipe

/-- The child's output is replayed, and then what is in the end is read. -/
def replayedFirst : PipeState := ((PipeCall.addDataFromBuffer [8] [.sent 1]).run dupEnv orphanedEnd).getD newPipe

def readOneEnd : PipeCall := .pipeFd1ReadCb 5 true false [{ direct := [[7]], read := { first := .error .eagain } }] []

def readLast : PipeState := (readOneEnd.run dupEnv replayedFirst).getD newPipe

/-- The only FileFD of the end is closed. A forked process writes to the end and starts a child,
    whose replayed output is delivered first. -/
theorem a_forked_process_is_overtaken :
    ∃ p s q, Reachable p ∧ p.pipe.drain dupEnv (eagerAnswers p.written) = some s ∧ Later ⟨s, p.written⟩ q ∧
      p.written 0 = [7] ∧ q.pipe.sent = [8, 7] ∧ ¬InOrder p q.pipe := by
  have hclose : Step oneEnd ⟨orphanedEnd, oneEnd.written⟩ :=
    .call dupEnv (.handleClose 10 [] []) trivial trivial (fun _ _ _ _ _ => rfl) rfl fun _ => prefix_refl _
  have hwrite : Step ⟨orphanedEnd, oneEnd.written⟩ (oneByte orphanedEnd) := .write 0 [7] ⟨5, rfl⟩
  have hreplay : Step (oneByte orphanedEnd) (oneByte replayedFirst) :=
    .call dupEnv (.addDataFromBuffer [8] [.sent 1]) trivial trivial trivial rfl fun e => nil_prefix
  have hread : Step (oneByte replayedFirst) (oneByte readLast) := by
    refine .call dupEnv readOneEnd trivial trivial (fun e he s hs => ?_) rfl fun e => ?_
    · obtain rfl : 0 = e := Option.some.inj he
      rw [← Option.some.inj hs]
      rfl
    show through e [(none, [8]), (some 0, [7])] <+: Function.update (fun _ => []) 0 [7] e
    by_cases he : e = 0
    · subst he
      exact prefix_refl _
    · simp [through, Ne.symm he]
  refine ⟨oneByte orphanedEnd, orphanedEnd, oneByte readLast, (oneEnd_reachable.step hclose).step hwrite, rfl,
    (Relation.ReflTransGen.single hreplay).tail hread, rfl, rfl, fun horder => ?_⟩
  have hbehind := horder.behind [] (none, [8]) [(some 0, [7])] rfl (by simp) (by decide) 0 (by decide)
  exact absurd hbehind (by decide)

end SharedPipe
end Firebuild
