/-
  Firebuild.PipeEnds — the bookkeeping of the ends of a pipe (`pipe.cc`:
  `add_fd1_and_proc`, `handle_close`, `handle_dup`, `set_send_only_mode`, `close_one_fd1`,
  `drain_fd1_end`, `finish`).

  An end is known by its connection and by its FileFDs. It stays when its last FileFD is gone:
  it is drained then, and it is dropped when there is nothing more to be read from it, or with
  the whole pipe.

  A connection that is in epoll already when the pipe leaves the send-only mode is replaced by
  a dup()ed one. The end is not told: its own fd is the old one (`a_remapped_end_keeps_its_fd`).

  Proved: `pipe_ends_are_consistent`; `an_end_without_file_fds_stays`.
-/

import Firebuild.Forwarding

namespace Firebuild

open Option (bind_eq_some_iff map_eq_some_iff mem_def)
open List

/-! ## Maps and epoll -/

namespace EndMap

variable {m : EndMap} {k k' v : Nat} {keys : Finset Nat}

theorem lookup_eraseAll_iff : (m.eraseAll keys).lookup k = some v ↔ k ∉ keys ∧ m.lookup k = some v := by
  rw [← mem_def, ← mem_def, AList.mem_lookup_iff, AList.mem_lookup_iff]
  simp [eraseAll, and_comm]

theorem lookup_erase_iff : (m.erase k').lookup k = some v ↔ k ≠ k' ∧ m.lookup k = some v := by
  by_cases hk : k = k'
  · subst hk
    simp
  · simp [hk]

theorem lookup_insert_iff :
    (m.insert k' v').lookup k = some v ↔ (k = k' ∧ v' = v) ∨ (k ≠ k' ∧ m.lookup k = some v) := by
  by_cases hk : k = k'
  · subst hk
    simp
  · simp [hk]

theorem mem_iff : k ∈ m ↔ ∃ v, m.lookup k = some v := by
  rw [← AList.lookup_isSome, Option.isSome_iff_exists]

theorem mem_list_iff : (k, v) ∈ m.list ↔ m.lookup k = some v := by
  rw [← mem_def, AList.mem_lookup_iff]
  constructor
  · intro h
    obtain ⟨x, hx, ⟨⟩⟩ := mem_map.mp h
    exact hx
  · intro h
    exact mem_map.mpr ⟨⟨k, v⟩, h, rfl⟩

theorem list_keys (m : EndMap) : m.list.map Prod.fst = m.keys := by
  simp [list, AList.keys, List.keys]

def Injective (m : EndMap) : Prop := ∀ k k' v, m.lookup k = some v → m.lookup k' = some v → k = k'

end EndMap

open EndMap (lookup_insert_iff lookup_erase_iff mem_iff mem_list_iff)

namespace Epoll

variable {ep ep' : Epoll} {fd : Nat}

theorem addFd_spec (h : ep.addFd fd = some ep') : fd ∉ ep.added ∧ ep'.added = insert fd ep.added := by
  unfold addFd at h
  split at h
  · cases h
  rename_i hfd
  cases h
  exact ⟨hfd, rfl⟩

theorem delFd_spec (h : ep.delFd fd = some ep') : fd ∈ ep.added ∧ ep'.added = ep.added.erase fd := by
  unfold delFd at h
  split at h
  · rename_i hfd
    cases h
    exact ⟨hfd, rfl⟩
  · cases h

theorem remapToNotAddedFd_spec (h : ep.remapToNotAddedFd fd new = some ep') :
    new ∉ ep.added ∧ ep'.added = ep.added := by
  unfold remapToNotAddedFd at h
  split at h
  · cases h
  rename_i hfd
  cases h
  exact ⟨fun hnew => hfd (.inr hnew), rfl⟩

theorem delFds_spec (h : delFds fds ep = some ep') : ∀ x, x ∈ ep'.added ↔ x ∈ ep.added ∧ x ∉ fds := by
  induction fds generalizing ep with
  | nil =>
    cases h
    simp
  | cons fd fds ih =>
    obtain ⟨ep1, hdel, hrest⟩ := bind_eq_some_iff.mp h
    intro x
    rw [ih hrest x, (delFd_spec hdel).2, Finset.mem_erase, mem_cons, not_or]
    constructor
    · rintro ⟨⟨hne, hx⟩, hnot⟩
      exact ⟨hx, hne, hnot⟩
    · rintro ⟨hx, hne, hnot⟩
      exact ⟨⟨hne, hx⟩, hnot⟩

end Epoll

variable {rs : List ForwardRound} {dropped : Nat → Prop} {s1 s : PipeState}
  {ok : PipeEnv → PipeState → PipeCall → Prop}

namespace PipeState

variable {dup : Nat → Nat} {env : PipeEnv} {s s' : PipeState} {ws : List WriteResult} {c e : Nat} {ep ep' : Epoll}

/-! ## Leaving the send-only mode -/

variable {conns later : List (Nat × Nat)}

/-- The connections that are left for the second loop are those that were in epoll. -/
theorem addConns_spec (h : addConns conns ep = some (later, ep')) : later.Sublist conns ∧ ep.added ⊆ ep'.added ∧
      (∀ x ∈ conns, x ∉ later → x.1 ∈ ep'.added) ∧ ((∀ x ∈ conns, x.1 ∉ ep.added) → (conns.map Prod.fst).Nodup → later = []) := by
  induction conns generalizing ep later with
  | nil =>
    cases h
    exact ⟨List.Sublist.refl _, fun _ hx => hx, nofun, fun _ _ => rfl⟩
  | cons x conns ih =>
    rw [addConns] at h
    split at h
    · rename_i hconn
      obtain ⟨⟨later', ep1⟩, hrest, ⟨⟩⟩ := map_eq_some_iff.mp h
      obtain ⟨hsub, hadded, hreg, _⟩ := ih hrest
      refine ⟨hsub.cons_cons _, hadded, fun x hx hlater => ?_, fun hnone => absurd hconn (hnone _ mem_cons_self)⟩
      rcases mem_cons.mp hx with rfl | hx
      · exact absurd mem_cons_self hlater
      · exact hreg x hx fun hm => hlater (mem_cons_of_mem _ hm)
    · obtain ⟨ep1, hadd, hrest⟩ := bind_eq_some_iff.mp h
      obtain ⟨hsub, hadded, hreg, hnil⟩ := ih hrest
      have hep1 := (Epoll.addFd_spec hadd).2
      refine ⟨hsub.cons _, fun y hy => hadded (by rw [hep1]; exact Finset.mem_insert_of_mem hy), fun x hx hlater => ?_,
        fun hnone hnd => ?_⟩
      · rcases mem_cons.mp hx with rfl | hx
        · exact hadded (by rw [hep1]; exact Finset.mem_insert_self _ _)
        · exact hreg x hx hlater
      obtain ⟨hfirst, hnd⟩ := nodup_cons.mp hnd
      refine hnil (fun x hx => ?_) hnd
      rw [hep1, Finset.mem_insert, not_or]
      refine ⟨fun heq => hfirst ?_, hnone x (mem_cons_of_mem _ hx)⟩
      exact mem_map.mpr ⟨x, hx, heq⟩

/-- While connections are replaced: those that are waiting for it, and what is true of the
    others. -/
structure Remapping (fd0 : Nat) (conns : List (Nat × Nat)) (m : EndMap) (ep : Epoll) : Prop where
  waiting : ∀ x ∈ conns, m.lookup x.1 = some x.2
  nodup : (conns.map Prod.fst).Nodup
  registered : ∀ c ∈ m, c ∉ conns.map Prod.fst → c ∈ ep.added
  inj : m.Injective
  fd0 : fd0 ∉ m

variable {fd0 : Nat} {m : EndMap}

theorem Remapping.remap
    (h : Remapping fd0 ((conn, e) :: conns) m ep) (hnew : new ∉ m) (hfd0 : new ≠ fd0)
    (hep : ep'.added = insert new ep.added) : Remapping fd0 conns ((m.erase conn).insert new e) ep' := by
  obtain ⟨hconn, hnd⟩ := nodup_cons.mp h.nodup
  have hfirst : m.lookup conn = some e := h.waiting _ mem_cons_self
  have hmem : ∀ c v, ((m.erase conn).insert new e).lookup c = some v ↔
      (c = new ∧ e = v) ∨ (c ≠ new ∧ c ≠ conn ∧ m.lookup c = some v) := by
    intro c v
    rw [lookup_insert_iff, lookup_erase_iff]
  constructor
  case waiting =>
    intro x hx
    have hlookup := h.waiting x (mem_cons_of_mem _ hx)
    refine (hmem _ _).mpr (.inr ⟨fun heq => ?_, fun heq => ?_, hlookup⟩)
    · exact hnew (mem_iff.mpr ⟨x.2, heq ▸ hlookup⟩)
    · exact hconn (mem_map.mpr ⟨x, hx, heq⟩)
  case nodup => exact hnd
  case registered =>
    intro c hc hnot
    rw [hep, Finset.mem_insert]
    refine ((AList.mem_insert _).mp hc).imp_right fun hc => ?_
    obtain ⟨hne, hc⟩ := AList.mem_erase.mp hc
    refine h.registered c hc ?_
    rw [map_cons, mem_cons, not_or]
    exact ⟨hne, hnot⟩
  case inj =>
    intro c c' v hc hc'
    rcases (hmem c v).mp hc with ⟨rfl, rfl⟩ | ⟨_, hne, hlookup⟩
    · rcases (hmem c' e).mp hc' with ⟨rfl, _⟩ | ⟨_, hne', hlookup'⟩
      · rfl
      · exact absurd (h.inj _ _ _ hlookup' hfirst) hne'
    rcases (hmem c' v).mp hc' with ⟨_, rfl⟩ | ⟨_, _, hlookup'⟩
    · exact absurd (h.inj _ _ _ hlookup hfirst) hne
    · exact h.inj _ _ _ hlookup hlookup'
  case fd0 =>
    intro hmem0
    rcases (AList.mem_insert _).mp hmem0 with heq | hmem0
    · exact hfd0 heq.symm
    · exact h.fd0 (AList.mem_erase.mp hmem0).2

/-- No end is lost or found by replacing its connection. -/
theorem remapConns_spec
    (h : Remapping fd0 conns m ep) (hrun : remapConns dup fd0 conns m ep = some (m', ep')) :
    Remapping fd0 [] m' ep' ∧ ∀ e, (∃ c, m'.lookup c = some e) ↔ ∃ c, m.lookup c = some e := by
  induction conns generalizing m ep with
  | nil =>
    cases hrun
    exact ⟨h, fun _ => Iff.rfl⟩
  | cons x conns ih =>
    obtain ⟨conn, e0⟩ := x
    rw [remapConns] at hrun
    split at hrun
    · cases hrun
    rename_i hguard
    obtain ⟨hnew, hfd0⟩ := not_or.mp hguard
    obtain ⟨ep2, hstep, hrest⟩ := bind_eq_some_iff.mp hrun
    obtain ⟨ep1, hremap, hadd⟩ := bind_eq_some_iff.mp hstep
    have hep : ep2.added = insert (dup conn) ep.added := by
      rw [(Epoll.addFd_spec hadd).2, (Epoll.remapToNotAddedFd_spec hremap).2]
    obtain ⟨hdone, hvalues⟩ := ih (h.remap hnew hfd0 hep) hrest
    have hfirst : m.lookup conn = some e0 := h.waiting _ mem_cons_self
    refine ⟨hdone, fun e => (hvalues e).trans ⟨?_, ?_⟩⟩
    · rintro ⟨c, hc⟩
      rcases lookup_insert_iff.mp hc with ⟨_, rfl⟩ | ⟨_, hc⟩
      · exact ⟨conn, hfirst⟩
      · exact ⟨c, (lookup_erase_iff.mp hc).2⟩
    · rintro ⟨c, hc⟩
      by_cases hconn : c = conn
      · subst hconn
        rw [hfirst] at hc
        exact ⟨dup c, lookup_insert_iff.mpr (.inl ⟨rfl, Option.some.inj hc⟩)⟩
      refine ⟨c, lookup_insert_iff.mpr (.inr ⟨fun heq => hnew ?_, lookup_erase_iff.mpr ⟨hconn, hc⟩⟩)⟩
      rw [← heq]
      exact mem_iff.mpr ⟨e, hc⟩

/-! ## The invariant -/

def HasEnd (s : PipeState) (e : Nat) : Prop := ∃ c, s.conn2fd1Ends.lookup c = some e

theorem HasEnd.of_mem (h : c ∈ s.conn2fd1Ends) : ∃ e, s.HasEnd e := by
  obtain ⟨e, he⟩ := mem_iff.mp h
  exact ⟨e, c, he⟩

/-- Connections, FileFDs, ends and epoll are consistent; `fresh` says that no connection was in
    epoll for somebody else. -/
structure Booked (fresh : Prop) (s : PipeState) : Prop where
  registered : s.sendOnlyMode = false → ∀ c ∈ s.conn2fd1Ends, c ∈ s.epoll.added
  fileFds : ∀ f e, s.ffd2fd1Ends.lookup f = some e → f ∈ (s.ends e).fileFds ∧ s.HasEnd e
  inj : s.conn2fd1Ends.Injective
  numbered : ∀ e, s.HasEnd e → e < s.nextEnd
  fd0 : ∀ fd0, s.fd0Conn = some fd0 → fd0 ∉ s.conn2fd1Ends
  closed : s.finished = true → ∀ e, ¬s.HasEnd e
  unshared : fresh → s.sendOnlyMode = true → ∀ c ∈ s.conn2fd1Ends, c ∉ s.epoll.added
  ownFd : fresh → ∀ c e, s.conn2fd1Ends.lookup c = some e → (s.ends e).fd = c

def books (s : PipeState) : EndMap × EndMap × (Nat → PipeEnd) × Nat × Option Nat × Bool × Epoll :=
  (s.conn2fd1Ends, s.ffd2fd1Ends, s.ends, s.nextEnd, s.fd0Conn, s.sendOnlyMode, s.epoll)

variable {fresh : Prop} {r : ForwardResult}

theorem Booked.congr (h : Booked fresh s) (hs : s'.books = s.books) : Booked fresh s' := by
  obtain ⟨⟩ := s'
  obtain ⟨rfl, rfl, rfl, rfl, rfl, rfl, rfl⟩ := hs
  exact { h with }

/-- The books are kept, and no end is dropped or added. -/
structure KeepsEnds (fresh : Prop) (s s' : PipeState) : Prop where
  booked : Booked fresh s'
  same : ∀ e, s'.HasEnd e ↔ s.HasEnd e
  conns : fresh → s'.conn2fd1Ends = s.conn2fd1Ends

section

variable (h : Booked fresh s)
include h

theorem KeepsEnds.refl : KeepsEnds fresh s s := ⟨h, fun _ => Iff.rfl, fun _ => rfl⟩

omit h in
theorem KeepsEnds.trans (h : KeepsEnds fresh s s1) (h' : KeepsEnds fresh s1 s') : KeepsEnds fresh s s' :=
  ⟨h'.booked, fun e => (h'.same e).trans (h.same e), fun hf => (h'.conns hf).trans (h.conns hf)⟩

theorem KeepsEnds.of_books (hs : s'.books = s.books) : KeepsEnds fresh s s' := by
  have hconns : s'.conn2fd1Ends = s.conn2fd1Ends := congrArg Prod.fst hs
  exact ⟨h.congr hs, fun e => by unfold HasEnd; rw [hconns], fun _ => hconns⟩

variable {fd : Nat}

omit h in
theorem remapFd0_spec (h : remapFd0 dup s fd0 ep = some (fd, ep'))
    (hfd0 : fd0 ∉ s.conn2fd1Ends) : fd ∉ s.conn2fd1Ends ∧ ep'.added = ep.added := by
  unfold remapFd0 at h
  split at h
  · split at h
    · cases h
    rename_i hdup
    obtain ⟨ep1, hremap, ⟨⟩⟩ := map_eq_some_iff.mp h
    exact ⟨hdup, (Epoll.remapToNotAddedFd_spec hremap).2⟩
  · cases h
    exact ⟨hfd0, rfl⟩

variable {ep1 ep2 ep3 : Epoll}

/-- Entering: the connections are taken out of epoll. -/
theorem enterSendOnlyMode_keeps (hfd0 : s.fd0Conn = some fd0)
    (hdel : Epoll.delFds s.conn2fd1Ends.keys s.epoll = some ep1) (hremap : remapFd0 dup s fd0 ep1 = some (fd, ep2))
    (hadd : ep2.addFd fd = some ep3) :
    KeepsEnds fresh s { s with fd0Conn := some fd, epoll := ep3, sendOnlyMode := true } := by
  obtain ⟨hfd, hep2⟩ := remapFd0_spec hremap (h.fd0 fd0 hfd0)
  have hep3 := (Epoll.addFd_spec hadd).2
  refine ⟨⟨nofun, h.fileFds, h.inj, h.numbered, ?_, nofun, fun _ _ c hc => ?_, h.ownFd⟩, fun e => Iff.rfl, fun _ => rfl⟩
  · rintro _ ⟨⟩
    exact hfd
  rw [hep3, hep2, Finset.mem_insert, not_or]
  refine ⟨fun heq => hfd (heq ▸ hc), fun hmem => ?_⟩
  exact ((Epoll.delFds_spec hdel c).mp hmem).2 (AList.mem_keys.mp hc)

/-- Leaving: the connections are in epoll again, some of them under another number. -/
theorem leaveSendOnlyMode_keeps (hfd0 : s.fd0Conn = some fd0) (hmode : s.sendOnlyMode = true)
    (hadd : addConns s.conn2fd1Ends.list s.epoll = some (later, ep1))
    (hremap : remapConns dup fd0 later s.conn2fd1Ends ep1 = some (m, ep2)) (hdel : ep2.delFd fd0 = some ep3) :
    KeepsEnds fresh s { s with fd0Conn := some fd0, conn2fd1Ends := m, epoll := ep3, sendOnlyMode := false } := by
  obtain ⟨hsub, _, hreg, hnil⟩ := addConns_spec hadd
  have hkeys : (s.conn2fd1Ends.list.map Prod.fst).Nodup := by
    rw [EndMap.list_keys]
    exact s.conn2fd1Ends.keys_nodup
  have hstart : Remapping fd0 later s.conn2fd1Ends ep1 := by
    refine ⟨fun x hx => mem_list_iff.mp (hsub.subset hx), hkeys.sublist (hsub.map _), fun c hc hnot => ?_, h.inj,
      h.fd0 fd0 hfd0⟩
    obtain ⟨e, he⟩ := mem_iff.mp hc
    exact hreg (c, e) (mem_list_iff.mpr he) fun hm => hnot (mem_map.mpr ⟨_, hm, rfl⟩)
  obtain ⟨hdone, hvalues⟩ := remapConns_spec hstart hremap
  have hsame : fresh → m = s.conn2fd1Ends := by
    -- nothing is left to be replaced
    intro hfresh
    have hlater : later = [] := by
      refine hnil (fun x hx => h.unshared hfresh hmode x.1 ?_) hkeys
      exact mem_iff.mpr ⟨x.2, mem_list_iff.mp hx⟩
    subst hlater
    cases hremap
    rfl
  refine ⟨⟨fun _ c hc => ?_, fun f e hf => ?_, hdone.inj, fun e he => h.numbered e ((hvalues e).mp he), ?_, nofun, nofun,
    fun hfresh c e hc => ?_⟩, hvalues, hsame⟩
  · rw [(Epoll.delFd_spec hdel).2, Finset.mem_erase]
    exact ⟨fun heq => hdone.fd0 (heq ▸ hc), hdone.registered c hc not_mem_nil⟩
  · obtain ⟨hf, he⟩ := h.fileFds f e hf
    exact ⟨hf, (hvalues e).mpr he⟩
  · rintro _ ⟨⟩
    exact hdone.fd0
  · rw [hsame hfresh] at hc
    exact h.ownFd hfresh c e hc

theorem setSendOnlyMode_keeps (hrun : s.setSendOnlyMode dup mode = some s') : KeepsEnds fresh s s' := by
  unfold setSendOnlyMode at hrun
  cases hfd0 : s.fd0Conn with
  | none => simp only [hfd0] at hrun; cases hrun
  | some fd0 =>
    simp only [hfd0] at hrun
    split at hrun
    · cases hrun
      exact .refl h
    rename_i hne
    split at hrun
    · simp only [Option.bind_eq_bind, bind_eq_some_iff] at hrun
      obtain ⟨ep1, hdel, ⟨fd, ep2⟩, hremap, ep3, hadd, ⟨⟩⟩ := hrun
      exact enterSendOnlyMode_keeps h hfd0 hdel hremap hadd
    rename_i hmode
    simp only [Option.bind_eq_bind, bind_eq_some_iff] at hrun
    obtain ⟨⟨later, ep1⟩, hadd, ⟨m, ep2⟩, hremap, ep3, hdel, ⟨⟩⟩ := hrun
    have hsend : s.sendOnlyMode = true := by
      cases hs : s.sendOnlyMode with
      | true => rfl
      | false => exact absurd ((Bool.eq_false_of_not_eq_true hmode).trans hs.symm) hne
    exact leaveSendOnlyMode_keeps h hfd0 hsend hadd hremap hdel

theorem sendBuf_keeps {r : PipeOpResult} (hrun : s.sendBuf dup ws = some (r, s')) : KeepsEnds fresh s s' := by
  replace hrun := sendBuf_sending hrun
  induction hrun with
  | empty _ _ => exact .refl h
  | blocked _ _ _ hmode => exact setSendOnlyMode_keeps h hmode
  | closed _ _ _ => exact .of_books h rfl
  | @took s s1 s' n ws r _ _ h1 _ ih =>
    have htook : KeepsEnds fresh s (s.took (n + 1)) := .of_books h rfl
    have hs1 : KeepsEnds fresh s s1 := by
      split at h1
      · exact htook.trans (setSendOnlyMode_keeps htook.booked h1)
      · rw [h1]
        exact htook
    exact hs1.trans (ih hs1.booked)

/-! ## Forwarding -/

omit h in
theorem forwardDirect_books (h : s.forwardDirect env e ds = some s') : s'.books = s.books := by
  induction ds generalizing s with
  | nil =>
    cases h
    rfl
  | cons d ds ih =>
    rw [forwardDirect] at h
    split at h
    · cases h
      rfl
    split at h
    · split at h
      · cases h
      · exact (ih h).trans rfl
    · exact (ih h).trans rfl

omit h in
theorem received_books (h : s.received env e n b = some s') : s'.books = s.books := by
  unfold received at h
  dsimp only at h
  split at h
  · cases h
  · cases h
    rfl

variable {drain : Bool}

theorem forwardLoop_keeps (hrun : s.forwardLoop env e drain rs = some (r, s')) : KeepsEnds fresh s s' := by
  induction rs generalizing s with
  | nil =>
    obtain ⟨⟨r', s1⟩, hsend, ⟨⟩⟩ := map_eq_some_iff.mp hrun
    exact sendBuf_keeps h hsend
  | cons round rs ih =>
    obtain ⟨s1, x, b, hdirect, -, hround⟩ := forwardLoop_cons hrun
    have hs1 : KeepsEnds fresh s s1 := by
      refine .of_books h ?_
      split at hdirect
      · exact forwardDirect_books hdirect
      · cases hdirect
        rfl
    rcases hround with ⟨-, r, hsend, -⟩ | ⟨n, s2, r, s3, -, hreceived, hsend, hrest⟩
    · -- the buffer is not in the books
      have hbuf : KeepsEnds fresh s1 { s1 with buf := b } := .of_books hs1.booked rfl
      exact hs1.trans (hbuf.trans (sendBuf_keeps hbuf.booked hsend))
    have hs2 := hs1.trans (.of_books hs1.booked (received_books hreceived))
    have hs3 := hs2.trans (sendBuf_keeps hs2.booked hsend)
    rcases hrest with ⟨-, -, hrun⟩ | ⟨-, -, rfl⟩
    · exact hs3.trans (ih hs3.booked hrun)
    · exact hs3

theorem forward_keeps (hrun : s.forward env fd1 drain rs = some (r, s')) : KeepsEnds fresh s s' := by
  unfold forward at hrun
  split at hrun
  · cases hrun
    exact .refl h
  split at hrun
  · cases hrun
  · exact forwardLoop_keeps h hrun

end

/-! ## Dropping ends -/

/-- The books are kept. The ends that are left are those that were there and are not dropped, and
    none if the pipe is finished. -/
structure DropsEnds (fresh : Prop) (dropped : Nat → Prop) (s s' : PipeState) : Prop where
  booked : Booked fresh s'
  left : ∀ e, s'.HasEnd e ↔ s.HasEnd e ∧ s'.finished = false ∧ ¬dropped e

theorem Booked.open (h : Booked fresh s) (he : s.HasEnd e) : s.finished = false :=
  Bool.eq_false_of_not_eq_true fun hfin => h.closed hfin e he

theorem KeepsEnds.drops (h : KeepsEnds fresh s s') : DropsEnds fresh (fun _ => False) s s' := by
  refine ⟨h.booked, fun e => ⟨fun he => ⟨(h.same e).mp he, h.booked.open he, id⟩, fun he => (h.same e).mpr he.1⟩⟩

theorem KeepsEnds.then (h : KeepsEnds fresh s s1) (h' : DropsEnds fresh dropped s1 s') : DropsEnds fresh dropped s s' :=
  ⟨h'.booked, fun e => by rw [h'.left e, h.same e]⟩

theorem Booked.of_empty (hends : ∀ e, ¬s.HasEnd e) (hffds : ∀ f e, s.ffd2fd1Ends.lookup f ≠ some e) : Booked fresh s := by
  have hnot : ∀ c, c ∉ s.conn2fd1Ends := fun c hc => by
    obtain ⟨e, he⟩ := HasEnd.of_mem hc
    exact hends e he
  exact ⟨fun _ c hc => absurd hc (hnot c), fun f e hf => absurd hf (hffds f e),
    fun c _ e hc => absurd ⟨c, hc⟩ (hends e), fun e he => absurd he (hends e), fun fd0 _ => hnot fd0, fun _ => hends,
    fun _ _ c hc => absurd hc (hnot c), fun _ c e hc => absurd ⟨c, hc⟩ (hends e)⟩

theorem DropsEnds.of_finished (h : Booked fresh s') (hfin : s'.finished = true) : DropsEnds fresh dropped s s' := by
  refine ⟨h, fun e => ⟨fun he => absurd he (h.closed hfin e), fun he => ?_⟩⟩
  rw [hfin] at he
  exact absurd he.2.1 (by decide)

theorem finish_booked (hrun : s.finish dup ws = some s') (h : Booked fresh s) : Booked fresh s' ∧ s'.finished = true := by
  unfold finish at hrun
  split at hrun
  · rename_i hfin
    cases hrun
    exact ⟨h, hfin⟩
  obtain ⟨⟨r, s1⟩, hsend, rfl⟩ := map_eq_some_iff.mp hrun
  have hempty : ∀ e, ¬s.closedAll.HasEnd e := by
    rintro e ⟨c, hc⟩
    cases hc
  have hclosed : Booked fresh s.closedAll := .of_empty hempty fun f e hf => by
    cases hf
  have hkeeps := sendBuf_keeps hclosed hsend
  have hnone : ∀ e, ¬s1.HasEnd e := fun e he => hempty e ((hkeeps.same e).mp he)
  refine ⟨.of_empty hnone fun f e hf => ?_, rfl⟩
  exact hnone e (hkeeps.booked.fileFds f e hf).2

theorem finish_drops (hrun : s1.finish dup ws = some s') (h : Booked fresh s1) : DropsEnds fresh dropped s s' := by
  obtain ⟨hs', hfin⟩ := finish_booked hrun h
  exact .of_finished hs' hfin

section

variable (h : Booked fresh s)
include h

theorem dropEnd_spec (hc : s.conn2fd1Ends.lookup c = some e) :
    Booked fresh (s.dropEnd c e) ∧ ∀ x, (s.dropEnd c e).HasEnd x ↔ s.HasEnd x ∧ x ≠ e := by
  have hlookup : ∀ k v, (s.dropEnd c e).conn2fd1Ends.lookup k = some v ↔ k ≠ c ∧ s.conn2fd1Ends.lookup k = some v :=
    fun k v => lookup_erase_iff
  have hmem : ∀ k, k ∈ (s.dropEnd c e).conn2fd1Ends → k ≠ c ∧ k ∈ s.conn2fd1Ends := fun k => AList.mem_erase.mp
  have hends : ∀ x, (s.dropEnd c e).HasEnd x ↔ s.HasEnd x ∧ x ≠ e := by
    intro x
    constructor
    · rintro ⟨k, hk⟩
      obtain ⟨hne, hk⟩ := (hlookup k x).mp hk
      exact ⟨⟨k, hk⟩, fun hx => hne (h.inj _ _ _ (hx ▸ hk) hc)⟩
    rintro ⟨⟨k, hk⟩, hne⟩
    refine ⟨k, (hlookup k x).mpr ⟨fun hkc => hne ?_, hk⟩⟩
    rw [hkc, hc] at hk
    exact (Option.some.inj hk).symm
  refine ⟨?_, hends⟩
  constructor
  case registered =>
    intro hmode k hk
    obtain ⟨hne, hk⟩ := hmem k hk
    exact Finset.mem_erase.mpr ⟨hne, h.registered hmode k hk⟩
  case fileFds =>
    intro f x hf
    obtain ⟨hnot, hf⟩ := EndMap.lookup_eraseAll_iff.mp hf
    obtain ⟨hmemf, hx⟩ := h.fileFds f x hf
    exact ⟨hmemf, (hends x).mpr ⟨hx, fun hxe => hnot (hxe ▸ hmemf)⟩⟩
  case inj =>
    intro k k' v hk hk'
    exact h.inj _ _ _ ((hlookup k v).mp hk).2 ((hlookup k' v).mp hk').2
  case numbered => exact fun x hx => h.numbered x ((hends x).mp hx).1
  case fd0 => exact fun fd0 hfd0 hm => h.fd0 fd0 hfd0 (hmem fd0 hm).2
  case closed => exact fun hfin x hx => h.closed hfin x ((hends x).mp hx).1
  case unshared =>
    intro hfresh hmode k hk hadded
    exact h.unshared hfresh hmode k (hmem k hk).2 (Finset.mem_of_mem_erase hadded)
  case ownFd => exact fun hfresh k v hk => h.ownFd hfresh k v ((hlookup k v).mp hk).2

theorem finishOrWait_drops (hrun : s.finishOrWait dup = some s') : DropsEnds fresh (fun _ => False) s s' := by
  unfold finishOrWait at hrun
  split at hrun
  · unfold startFd1Timeout at hrun
    split at hrun
    · cases hrun
    cases hrun
    have hkeeps : KeepsEnds fresh s { s with fd1TimeoutRound := 0, fd1TimeoutSet := true } := .of_books h rfl
    exact hkeeps.drops
  · exact finish_drops hrun h

theorem closeOneFd1_drops (hrun : s.closeOneFd1 dup c = some s') :
    DropsEnds fresh (fun e => s.conn2fd1Ends.lookup c = some e) s s' := by
  unfold closeOneFd1 at hrun
  split at hrun
  · rename_i hnone
    cases hrun
    refine ⟨h, fun e => ⟨fun he => ⟨he, h.open he, by simp [hnone]⟩, fun he => he.1⟩⟩
  rename_i e hc
  obtain ⟨hbooked, hends⟩ := dropEnd_spec h hc
  -- what happens after the end is dropped
  have hafter : DropsEnds fresh (fun _ => False) (s.dropEnd c e) s' := by
    dsimp only at hrun
    split at hrun
    · split at hrun
      · exact finishOrWait_drops hbooked hrun
      · exact (setSendOnlyMode_keeps hbooked hrun).drops
    · cases hrun
      exact (KeepsEnds.refl hbooked).drops
  refine ⟨hafter.booked, fun x => ?_⟩
  rw [hafter.left x, hends x, hc, Option.some.injEq]
  constructor
  · rintro ⟨⟨hx, hne⟩, hopen', _⟩
    exact ⟨hx, hopen', fun heq => hne heq.symm⟩
  · rintro ⟨hx, hopen', hne⟩
    exact ⟨⟨hx, fun heq => hne heq.symm⟩, hopen', id⟩

/-- One end has other FileFDs. -/
theorem refile_keeps (hm : ∀ f x, m.lookup f = some x →
      f ∈ (Function.update s.ends e { s.ends e with fileFds := fds } x).fileFds ∧ s.HasEnd x) :
    KeepsEnds fresh s { s with
      ends := Function.update s.ends e { s.ends e with fileFds := fds }, ffd2fd1Ends := m } := by
  refine ⟨{ h with fileFds := hm, ownFd := fun hfresh k x hk => ?_ }, fun _ => Iff.rfl, fun _ => rfl⟩
  rw [← h.ownFd hfresh k x hk]
  dsimp only
  by_cases hxe : x = e
  · rw [hxe, Function.update_self]
  · rw [Function.update_of_ne hxe]

/-- One FileFD less, and the end stays. -/
theorem dropFileFd_keeps : KeepsEnds fresh s (s.dropFileFd f e) := by
  refine refile_keeps h fun f' x hf' => ?_
  obtain ⟨hne, hf'⟩ := lookup_erase_iff.mp hf'
  obtain ⟨hmem, hx⟩ := h.fileFds f' x hf'
  refine ⟨?_, hx⟩
  by_cases hxe : x = e
  · subst hxe
    rw [Function.update_self]
    exact Finset.mem_erase.mpr ⟨hne, hmem⟩
  · rwa [Function.update_of_ne hxe]

theorem handleDup_keeps : KeepsEnds fresh s (s.handleDup old new) := by
  unfold handleDup
  split
  · exact .refl h
  rename_i e he
  refine refile_keeps h fun f x hf => ?_
  rcases lookup_insert_iff.mp hf with ⟨rfl, rfl⟩ | ⟨_, hf⟩
  · rw [Function.update_self]
    exact ⟨Finset.mem_insert_self _ _, (h.fileFds old _ he).2⟩
  obtain ⟨hmem, hx⟩ := h.fileFds f x hf
  refine ⟨?_, hx⟩
  by_cases hxe : x = e
  · subst hxe
    rw [Function.update_self]
    exact Finset.mem_insert_of_mem hmem
  · rwa [Function.update_of_ne hxe]

end

/-- After forwarding, an end is dropped if there is nothing more to be read from it. -/
theorem afterForward_drops
    (hother : ∀ s, Booked fresh s → KeepsEnds fresh s (other s)) (h : Booked fresh s)
    (hrun : afterForward dup fd ws other (r, s) = some s') :
    DropsEnds fresh (fun e => r = .fd1Eof ∧ s.conn2fd1Ends.lookup fd = some e) s s' := by
  have hkept : DropsEnds fresh (fun _ => False) s (other s) := (hother s h).drops
  unfold afterForward at hrun
  split at hrun
  · rename_i heq
    cases heq
    have hdrops := closeOneFd1_drops h hrun
    exact ⟨hdrops.booked, fun e => by rw [hdrops.left e]; simp⟩
  · rename_i heq
    cases heq
    exact finish_drops hrun h
  · rename_i hne _ heq
    cases heq
    cases hrun
    have hne : r ≠ .fd1Eof := hne
    exact ⟨hkept.booked, fun e => by rw [hkept.left e]; simp [hne]⟩

end PipeState

/-! ## Calls -/

namespace PipeCall

open PipeState

variable {env : PipeEnv} {s s' : PipeState} {e : Nat} {fresh : Prop} {c : PipeCall}

/-- The fds that get into epoll or into the pipe are not in the other one already. -/
def Fresh (s : PipeState) : PipeCall → Prop
  | addFd1AndProc fd1Conn _ _ _ _ => fd1Conn ∉ s.epoll.added
  | epollAdd fd => fd ∉ s.conn2fd1Ends
  | _ => True

/-- The call finds that there is nothing more to be read from the end: EOF, a read error, or a
    hang-up without data. -/
def ReadsToEnd (env : PipeEnv) (s : PipeState) (e : Nat) : PipeCall → Prop
  | pipeFd1ReadCb fd readyForRead drain rs _ =>
    s.conn2fd1Ends.lookup fd = some e ∧
      (readyForRead = false ∨ ∃ s', s.forward env fd drain rs = some (.fd1Eof, s'))
  | drainFd1End fileFd rs _ => s.getFd1End fileFd = some e ∧ ∃ s', s.forward env (s.ends e).fd true rs = some (.fd1Eof, s')
  -- only the last FileFD
  | handleClose fileFd rs _ =>
    s.getFd1End fileFd = some e ∧ (s.ends e).fileFds.card = 1 ∧
      ∃ s', s.forward env (s.ends e).fd true rs = some (.fd1Eof, s')
  | _ => False

/-- What a call does to the ends that are there. -/
structure Books (fresh : Prop) (env : PipeEnv) (c : PipeCall) (s s' : PipeState) : Prop where
  booked : Booked fresh s'
  left : fresh → ∀ e, s.HasEnd e → (s'.HasEnd e ↔ s'.finished = false ∧ ¬c.ReadsToEnd env s e)

theorem Books.of_drops (h : DropsEnds fresh dropped s s')
    (hiff : fresh → ∀ e, s.HasEnd e → (dropped e ↔ c.ReadsToEnd env s e)) : Books fresh env c s s' := by
  refine ⟨h.booked, fun hfresh e he => ?_⟩
  rw [h.left e, hiff hfresh e he]
  exact and_iff_right he

theorem Books.of_keeps (h : KeepsEnds fresh s s') (hnot : ∀ e, ¬c.ReadsToEnd env s e) : Books fresh env c s s' :=
  .of_drops h.drops fun _ e _ => ⟨False.elim, hnot e⟩

variable {ws : List WriteResult}

section

variable (h : Booked fresh s)
include h

variable {fileFd : Nat}

theorem drainFd1End_books
    (hrun : s.drainFd1End env fileFd rs ws = some s') : Books fresh env (drainFd1End fileFd rs ws) s s' := by
  unfold PipeState.drainFd1End at hrun
  split at hrun
  · rename_i hfin
    cases hrun
    exact .of_keeps (.refl h) fun e he => h.closed hfin e (h.fileFds _ e he.1).2
  split at hrun
  · rename_i hnone
    cases hrun
    refine .of_keeps (.refl h) fun e he => ?_
    rw [ReadsToEnd, hnone] at he
    cases he.1
  · rename_i e hend
    obtain ⟨⟨r, s1⟩, hforward, hafter⟩ := bind_eq_some_iff.mp hrun
    have hkeeps := forward_keeps h hforward
    have hdrops := afterForward_drops (fun s hs => dropFileFd_keeps hs) hkeeps.booked hafter
    refine .of_drops (hkeeps.then hdrops) fun hfresh x hx => ?_
    obtain ⟨_, c, hc⟩ := h.fileFds fileFd e hend
    have hown : s.conn2fd1Ends.lookup (s.ends e).fd = some e := by rw [h.ownFd hfresh c e hc, hc]
    rw [hkeeps.conns hfresh, hown, ReadsToEnd, hend, Option.some.injEq]
    constructor
    · rintro ⟨rfl, rfl⟩
      exact ⟨rfl, s1, hforward⟩
    rintro ⟨rfl, s2, hs2⟩
    rw [hforward] at hs2
    cases hs2
    exact ⟨rfl, rfl⟩

theorem handleClose_books
    (hrun : s.handleClose env fileFd rs ws = some s') : Books fresh env (handleClose fileFd rs ws) s s' := by
  unfold PipeState.handleClose at hrun
  split at hrun
  · rename_i hnone
    cases hrun
    refine .of_keeps (.refl h) fun e he => ?_
    rw [ReadsToEnd, hnone] at he
    cases he.1
  · rename_i e hend
    split at hrun
    · rename_i hcard
      obtain ⟨hbooked, hleft⟩ := drainFd1End_books h hrun
      refine ⟨hbooked, fun hfresh x hx => ?_⟩
      rw [hleft hfresh x hx, ReadsToEnd, ReadsToEnd, hend, Option.some.injEq]
      constructor
      · rintro ⟨hopen, hnot⟩
        exact ⟨hopen, fun hr => hnot ⟨hr.1, hr.2.2⟩⟩
      · rintro ⟨hopen, hnot⟩
        exact ⟨hopen, fun hr => hnot ⟨hr.1, hr.1 ▸ hcard, hr.2⟩⟩
    · rename_i hcard
      cases hrun
      refine .of_keeps (dropFileFd_keeps h) fun x hx => ?_
      rw [ReadsToEnd, hend, Option.some.injEq] at hx
      exact hcard (hx.1 ▸ hx.2.1)

theorem pipeFd1ReadCb_books (hrun : s.pipeFd1ReadCb env fd readyForRead drain rs ws = some s') :
    Books fresh env (pipeFd1ReadCb fd readyForRead drain rs ws) s s' := by
  unfold PipeState.pipeFd1ReadCb at hrun
  split at hrun
  · rename_i hready
    obtain ⟨⟨r, s1⟩, hforward, hafter⟩ := bind_eq_some_iff.mp hrun
    have hkeeps := forward_keeps h hforward
    have hdrops := afterForward_drops (fun s hs => .refl hs) hkeeps.booked hafter
    refine .of_drops (hkeeps.then hdrops) fun hfresh x hx => ?_
    rw [hkeeps.conns hfresh, ReadsToEnd, hready, hforward]
    constructor
    · rintro ⟨rfl, hx⟩
      exact ⟨hx, .inr ⟨s1, rfl⟩⟩
    rintro ⟨hx, hfalse | ⟨s2, hs2⟩⟩
    · cases hfalse
    · cases hs2
      exact ⟨rfl, hx⟩
  · rename_i hready
    refine .of_drops (closeOneFd1_drops h hrun) fun _ x _ => ?_
    exact ⟨fun hx => ⟨hx, .inl (Bool.eq_false_of_not_eq_true hready)⟩, fun hx => hx.1⟩

variable {fd1Conn proc : Nat} {recorders : List Nat} {hnd : recorders.Nodup} {ep : Epoll}

/-- A new end, registered in epoll unless the pipe is in send-only mode. -/
theorem withEnd_booked (hopen : s.finished = false) (hconn : fd1Conn ∉ s.conn2fd1Ends) (hfd0 : s.fd0Conn ≠ some fd1Conn)
    (hreg : s.sendOnlyMode = false → ep.added = insert fd1Conn s.epoll.added)
    (hunshared : fresh → s.sendOnlyMode = true → fd1Conn ∉ ep.added ∧ ep = s.epoll) :
    Booked fresh { s.withEnd fd1Conn fileFd proc recorders hnd with epoll := ep } := by
  have hlookup : ∀ k v, (s.conn2fd1Ends.insert fd1Conn s.nextEnd).lookup k = some v ↔
      (k = fd1Conn ∧ s.nextEnd = v) ∨ (k ≠ fd1Conn ∧ s.conn2fd1Ends.lookup k = some v) :=
    fun k v => lookup_insert_iff
  have hold : ∀ k v, s.conn2fd1Ends.lookup k = some v → v < s.nextEnd := fun k v hk => h.numbered v ⟨k, hk⟩
  -- the ends that were there are as they were
  have hends : ∀ x, x < s.nextEnd → (s.withEnd fd1Conn fileFd proc recorders hnd).ends x = s.ends x := fun x hx =>
    Function.update_of_ne hx.ne _ _
  have hnew : (s.withEnd fd1Conn fileFd proc recorders hnd).ends s.nextEnd = ⟨fd1Conn, {fileFd}, recorders, hnd⟩ :=
    Function.update_self _ _ _
  constructor
  case registered =>
    intro hmode k hk
    rw [hreg hmode, Finset.mem_insert]
    exact ((AList.mem_insert _).mp hk).imp_right (h.registered hmode k)
  case fileFds =>
    intro f x hf
    rcases lookup_insert_iff.mp hf with ⟨rfl, rfl⟩ | ⟨_, hf⟩
    · rw [hnew]
      exact ⟨Finset.mem_singleton_self _, fd1Conn, (hlookup _ _).mpr (.inl ⟨rfl, rfl⟩)⟩
    obtain ⟨hmem, k, hk⟩ := h.fileFds f x hf
    rw [hends x (hold k x hk)]
    refine ⟨hmem, k, (hlookup _ _).mpr (.inr ⟨fun hkc => hconn ?_, hk⟩)⟩
    exact mem_iff.mpr ⟨x, hkc ▸ hk⟩
  case inj =>
    intro k k' v hk hk'
    rcases (hlookup k v).mp hk with ⟨rfl, rfl⟩ | ⟨_, hk⟩
    · rcases (hlookup k' _).mp hk' with ⟨rfl, _⟩ | ⟨_, hk'⟩
      · rfl
      · exact absurd (hold _ _ hk') (lt_irrefl _)
    rcases (hlookup k' v).mp hk' with ⟨_, rfl⟩ | ⟨_, hk'⟩
    · exact absurd (hold _ _ hk) (lt_irrefl _)
    · exact h.inj _ _ _ hk hk'
  case numbered =>
    rintro x ⟨k, hk⟩
    rcases (hlookup k x).mp hk with ⟨_, rfl⟩ | ⟨_, hk⟩
    · exact Nat.lt_succ_self _
    · exact Nat.lt_succ_of_lt (hold k x hk)
  case fd0 =>
    intro fd0 hfd hmem
    rcases (AList.mem_insert _).mp hmem with rfl | hmem
    · exact hfd0 hfd
    · exact h.fd0 fd0 hfd hmem
  case closed =>
    intro hfin
    exact nomatch hfin.symm.trans hopen
  case unshared =>
    intro hfresh hmode k hk
    obtain ⟨hnot, rfl⟩ := hunshared hfresh hmode
    rcases (AList.mem_insert _).mp hk with rfl | hk
    · exact hnot
    · exact h.unshared hfresh hmode k hk
  case ownFd =>
    intro hfresh k v hk
    rcases (hlookup k v).mp hk with ⟨rfl, rfl⟩ | ⟨_, hk⟩
    · rw [hnew]
    · rw [hends v (hold k v hk)]
      exact h.ownFd hfresh k v hk

theorem addFd1AndProc_books (hnew : fresh → fd1Conn ∉ s.epoll.added)
    (hrun : s.addFd1AndProc fd1Conn fileFd proc recorders hnd = some s') :
    Books fresh env (addFd1AndProc fd1Conn fileFd proc recorders hnd) s s' := by
  unfold PipeState.addFd1AndProc at hrun
  split at hrun
  · cases hrun
  rename_i hguard
  simp only [not_or] at hguard
  obtain ⟨hopen, hconn, hfd0⟩ := hguard
  have hopen := Bool.eq_false_of_not_eq_true hopen
  have hleft : ∀ e, s.HasEnd e → (s.withEnd fd1Conn fileFd proc recorders hnd).HasEnd e := by
    rintro e ⟨k, hk⟩
    refine ⟨k, lookup_insert_iff.mpr (.inr ⟨fun hkc => hconn ?_, hk⟩)⟩
    exact mem_iff.mpr ⟨e, hkc ▸ hk⟩
  split at hrun
  · rename_i hmode
    cases hrun
    refine ⟨withEnd_booked h hopen hconn hfd0 (fun hm => ?_) (fun hfresh _ => ⟨hnew hfresh, rfl⟩), fun _ e he => ?_⟩
    · rw [hmode] at hm
      cases hm
    · exact iff_of_true (hleft e he) ⟨hopen, id⟩
  · rename_i hmode
    obtain ⟨ep, hep, rfl⟩ := map_eq_some_iff.mp hrun
    refine ⟨withEnd_booked h hopen hconn hfd0 (fun _ => (Epoll.addFd_spec hep).2) (fun _ hm => absurd hm hmode),
      fun _ e he => ?_⟩
    exact iff_of_true (hleft e he) ⟨hopen, id⟩

omit h in
theorem addData_keeps (hrun : (s1.sendBuf env.dup ws).map Prod.snd = some s')
    (h : Booked fresh s) (hs1 : s1.books = s.books) : KeepsEnds fresh s s' := by
  obtain ⟨⟨r, s2⟩, hsend, rfl⟩ := map_eq_some_iff.mp hrun
  have hadded : KeepsEnds fresh s s1 := .of_books h hs1
  exact hadded.trans (sendBuf_keeps hadded.booked hsend)

theorem pipeFd0WriteCb_drops {readyForWrite : Bool}
    (hrun : s.pipeFd0WriteCb env readyForWrite ws finishWs = some s') : DropsEnds fresh (fun _ => False) s s' := by
  unfold PipeState.pipeFd0WriteCb at hrun
  split at hrun
  · split at hrun
    · cases hrun
    · rename_i s1 hsend
      cases hrun
      exact (sendBuf_keeps h hsend).drops
    · rename_i s1 hsend
      exact finish_drops hrun (sendBuf_keeps h hsend).booked
    rename_i s1 hsend
    have hkeeps := sendBuf_keeps h hsend
    split at hrun
    · exact hkeeps.then (finishOrWait_drops hkeeps.booked hrun)
    · cases hrun
      exact hkeeps.drops
  · exact finish_drops hrun (h.congr rfl)

theorem maybeFinish_drops (hrun : s.maybeFinish env = some s') : DropsEnds fresh (fun _ => False) s s' := by
  unfold PipeState.maybeFinish at hrun
  split at hrun
  · cases hrun
    exact (KeepsEnds.refl h).drops
  split at hrun
  · exact finish_drops hrun h
  · exact (setSendOnlyMode_keeps h hrun).drops

/-- What the rest of the supervisor does to epoll. -/
theorem epoll_booked (hreg : ∀ c ∈ s.conn2fd1Ends, c ∈ s.epoll.added → c ∈ ep.added)
    (hunshared : fresh → ∀ c ∈ s.conn2fd1Ends, c ∈ ep.added → c ∈ s.epoll.added) :
    Booked fresh { s with epoll := ep } :=
  { h with
    registered := fun hmode c hc => hreg c hc (h.registered hmode c hc)
    unshared := fun hfresh hmode c hc hadded => h.unshared hfresh hmode c hc (hunshared hfresh c hc hadded) }

theorem run_books (hfresh : fresh → c.Fresh s) (hrun : c.run env s = some s') :
    Books fresh env c s s' := by
  have hnever : ∀ {c : PipeCall}, DropsEnds fresh (fun _ => False) s s' → (∀ e, ¬c.ReadsToEnd env s e) →
      Books fresh env c s s' := fun hdrops hnot => .of_drops hdrops fun _ e _ => ⟨False.elim, hnot e⟩
  cases c with
  | addFd1AndProc fd1Conn fileFd proc recorders hnd => exact addFd1AndProc_books h hfresh hrun
  | handleClose fileFd rs ws => exact handleClose_books h hrun
  | drainFd1End fileFd rs ws => exact drainFd1End_books h hrun
  | pipeFd1ReadCb fd readyForRead drain rs ws => exact pipeFd1ReadCb_books h hrun
  | handleDup oldFileFd newFileFd =>
    cases hrun
    exact .of_keeps (handleDup_keeps h) fun _ => id
  | pipeFd0WriteCb readyForWrite ws finishWs => exact hnever (pipeFd0WriteCb_drops h hrun) fun _ => id
  | fd1TimeoutCb ws =>
    simp only [run, PipeState.fd1TimeoutCb] at hrun
    split at hrun
    · exact hnever (finish_drops hrun (h.congr rfl)) fun _ => id
    · cases hrun
      exact .of_keeps (.of_books h rfl) fun _ => id
  | setSendOnlyMode mode => exact .of_keeps (setSendOnlyMode_keeps h hrun) fun _ => id
  | forward fd1 drain rs =>
    obtain ⟨⟨r, s1⟩, hforward, rfl⟩ := map_eq_some_iff.mp hrun
    exact .of_keeps (forward_keeps h hforward) fun _ => id
  | sendBuf ws => exact .of_keeps (addData_keeps hrun h rfl) fun _ => id
  | addDataFromFd len r ws =>
    simp only [run, PipeState.addDataFromFd] at hrun
    split at hrun
    · cases hrun
      exact .of_keeps (.refl h) fun _ => id
    · exact .of_keeps (addData_keeps hrun h rfl) fun _ => id
  | addDataFromBuffer d ws =>
    simp only [run, PipeState.addDataFromBuffer] at hrun
    split at hrun
    · cases hrun
      exact .of_keeps (.refl h) fun _ => id
    · exact .of_keeps (addData_keeps hrun h rfl) fun _ => id
  | finish ws => exact hnever (finish_drops hrun h) fun _ => id
  | resetFd0Ptrs => exact hnever (maybeFinish_drops h hrun) fun _ => id
  | resetFd1Ptrs =>
    obtain ⟨s1, hmaybe, rfl⟩ := map_eq_some_iff.mp hrun
    have hdrops := maybeFinish_drops h hmaybe
    exact hnever ⟨hdrops.booked.congr rfl, hdrops.left⟩ fun _ => id
  | deactivate recorder =>
    cases hrun
    exact .of_keeps (.of_books h rfl) fun _ => id
  | epollAdd fd =>
    obtain ⟨ep, hadd, rfl⟩ := map_eq_some_iff.mp hrun
    have hep := (Epoll.addFd_spec hadd).2
    refine .of_keeps ⟨epoll_booked h (fun c _ hc => ?_) (fun hf c hc hadded => ?_), fun _ => Iff.rfl, fun _ => rfl⟩
      fun _ => id
    · rw [hep]
      exact Finset.mem_insert_of_mem hc
    rw [hep] at hadded
    rcases Finset.mem_insert.mp hadded with rfl | hadded
    · exact absurd hc (hfresh hf)
    · exact hadded
  | epollDel fd =>
    simp only [run] at hrun
    split at hrun
    · cases hrun
    rename_i hguard
    obtain ⟨hconn, _⟩ := not_or.mp hguard
    obtain ⟨ep, hdel, rfl⟩ := map_eq_some_iff.mp hrun
    have hep := (Epoll.delFd_spec hdel).2
    refine .of_keeps ⟨epoll_booked h (fun c hmem hc => ?_) (fun _ c _ hadded => ?_), fun _ => Iff.rfl, fun _ => rfl⟩
      fun _ => id
    · rw [hep]
      exact Finset.mem_erase.mpr ⟨fun heq => hconn (heq ▸ hmem), hc⟩
    · rw [hep] at hadded
      exact Finset.mem_of_mem_erase hadded

end

end PipeCall

open PipeState

theorem PipeRun.booked (h : PipeRun ok s) : Booked (∀ env s c, ok env s c → c.Fresh s) s := by
  induction h with
  | new fd0 ends fd1PtrsHeld epoll =>
    refine .of_empty (fun e ⟨c, hc⟩ => ?_) fun f e hf => ?_
    · cases hc
    · cases hf
  | call env c _ hok hrun ih => exact (PipeCall.run_books ih (fun hf => hf _ _ _ hok) hrun).booked

/-- In every run: a connection leads to an end and is in epoll unless the pipe is in send-only
    mode, and a FileFD leads to an end that knows it and that is reached through a connection.
    As long as no connection is in epoll for somebody else, the connection is the end's own
    fd, and a call drops the ends it reads to their end, or all of them by finishing the pipe. -/
theorem pipe_ends_are_consistent (h : PipeRun ok s) :
    (∀ c e, s.conn2fd1Ends.lookup c = some e → s.sendOnlyMode = false → c ∈ s.epoll.added) ∧
      (∀ f e, s.ffd2fd1Ends.lookup f = some e → f ∈ (s.ends e).fileFds ∧ ∃ c, s.conn2fd1Ends.lookup c = some e) ∧
      ((∀ env s c, ok env s c → c.Fresh s) → (∀ c e, s.conn2fd1Ends.lookup c = some e → (s.ends e).fd = c) ∧
          ∀ env call s', ok env s call → call.run env s = some s' →
            ∀ e, (∃ c, s.conn2fd1Ends.lookup c = some e) →
              ((¬∃ c, s'.conn2fd1Ends.lookup c = some e) ↔ s'.finished = true ∨ call.ReadsToEnd env s e)) := by
  have hbooked := h.booked
  refine ⟨fun c e hc hmode => hbooked.registered hmode c (mem_iff.mpr ⟨e, hc⟩), hbooked.fileFds, fun hfresh => ?_⟩
  refine ⟨hbooked.ownFd hfresh, fun env call s' hok hrun e he => ?_⟩
  have hleft := (PipeCall.run_books hbooked (fun hf => hf _ _ _ hok) hrun).left hfresh e he
  rw [show (∃ c, s'.conn2fd1Ends.lookup c = some e) ↔ _ from hleft, not_and_or, not_not, Bool.not_eq_false]

/-- A new pipe that gets an end for FileFD 10, read from fd 5. -/
def newPipe : PipeState := { fd0Conn := some 3, ends := fun _ => ⟨0, ∅, [], nodup_nil⟩, recs := fun _ => {} }

def addEnd : PipeCall := .addFd1AndProc 5 10 1 [] nodup_nil

def dupEnv : PipeEnv where dup fd := fd + 4

theorem pipe_ends_are_consistent_with_one_end :
    ∃ s, PipeRun (fun _ s c => c.Fresh s) s ∧ s.conn2fd1Ends.lookup 5 = some 0 ∧ 5 ∈ s.epoll.added ∧ (s.ends 0).fd = 5 := by
  have hnew : PipeRun (fun _ s c => c.Fresh s) newPipe := .new 3 _ true {}
  have hadded := hnew.call dupEnv addEnd (Finset.notMem_empty _) rfl
  have h := pipe_ends_are_consistent hadded
  exact ⟨_, hadded, rfl, h.1 5 0 rfl rfl, (h.2.2 fun _ _ _ hf => hf).1 5 0 rfl⟩

/-- The only FileFD is closed, and there is nothing to be read for now: the end stays. -/
theorem an_end_without_file_fds_stays :
    ∃ s s', PipeRun (fun _ s c => c.Fresh s) s ∧ (PipeCall.handleClose 10 [] []).run dupEnv s = some s' ∧
      (s.ends 0).fileFds = {10} ∧ (s'.ends 0).fileFds = ∅ ∧ s'.conn2fd1Ends.lookup 5 = some 0 := by
  have hnew : PipeRun (fun _ s c => c.Fresh s) newPipe := .new 3 _ true {}
  have hadded := hnew.call dupEnv addEnd (Finset.notMem_empty _) rfl
  exact ⟨_, _, hadded, rfl, rfl, rfl, rfl⟩

/-- The reading end is full, fd 5 gets into epoll for somebody else, and the data is sent: the end
    is read from fd 9 now, but its own fd is 5. -/
theorem a_remapped_end_keeps_its_fd :
    ∃ s, PipeRun (fun _ _ _ => True) s ∧ s.conn2fd1Ends.lookup 9 = some 0 ∧ (s.ends 0).fd = 5 := by
  have hnew : PipeRun (fun _ _ _ => True) newPipe := .new 3 _ true {}
  have hadded := hnew.call dupEnv addEnd trivial rfl
  have hfull := hadded.call dupEnv (.addDataFromBuffer [1] [.eagain]) trivial rfl
  have hshared := hfull.call dupEnv (.epollAdd 5) trivial rfl
  have hsent := hshared.call dupEnv (.sendBuf [.sent 1]) trivial rfl
  exact ⟨_, hsent, rfl, rfl⟩

end Firebuild
