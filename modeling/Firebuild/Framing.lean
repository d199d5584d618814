/-
  Firebuild.Framing — the messages of an interceptor's connection (`ic_conn_readcb` of
  `message_processor.cc`, `msg_header` of `firebuild_common.h`).

  A message is a header (the size of the payload, the ack number and the number of attached
  fds) and the payload. The callback reads what there is and dispatches every message that is
  complete: to the new-process handler while the connection has no process, then to the
  process's handler. It looks at the connection's process once for a read, before the first
  message of it is handled.

  The new-process handler stores the process in the connection's context when it creates it
  (`start`: it sees everything that was dispatched before), or queues the connection; the
  process is then stored while another connection's message is handled (`attach`). Suppressing
  the debug messages is not modelled.

  Proved: `framing_exact`; `second_message_in_first_read`.
-/

import Firebuild.LinearBuffer
import Firebuild.Lib.Encoding
import Firebuild.Lib.Frames
import Mathlib.Data.List.Induction

namespace Firebuild

open Lib.Encoding Lib.Frames
open List

/-! ## The header -/

/-- `msg_header` -/
structure MsgHeader where
  msgSize : UInt32
  ackId : UInt16
  fdCount : UInt16
  deriving DecidableEq, Repr

namespace MsgHeader

def size : Nat := 8

/-- The header in memory, little-endian. -/
def bytes (h : MsgHeader) : Bytes :=
  leBytes 4 h.msgSize.toNat ++ (leBytes 2 h.ackId.toNat ++ leBytes 2 h.fdCount.toNat)

/-- What a pointer to the data is as a header. -/
def ofBytes (b : Bytes) : MsgHeader where
  msgSize := UInt32.ofNat (leNat (b.take 4))
  ackId := UInt16.ofNat (leNat ((b.drop 4).take 2))
  fdCount := UInt16.ofNat (leNat ((b.drop 6).take 2))

@[simp] theorem length_bytes (h : MsgHeader) : h.bytes.length = size := by
  simp [bytes, size, leBytes_length]

theorem ofBytes_bytes (h : MsgHeader) (t : Bytes) : ofBytes (h.bytes ++ t) = h := by
  have hlt := h.msgSize.toNat_lt
  have hlt' := h.ackId.toNat_lt
  have hlt'' := h.fdCount.toNat_lt
  have hsize : leNat (leBytes 4 h.msgSize.toNat) = h.msgSize.toNat := leNat_leBytes (by omega)
  have hack : leNat (leBytes 2 h.ackId.toNat) = h.ackId.toNat := leNat_leBytes (by omega)
  have hfds : leNat (leBytes 2 h.fdCount.toNat) = h.fdCount.toNat := leNat_leBytes (by omega)
  have h4 : (leBytes 4 h.msgSize.toNat).length = 4 := leBytes_length _ _
  have h2 : (leBytes 2 h.ackId.toNat).length = 2 := leBytes_length _ _
  have h2' : (leBytes 2 h.fdCount.toNat).length = 2 := leBytes_length _ _
  have htake : (h.bytes ++ t).take 4 = leBytes 4 h.msgSize.toNat := by
    rw [bytes, append_assoc, take_append_of_le_length (by omega), take_of_length_le (by omega)]
  have hdrop : (h.bytes ++ t).drop 4 = leBytes 2 h.ackId.toNat ++ (leBytes 2 h.fdCount.toNat ++ t) := by
    rw [bytes, append_assoc, drop_append_of_le_length (by omega), drop_of_length_le (by omega),
      nil_append, append_assoc]
  have hdrop' : (h.bytes ++ t).drop 6 = leBytes 2 h.fdCount.toNat ++ t := by
    rw [show 6 = 4 + 2 from rfl, ← drop_drop, hdrop, drop_append_of_le_length (by omega),
      drop_of_length_le (by omega), nil_append]
  simp only [ofBytes, htake, hdrop, hdrop']
  rw [take_append_of_le_length (by omega), take_of_length_le (by omega),
    take_append_of_le_length (by omega), take_of_length_le (by omega), hsize, hack, hfds,
    UInt32.ofNat_toNat, UInt16.ofNat_toNat, UInt16.ofNat_toNat]

theorem ofBytes_append (h : size ≤ b.length) (t : Bytes) : ofBytes (b ++ t) = ofBytes b := by
  unfold size at h
  unfold ofBytes
  rw [take_append_of_le_length (by omega), drop_append_of_le_length (by omega), drop_append_of_le_length (by omega),
    take_append_of_le_length (by rw [length_drop]; omega),
    take_append_of_le_length (by rw [length_drop]; omega)]

end MsgHeader

/-! ## Messages -/

structure Msg where
  ackId : UInt16
  fdCount : UInt16 := 0
  payload : Bytes
  fits : payload.length < 2 ^ 32
  deriving DecidableEq, Repr

namespace Msg

def header (m : Msg) : MsgHeader := ⟨UInt32.ofNat m.payload.length, m.ackId, m.fdCount⟩

def wire (m : Msg) : Bytes := m.header.bytes ++ m.payload

theorem header_msgSize (m : Msg) : m.header.msgSize.toNat = m.payload.length := by
  exact Nat.mod_eq_of_lt m.fits

/-- The message at the front of the data if it is complete, and the data after it. -/
def next (s : Bytes) : Option (Msg × Bytes) :=
  if s.length < MsgHeader.size then none
  else
    let header := MsgHeader.ofBytes s
    let fullLength := MsgHeader.size + header.msgSize.toNat
    if s.length < fullLength then none
    else
      some ({ ackId := header.ackId
              fdCount := header.fdCount
              payload := (s.drop MsgHeader.size).take header.msgSize.toNat
              fits := Nat.lt_of_le_of_lt (length_take_le _ _) header.msgSize.toNat_lt },
            s.drop fullLength)

variable {s : Bytes}

theorem next_eq_some (h : next s = some (m, r)) :
    MsgHeader.size + (MsgHeader.ofBytes s).msgSize.toNat ≤ s.length ∧
      m.ackId = (MsgHeader.ofBytes s).ackId ∧ m.fdCount = (MsgHeader.ofBytes s).fdCount ∧
      m.payload = (s.drop MsgHeader.size).take (MsgHeader.ofBytes s).msgSize.toNat ∧
      r = s.drop (MsgHeader.size + (MsgHeader.ofBytes s).msgSize.toNat) := by
  unfold next at h
  split at h
  · cases h
  dsimp only at h
  split at h
  · cases h
  next hlen =>
  cases h
  exact ⟨Nat.le_of_not_lt hlen, rfl, rfl, rfl, rfl⟩

theorem next_eq_none (h : next s = none) :
    s.length < MsgHeader.size ∨ s.length < MsgHeader.size + (MsgHeader.ofBytes s).msgSize.toNat := by
  unfold next at h
  split at h
  · next hlen => exact .inl hlen
  dsimp only at h
  split at h
  · next hlen => exact .inr hlen
  · cases h

theorem next_of_le (h : MsgHeader.size + (MsgHeader.ofBytes s).msgSize.toNat ≤ s.length) :
    ∃ m r, next s = some (m, r) := by
  cases hnext : next s with
  | none =>
    have := next_eq_none hnext
    omega
  | some p => exact ⟨p.1, p.2, rfl⟩

protected theorem ext' {m m' : Msg} (ha : m.ackId = m'.ackId) (hf : m.fdCount = m'.fdCount) (hp : m.payload = m'.payload) :
    m = m' := by
  cases m
  cases m'
  cases ha
  cases hf
  cases hp
  rfl

/-- Messages cut off the front of the stream. -/
def format : Format Msg UInt8 where
  next := next
  length_lt := by
    intro s m r h
    obtain ⟨hlen, -, -, -, rfl⟩ := next_eq_some h
    rw [length_drop]
    unfold MsgHeader.size at hlen ⊢
    omega
  next_append := by
    intro s m r h t
    obtain ⟨hlen, hack, hfds, hpayload, rfl⟩ := next_eq_some h
    have hhead : MsgHeader.ofBytes (s ++ t) = MsgHeader.ofBytes s := MsgHeader.ofBytes_append (by omega) t
    obtain ⟨m', r', h'⟩ := next_of_le (s := s ++ t) (by rw [hhead, length_append]; omega)
    obtain ⟨-, hack', hfds', hpayload', rfl⟩ := next_eq_some h'
    rw [hhead] at hack' hfds' hpayload' h'
    rw [h', drop_append_of_le_length (by omega)]
    rw [drop_append_of_le_length (by omega), take_append_of_le_length (by rw [length_drop]; omega)] at hpayload'
    rw [Msg.ext' (hack'.trans hack.symm) (hfds'.trans hfds.symm) (hpayload'.trans hpayload.symm)]

@[simp] theorem format_next : format.next = next := rfl

theorem next_wire (m : Msg) (t : Bytes) : next (m.wire ++ t) = some (m, t) := by
  have hhead : MsgHeader.ofBytes (m.wire ++ t) = m.header := by
    exact MsgHeader.ofBytes_bytes _ _
  have hsize : (MsgHeader.ofBytes (m.wire ++ t)).msgSize.toNat = m.payload.length := by rw [hhead, header_msgSize]
  have hwire : m.wire.length = MsgHeader.size + m.payload.length := by simp [wire]
  obtain ⟨m', r', h'⟩ := next_of_le (by rw [hsize, length_append]; omega)
  obtain ⟨-, hack, hfds, hpayload, rfl⟩ := next_eq_some h'
  rw [hhead] at hack hfds
  rw [hsize] at hpayload h'
  have hbody : (m.wire ++ t).drop MsgHeader.size = m.payload ++ t := by
    rw [wire, append_assoc, drop_append_of_le_length (by simp), drop_of_length_le (by simp), nil_append]
  rw [hbody, take_append_of_le_length (Nat.le_refl _), take_length] at hpayload
  rw [h', ← hwire, drop_left, Msg.ext' hack hfds hpayload]

theorem frames_wire (l : List Msg) : format.frames (l.flatMap wire) = l := by
  apply Format.frames_flatMap
  intro m t
  exact next_wire m t

end Msg

/-! ## The connection -/

inductive MsgHandler where
  /-- `proc_new_process_msg` -/
  | newProcess
  /-- `proc_ic_msg` -/
  | process (p : Nat)
  deriving DecidableEq, Repr

structure Dispatch where
  handler : MsgHandler
  ackNum : UInt16
  payload : Bytes
  deriving DecidableEq, Repr

/-- The handler of a message by the process the callback has read from the context. -/
def MsgHandler.of : Option Nat → MsgHandler
  | some p => .process p
  | none => .newProcess

def Msg.dispatch (h : MsgHandler) (m : Msg) : Dispatch := ⟨h, m.ackId, m.payload⟩

/-- `ConnectionContext`, with what was dispatched from it and the bytes it got. -/
structure IcConn where
  buffer : LinearBuffer
  proc : Option Nat
  closed : Bool
  dispatched : List Dispatch
  received : Bytes

namespace IcConn

def new : IcConn := ⟨.new, none, false, [], []⟩

/-- delete conn_ctx -/
def hangUp (c : IcConn) : IcConn := { c with closed := true }

variable (start : List Dispatch → Option Nat)

/-- One message. Only the new-process handler gets the place of the context's process. -/
def handle (proc : Option Nat) (c : IcConn) (m : Msg) : IcConn :=
  { c with
    proc := if proc.isNone then (start c.dispatched).or c.proc else c.proc
    dispatched := c.dispatched ++ [m.dispatch (.of proc)] }

def dispatchLoop (proc : Option Nat) : Nat → IcConn → IcConn
  | 0, c => c
  | fuel + 1, c =>
    match Msg.next c.buffer.bytes with
    | none => c
    | some (m, _) =>
      let c' := c.handle start proc m
      let c' := { c' with buffer := c'.buffer.discard (MsgHeader.size + m.payload.length) }
      if c'.buffer.length > 0 then dispatchLoop proc fuel c' else c'

def arrival (c : IcConn) (a : LinearBuffer.ReadAnswers) : Bytes := (c.buffer.readAll a).2.bytes.drop c.buffer.length

/-- `ic_conn_readcb` for a socket that can be read -/
def readcb (c : IcConn) (a : LinearBuffer.ReadAnswers) : IcConn :=
  let c' := { c with buffer := (c.buffer.readAll a).2, received := c.received ++ c.arrival a }
  match (c.buffer.readAll a).1 with
  | .error .eagain => c'
  | .error .other => c'.hangUp
  | .ok 0 => c'.hangUp
  | .ok (_ + 1) => dispatchLoop start c.proc c'.buffer.length c'

end IcConn

inductive ConnEvent where
  /-- The socket can be read. -/
  | read (a : LinearBuffer.ReadAnswers)
  /-- The socket hung up and cannot be read. -/
  | hangUp
  /-- The process of a queued connection is created while the message of another one is handled. -/
  | attach (p : Nat)
  deriving DecidableEq, Repr

namespace IcConn

variable (start : List Dispatch → Option Nat)

/-- A connection gets into a queue by its first message. -/
def step (c : IcConn) : ConnEvent → IcConn
  | .read a => if c.closed then c else c.readcb start a
  | .hangUp => c.hangUp
  | .attach p => if c.dispatched ≠ [] ∧ c.proc = none then { c with proc := some p } else c

def run (events : List ConnEvent) : IcConn := events.foldl (step start) new

/-! ## What is dispatched -/

variable {start}

theorem next_discard {b : LinearBuffer} (h : Msg.next b.bytes = some (m, r)) :
    (b.discard (MsgHeader.size + m.payload.length)).bytes = r := by
  obtain ⟨hlen, -, -, hpayload, rfl⟩ := Msg.next_eq_some h
  have hsize : m.payload.length = (MsgHeader.ofBytes b.bytes).msgSize.toNat := by
    rw [hpayload, length_take_of_le (by rw [length_drop]; omega)]
  rw [LinearBuffer.bytes_discard, hsize]

variable {c : IcConn} {a : LinearBuffer.ReadAnswers}

variable (start) in
/-- The loop dispatches what is complete to the one handler and keeps the rest. -/
theorem dispatchLoop_spec (proc : Option Nat) (hfuel : c.buffer.length ≤ fuel) :
    (dispatchLoop start proc fuel c).buffer.bytes = Msg.format.rest c.buffer.bytes ∧
      (dispatchLoop start proc fuel c).dispatched =
        c.dispatched ++ (Msg.format.frames c.buffer.bytes).map (Msg.dispatch (.of proc)) ∧
      (dispatchLoop start proc fuel c).received = c.received ∧
      (proc.isSome ∨ Msg.format.frames c.buffer.bytes = [] → (dispatchLoop start proc fuel c).proc = c.proc) := by
  induction fuel generalizing c with
  | zero =>
    have hnil : c.buffer.bytes = [] := LinearBuffer.bytes_eq_nil.mpr (Nat.le_zero.mp hfuel)
    rw [hnil]
    exact ⟨hnil, (append_nil _).symm, rfl, fun _ => rfl⟩
  | succ fuel ih =>
    unfold dispatchLoop
    split
    · next hnext =>
      obtain ⟨hframes, hrest⟩ := Format.frames_of_none (F := Msg.format) hnext
      rw [hframes, hrest]
      exact ⟨rfl, (append_nil _).symm, rfl, fun _ => rfl⟩
    · next m r hnext =>
      obtain ⟨hframes, hrest⟩ := Format.frames_of_some (F := Msg.format) hnext
      have hbytes := next_discard hnext
      have hshorter : r.length < c.buffer.length := by
        rw [← LinearBuffer.length_bytes]
        exact Msg.format.length_lt hnext
      have hkeeps : proc.isSome → (c.handle start proc m).proc = c.proc := by
        intro hsome
        show (if proc.isNone then _ else c.proc) = c.proc
        rw [if_neg (by rw [Option.isNone_iff_eq_none]; rintro rfl; cases hsome)]
      rw [hframes, hrest]
      dsimp only
      split
      · obtain ⟨h1, h2, h3, h4⟩ := ih (c := { c.handle start proc m with
            buffer := c.buffer.discard (MsgHeader.size + m.payload.length) }) (by
          rw [← LinearBuffer.length_bytes, hbytes]
          omega)
        rw [hbytes] at h1 h2
        refine ⟨h1, h2.trans ?_, h3, ?_⟩
        · simp [handle]
        rintro (hsome | hnone)
        · exact (h4 (.inl hsome)).trans (hkeeps hsome)
        · cases hnone
      · next hempty =>
        have hr : r = [] := by
          rw [← hbytes]
          exact LinearBuffer.bytes_eq_nil.mpr (Nat.le_zero.mp (Nat.le_of_not_lt hempty))
        rw [hr] at hbytes ⊢
        refine ⟨hbytes, rfl, rfl, ?_⟩
        rintro (hsome | hnone)
        · exact hkeeps hsome
        · cases hnone

/-- A read appends to the data, and only one that gets data can dispatch. -/
theorem bytes_arrival (c : IcConn) (a : LinearBuffer.ReadAnswers) :
    (c.buffer.readAll a).2.bytes = c.buffer.bytes ++ c.arrival a ∧
      ((∃ e, (c.buffer.readAll a).1 = .error e) ∧ c.arrival a = [] ∨
        (c.buffer.readAll a).1 = .ok (c.arrival a).length) := by
  unfold arrival
  rw [← LinearBuffer.length_bytes]
  rcases LinearBuffer.readAll_spec c.buffer a with ⟨d, hret, hbytes⟩ | ⟨herr, hbytes⟩
  · rw [hbytes, drop_left]
    exact ⟨rfl, .inr hret⟩
  · rw [hbytes, drop_length]
    exact ⟨(append_nil _).symm, .inl ⟨herr, rfl⟩⟩

def completes (c : IcConn) (a : LinearBuffer.ReadAnswers) : List Msg :=
  Msg.format.frames (Msg.format.rest c.received ++ c.arrival a)

/-- What is in the buffer and what was dispatched is what the bytes received are cut into. -/
structure Parsed (c : IcConn) : Prop where
  rest : c.buffer.bytes = Msg.format.rest c.received
  dispatched : c.dispatched.map (fun d => (d.ackNum, d.payload)) =
    (Msg.format.frames c.received).map fun m => (m.ackId, m.payload)
  /-- No process before the first message. -/
  fresh : c.dispatched = [] → c.proc = none

variable (start) in
/-- What one read does: all that it completes goes to one handler. -/
theorem readcb_spec (h : c.Parsed) (a : LinearBuffer.ReadAnswers) :
    (c.readcb start a).received = c.received ++ c.arrival a ∧
      (c.readcb start a).dispatched = c.dispatched ++ (c.completes a).map (Msg.dispatch (.of c.proc)) ∧
      (c.readcb start a).buffer.bytes = Msg.format.rest (c.received ++ c.arrival a) ∧
      (c.proc.isSome ∨ c.completes a = [] → (c.readcb start a).proc = c.proc) := by
  -- without new data there is nothing to dispatch
  have hidle : c.arrival a = [] → c.completes a = [] ∧ Msg.format.rest (c.received ++ c.arrival a) = c.buffer.bytes := by
    intro hnil
    rw [completes, hnil, append_nil, append_nil]
    exact ⟨(Format.frames_rest _).1, h.rest.symm⟩
  obtain ⟨hbytes, ⟨⟨e, herr⟩, hnil⟩ | hok⟩ := bytes_arrival c a
  · obtain ⟨hnone, hrest⟩ := hidle hnil
    rw [hnone, hrest]
    rw [hnil, append_nil] at hbytes
    unfold readcb
    rw [herr]
    cases e with
    | eagain | other => exact ⟨rfl, (append_nil _).symm, hbytes, fun _ => rfl⟩
  · by_cases hnil : c.arrival a = []
    · obtain ⟨hnone, hrest⟩ := hidle hnil
      rw [hnone, hrest]
      rw [hnil, append_nil] at hbytes
      unfold readcb
      rw [hok, hnil]
      exact ⟨rfl, (append_nil _).symm, hbytes, fun _ => rfl⟩
    · obtain ⟨n, hn⟩ : ∃ n, (c.arrival a).length = n + 1 :=
        Nat.exists_eq_succ_of_ne_zero fun h0 => hnil (length_eq_zero_iff.mp h0)
      unfold readcb
      rw [hok, hn]
      obtain ⟨h1, h2, h3, h5⟩ := dispatchLoop_spec start c.proc
        (c := { c with buffer := (c.buffer.readAll a).2, received := c.received ++ c.arrival a }) (Nat.le_refl _)
      rw [hbytes, h.rest] at h1 h2 h5
      rw [(Format.frames_rest_append _ _).2]
      exact ⟨h3, h2, h1, h5⟩

theorem frames_received (c : IcConn) (a : LinearBuffer.ReadAnswers) :
    Msg.format.frames (c.received ++ c.arrival a) = Msg.format.frames c.received ++ c.completes a :=
  Format.frames_append _ _

theorem Parsed.readcb (h : c.Parsed) (a : LinearBuffer.ReadAnswers) : (c.readcb start a).Parsed := by
  obtain ⟨hreceived, hdispatched, hbytes, hproc⟩ := readcb_spec start h a
  refine ⟨?_, ?_, ?_⟩
  · rw [hbytes, hreceived]
  · rw [hdispatched, hreceived, frames_received, map_append, map_append, h.dispatched, map_map]
    rfl
  intro hnil
  rw [hdispatched] at hnil
  obtain ⟨hnone, hnew⟩ := append_eq_nil_iff.mp hnil
  rw [hproc (.inr (map_eq_nil_iff.mp hnew))]
  exact h.fresh hnone

theorem Parsed.step (h : c.Parsed) (e : ConnEvent) : (c.step start e).Parsed := by
  cases e with
  | read a =>
    unfold IcConn.step
    dsimp only
    split
    · exact h
    · exact h.readcb a
  | hangUp => exact { h with }
  | attach p =>
    unfold IcConn.step
    dsimp only
    split
    · next hqueued => exact ⟨h.rest, h.dispatched, fun hnil => absurd hnil hqueued.1⟩
    · exact h

theorem run_concat (events : List ConnEvent) (e : ConnEvent) : run start (events ++ [e]) = (run start events).step start e := by
  rw [run, foldl_append]
  rfl

theorem parsed_run (events : List ConnEvent) : (run start events).Parsed := by
  induction events using List.reverseRecOn with
  | nil => exact ⟨rfl, rfl, fun _ => rfl⟩
  | append_singleton events e ih =>
    rw [run_concat]
    exact ih.step e

/-- However the stream is split into reads, what is dispatched is what is complete of it. -/
theorem run_messages {msgs : List Msg}
    (hinitial : (run start events).received <+: msgs.flatMap Msg.wire) :
    (run start events).dispatched.map (fun d => (d.ackNum, d.payload)) <+: msgs.map fun m => (m.ackId, m.payload) := by
  rw [(parsed_run events).dispatched]
  have h := Format.frames_prefix (F := Msg.format) hinitial
  rw [Msg.frames_wire] at h
  exact h.map _

/-! ## To which handler -/

/-- The first message to the new-process handler, the others to the process of the connection. -/
def Routed (c : IcConn) : Prop :=
  (∀ d ∈ c.dispatched.head?, d.handler = .newProcess) ∧
    ∀ d ∈ c.dispatched.tail, ∃ p, c.proc = some p ∧ d.handler = .process p

/-- A read completes a message after the first one while the connection has no process. -/
def Overtakes (c : IcConn) (a : LinearBuffer.ReadAnswers) : Prop :=
  c.closed = false ∧ c.proc = none ∧ c.completes a ≠ [] ∧ 1 < (Msg.format.frames (c.received ++ c.arrival a)).length

theorem Parsed.length (h : c.Parsed) : c.dispatched.length = (Msg.format.frames c.received).length := by
  have := congrArg List.length h.dispatched
  rwa [length_map, length_map] at this

theorem Routed.readcb (h : c.Routed) (hparsed : c.Parsed)
    (hopen : c.closed = false) (hprompt : ¬c.Overtakes a) : (c.readcb start a).Routed := by
  obtain ⟨-, hdispatched, -, hproc⟩ := readcb_spec start hparsed a
  unfold Routed
  rw [hdispatched]
  cases hp : c.proc with
  | some p =>
    -- the connection has its process, and so has had its first message
    have hne : c.dispatched ≠ [] := fun hnil => by rw [hparsed.fresh hnil] at hp; cases hp
    rw [hproc (.inl (by rw [hp]; rfl)), List.head?_append_of_ne_nil _ hne, tail_append_of_ne_nil hne, hp]
    refine ⟨h.1, fun d hd => ⟨p, rfl, ?_⟩⟩
    rcases mem_append.mp hd with hd | hd
    · obtain ⟨p', hp', hhandler⟩ := h.2 d hd
      rw [hp] at hp'
      cases hp'
      exact hhandler
    · obtain ⟨m, -, rfl⟩ := mem_map.mp hd
      rfl
  | none =>
    by_cases hnone : c.completes a = []
    · rw [hproc (.inr hnone), hnone]
      refine ⟨fun d hd => h.1 d (by simpa using hd), fun d hd => ?_⟩
      obtain ⟨p', hp', -⟩ := h.2 d (by simpa using hd)
      rw [hp] at hp'
      cases hp'
    · -- it is the first message, alone
      have hlen : (Msg.format.frames c.received ++ c.completes a).length ≤ 1 := by
        rw [← frames_received]
        exact Nat.le_of_not_lt fun hlt => hprompt ⟨hopen, hp, hnone, hlt⟩
      have hpos : 0 < (c.completes a).length := length_pos_of_ne_nil hnone
      rw [length_append, ← hparsed.length] at hlen
      have hnil : c.dispatched = [] := length_eq_zero_iff.mp (by omega)
      obtain ⟨m, hm⟩ := length_eq_one_iff.mp (show (c.completes a).length = 1 by omega)
      rw [hnil, hm]
      refine ⟨fun d hd => ?_, nofun⟩
      rw [← Option.mem_some.mp hd]
      rfl

theorem Routed.step (h : c.Routed) (hparsed : c.Parsed)
    (hprompt : ∀ a, e = .read a → ¬c.Overtakes a) : (c.step start e).Routed := by
  cases e with
  | read a =>
    unfold IcConn.step
    cases hclosed : c.closed with
    | true => exact h
    | false => exact h.readcb hparsed hclosed (hprompt a rfl)
  | hangUp => exact h
  | attach p =>
    unfold IcConn.step
    dsimp only
    split
    · next hqueued =>
      refine ⟨h.1, fun d hd => ?_⟩
      obtain ⟨p', hp', -⟩ := h.2 d hd
      rw [hqueued.2] at hp'
      cases hp'
    · exact h

/-- Something added to a list is not its first element if the result has two. -/
theorem exists_mem_tail_append (l l' : List α) (hne : l' ≠ []) (hlen : 1 < l.length + l'.length) :
    ∃ x ∈ l', x ∈ (l ++ l').tail := by
  cases l with
  | nil =>
    match l', hlen with
    | x :: y :: l', _ => exact ⟨y, by simp, by simp⟩
    | [x], hlen => simp at hlen
  | cons z l =>
    obtain ⟨x, hx⟩ := exists_mem_of_ne_nil l' hne
    exact ⟨x, hx, mem_append_right _ hx⟩

variable (start) in
/-- A message that was taken for a first one and is not stays in what was dispatched. -/
theorem Overtakes.misrouted (h : c.Overtakes a) (hparsed : c.Parsed) :
    ∃ d ∈ (c.step start (.read a)).dispatched.tail, d.handler = .newProcess := by
  obtain ⟨hopen, hp, hnone, hlen⟩ := h
  have hdispatched := (readcb_spec start hparsed a).2.1
  have hstep : c.step start (.read a) = c.readcb start a := if_neg (by rw [hopen]; decide)
  rw [frames_received, length_append, ← hparsed.length] at hlen
  rw [hstep, hdispatched, hp]
  obtain ⟨d, hnew, hd⟩ := exists_mem_tail_append c.dispatched
    ((c.completes a).map (Msg.dispatch (.of none))) (by simpa using hnone) (by simpa using hlen)
  obtain ⟨m, -, rfl⟩ := mem_map.mp hnew
  exact ⟨_, hd, rfl⟩

theorem step_dispatched (hparsed : c.Parsed) (e : ConnEvent) : c.dispatched <+: (c.step start e).dispatched := by
  cases e with
  | read a =>
    unfold IcConn.step
    dsimp only
    split
    · exact prefix_rfl
    · rw [(readcb_spec start hparsed a).2.1]
      exact prefix_append _ _
  | hangUp => exact prefix_rfl
  | attach p =>
    unfold IcConn.step
    dsimp only
    split
    · exact prefix_rfl
    · exact prefix_rfl

variable (start) in
theorem run_dispatched (events rest : List ConnEvent) :
    (run start events).dispatched <+: (run start (events ++ rest)).dispatched := by
  induction rest using List.reverseRecOn with
  | nil => simp
  | append_singleton rest e ih =>
    rw [← append_assoc, run_concat]
    exact ih.trans (step_dispatched (parsed_run _) e)

/-- All the messages are dispatched to the right handlers if and only if no read completes a message
after the first one while the connection has no process. -/
theorem run_routed (events : List ConnEvent) :
    (run start events).Routed ↔ ∀ pre a post, events = pre ++ .read a :: post → ¬(run start pre).Overtakes a := by
  constructor
  · rintro h pre a post rfl hover
    obtain ⟨d, hd, hhandler⟩ := hover.misrouted start (parsed_run pre)
    obtain ⟨later, hlater⟩ := run_dispatched start (pre ++ [.read a]) post
    rw [run_concat, append_assoc, singleton_append] at hlater
    have hne : ((run start pre).step start (.read a)).dispatched ≠ [] := fun hnil => by
      rw [hnil] at hd
      cases hd
    have hmem : d ∈ (run start (pre ++ .read a :: post)).dispatched.tail := by
      rw [← hlater, tail_append_of_ne_nil hne]
      exact mem_append_left _ hd
    obtain ⟨p, -, hproc⟩ := h.2 d hmem
    rw [hhandler] at hproc
    cases hproc
  · intro h
    induction events using List.reverseRecOn with
    | nil => exact ⟨fun d hd => absurd hd (Option.not_mem_none d), nofun⟩
    | append_singleton events e ih =>
      rw [run_concat]
      have hbefore := ih fun pre a post heq => h pre a (post ++ [e]) (by rw [heq, append_assoc, cons_append])
      exact hbefore.step (parsed_run events) fun a ha => h events a [] (by rw [ha])

/-- For every stream of messages and however it is split into reads: what is dispatched is what is
complete, in order and with the ack numbers and payloads, and all of it once all has arrived. The
first message goes to the new-process handler and the rest to the process exactly if no read completes
a message after the first one while the connection has no process. -/
theorem framing_exact (start : List Dispatch → Option Nat) (events : List ConnEvent) (msgs : List Msg)
    (hstream : (run start events).received <+: msgs.flatMap Msg.wire) :
    (run start events).dispatched.map (fun d => (d.ackNum, d.payload)) <+: msgs.map (fun m => (m.ackId, m.payload)) ∧
      ((run start events).received = msgs.flatMap Msg.wire →
        (run start events).dispatched.map (fun d => (d.ackNum, d.payload)) = msgs.map fun m => (m.ackId, m.payload)) ∧
      ((run start events).Routed ↔ ∀ pre a post, events = pre ++ .read a :: post → ¬(run start pre).Overtakes a) := by
  refine ⟨run_messages hstream, fun hall => ?_, run_routed events⟩
  rw [(parsed_run events).dispatched, hall, Msg.frames_wire]

def tiny (ackId : UInt16) (b : UInt8) : Msg := ⟨ackId, 0, [b], show 1 < 2 ^ 32 by decide⟩

def readOf (d : Bytes) : ConnEvent := .read ⟨.data d, 0, .error .eagain⟩

/-- The second message's header is split and the process is known when the second message is complete. -/
theorem framing_exact_split :
    (run (fun _ => some 5) [readOf (tiny 1 7).wire, readOf ((tiny 2 8).wire.take 3),
        readOf ((tiny 2 8).wire.drop 3)]).dispatched.map (fun d => (d.ackNum, d.payload)) = [(1, [7]), (2, [8])] ∧
      (run (fun _ => some 5) [readOf (tiny 1 7).wire, readOf ((tiny 2 8).wire.take 3),
        readOf ((tiny 2 8).wire.drop 3)]).dispatched.map (·.handler) = [.newProcess, .process 5] :=
  ⟨(framing_exact (fun _ => some 5) [readOf (tiny 1 7).wire, readOf ((tiny 2 8).wire.take 3),
      readOf ((tiny 2 8).wire.drop 3)] [tiny 1 7, tiny 2 8] (by decide)).2.1 (by decide), by decide⟩

/-- The same two messages in one read: the second one is taken for a first one, although the process
exists and is in the connection's context. -/
theorem second_message_in_first_read :
    (run (fun _ => some 5) [readOf ((tiny 1 7).wire ++ (tiny 2 8).wire)]).received = [tiny 1 7, tiny 2 8].flatMap Msg.wire ∧
      (run (fun _ => some 5) [readOf ((tiny 1 7).wire ++ (tiny 2 8).wire)]).dispatched =
        [⟨.newProcess, 1, [7]⟩, ⟨.newProcess, 2, [8]⟩] ∧
      (run (fun _ => some 5) [readOf (tiny 1 7).wire, readOf (tiny 2 8).wire]).dispatched =
        [⟨.newProcess, 1, [7]⟩, ⟨.process 5, 2, [8]⟩] := by
  decide

end IcConn

end Firebuild
