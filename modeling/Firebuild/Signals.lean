/-
  Firebuild.Signals — the handlers of a signal behind the interceptor's wrappers
  (`tpl_signal.c.jinja2`, `intercept.c`), outside of danger zones. One signal that can be caught;
  masks and flags other than SA_SIGINFO are passed on.

  signal() and sigset() only know the wrapper with one argument, so after a sigaction() with
  SA_SIGINFO the program gets the other one; and they install a wrapper for SIG_HOLD and SIG_ERR
  (`a_wrapper_gets_out`). Without those calls nothing can be told (`signals_are_transparent`).
-/

import Mathlib.Logic.Basic

namespace Firebuild.Signals

/-- A value of sa_handler or sa_sigaction. SIG_DFL is NULL. -/
inductive Handler where
  | dfl | ign | hold | err
  | function (address : Nat)
  | wrapper1arg | wrapper3arg
  deriving DecidableEq

structure Action where
  handler : Handler
  siginfo : Bool := false
  deriving DecidableEq

inductive Call where
  | signal (handler : Handler)
  | sigset (handler : Handler)
  | sigaction (act : Option Action) (oldact : Bool)

/-! ## Without the interceptor -/

structure Kernel where
  act : Action
  blocked : Bool

def origSignal (handler : Handler) (k : Kernel) : Handler × Kernel :=
  if handler = .err then (.err, k) else (k.act.handler, { k with act := { handler } })

def origSigset (handler : Handler) (k : Kernel) : Handler × Kernel :=
  (if k.blocked then .hold else k.act.handler,
    if handler = .hold then { k with blocked := true } else { act := { handler }, blocked := false })

def origSigaction (act : Option Action) (k : Kernel) : Action × Kernel := (k.act, { k with act := act.getD k.act })

def Kernel.call (k : Kernel) : Call → Option Action × Kernel
  | .signal handler => let (handler, k) := origSignal handler k; (some { handler }, k)
  | .sigset handler => let (handler, k) := origSigset handler k; (some { handler }, k)
  | .sigaction act oldact => let (old, k) := origSigaction act k; (if oldact then some old else none, k)

/-- What the signal runs, if it is delivered. -/
def Kernel.runs (k : Kernel) : Option Action := if k.blocked then none else some k.act

/-- What every call returns, and what the signal would run after it. -/
def Kernel.run (k : Kernel) : List Call → List (Option Action × Option Action)
  | [] => []
  | c :: calls => ((k.call c).1, (k.call c).2.runs) :: (k.call c).2.run calls

/-! ## With it -/

structure Intercepted where
  kernel : Kernel
  /-- `orig_signal_handlers[signum - 1]` -/
  orig : Handler := .dfl

def Action.wrapper (a : Action) : Handler := if a.siginfo then .wrapper3arg else .wrapper1arg

def Action.wrapped (a : Action) : Action :=
  if a.handler = .ign ∨ a.handler = .dfl then a else { a with handler := a.wrapper }

/-- signal() and sigset() -/
def Intercepted.setHandler (orig : Handler → Kernel → Handler × Kernel) (handler : Handler) (s : Intercepted) :
    Option Action × Intercepted :=
  let (ret, kernel) := orig (Action.wrapped { handler }).handler s.kernel
  (some { handler := if ret = .wrapper1arg then s.orig else ret }, { kernel, orig := handler })

def Intercepted.call (s : Intercepted) : Call → Option Action × Intercepted
  | .signal handler => s.setHandler origSignal handler
  | .sigset handler => s.setHandler origSigset handler
  | .sigaction act oldact =>
    let (old, kernel) := origSigaction (act.map Action.wrapped) s.kernel
    let old := if old.handler = old.wrapper then { old with handler := s.orig } else old
    (if oldact then some old else none, { kernel, orig := (act.map (·.handler)).getD s.orig })

def Intercepted.runs (s : Intercepted) : Option Action :=
  s.kernel.runs.map fun a => match a.handler with
    | .wrapper1arg => ⟨s.orig, false⟩
    | .wrapper3arg => ⟨s.orig, true⟩
    | _ => a

def Intercepted.run (s : Intercepted) : List Call → List (Option Action × Option Action)
  | [] => []
  | c :: calls => ((s.call c).1, (s.call c).2.runs) :: (s.call c).2.run calls

/-! ## Transparency -/

def Handler.Own (h : Handler) : Prop := h ≠ .wrapper1arg ∧ h ≠ .wrapper3arg

/-- No wrapper with three arguments is installed. -/
def Kernel.OneArg (k : Kernel) : Prop := k.act.siginfo = true → k.act.handler = .ign ∨ k.act.handler = .dfl

def Kernel.Plain (k : Kernel) : Call → Prop
  | .signal handler => handler.Own ∧ handler ≠ .err ∧ k.OneArg
  | .sigset handler => handler.Own ∧ handler ≠ .err ∧ handler ≠ .hold ∧ (k.blocked = false → k.OneArg)
  | .sigaction act _ => ∀ a ∈ act, a.handler.Own

def Kernel.PlainRun (k : Kernel) : List Call → Prop
  | [] => True
  | c :: calls => k.Plain c ∧ (k.call c).2.PlainRun calls

/-- The table matters only while the kernel has a wrapper. -/
structure Sim (s : Intercepted) (k : Kernel) : Prop where
  kernel : s.kernel = ⟨k.act.wrapped, k.blocked⟩
  orig : s.orig = k.act.handler ∨ k.act.handler = .ign ∨ k.act.handler = .dfl
  own : k.act.handler.Own

attribute [grind] Action.wrapper Action.wrapped Handler.Own Kernel.OneArg

variable {s : Intercepted} {k : Kernel} {c : Call} {a : Action}

theorem Sim.install {b b' : Bool} (hown : a.handler.Own) (hb : b = b') : Sim ⟨⟨a.wrapped, b⟩, a.handler⟩ ⟨a, b'⟩ :=
  ⟨by rw [hb], .inl rfl, hown⟩

theorem Sim.runs (h : Sim s k) : s.runs = k.runs := by
  obtain ⟨hkernel, horig, hown⟩ := h
  obtain ⟨⟨handler, siginfo⟩, blocked⟩ := k
  rw [Intercepted.runs, hkernel]
  cases blocked
  · simp only [Kernel.runs, Bool.false_eq_true, if_false, Option.map_some]
    grind
  · rfl

/-- What signal() and sigset() make of the kernel's handler. -/
theorem Sim.returned (h : Sim s k) (hone : k.OneArg) :
    (if s.kernel.act.handler = .wrapper1arg then s.orig else s.kernel.act.handler) = k.act.handler := by
  obtain ⟨hkernel, horig, hown⟩ := h
  grind

/-- What sigaction() makes of the kernel's action. -/
theorem Sim.old (h : Sim s k) : (if s.kernel.act.handler = s.kernel.act.wrapper then
    { s.kernel.act with handler := s.orig } else s.kernel.act) = k.act := by
  obtain ⟨hkernel, horig, hown⟩ := h
  obtain ⟨⟨handler, siginfo⟩, blocked⟩ := k
  grind

theorem wrapped_handler (handler : Handler) :
    { handler := (Action.wrapped { handler }).handler } = Action.wrapped { handler } ∧
      ((Action.wrapped { handler }).handler = .err → handler = .err) := by
  grind

/-- A call returns the same, and no wrapper. -/
theorem Sim.call (h : Sim s k) (hp : k.Plain c) : (s.call c).1 = (k.call c).1 ∧ Sim (s.call c).2 (k.call c).2 ∧
    ∀ a ∈ (k.call c).1, a.handler.Own := by
  have hown := h.own
  have hblocked : s.kernel.blocked = k.blocked := by rw [h.kernel]
  cases c with
  | signal handler =>
    obtain ⟨hnew, herr, hone⟩ := hp
    have hinstall := Sim.install (a := { handler }) hnew hblocked
    simp only [Intercepted.call, Intercepted.setHandler, Kernel.call, origSignal]
    grind [wrapped_handler, Sim.returned]
  | sigset handler =>
    obtain ⟨hnew, herr, hhold, hone⟩ := hp
    have hinstall := Sim.install (a := { handler }) hnew (rfl : false = false)
    simp only [Intercepted.call, Intercepted.setHandler, Kernel.call, origSigset]
    grind [wrapped_handler, Sim.returned]
  | sigaction act oldact =>
    refine ⟨congrArg (fun old => if oldact then some old else none) h.old, ?_, ?_⟩
    · cases act with
      | none => exact h
      | some a => exact .install (hp a rfl) hblocked
    · cases oldact <;> simp [Kernel.call, origSigaction, hown]

theorem Sim.run (calls : List Call) (h : Sim s k) (hp : k.PlainRun calls) :
    s.run calls = k.run calls ∧ ∀ r ∈ k.run calls, ∀ a ∈ r.1, a.handler.Own := by
  induction calls generalizing s k with
  | nil => exact ⟨rfl, by simp [Kernel.run]⟩
  | cons c calls ih =>
    obtain ⟨hret, hnext, hown⟩ := h.call hp.1
    obtain ⟨hrun, howns⟩ := ih hnext hp.2
    exact ⟨by rw [Intercepted.run, Kernel.run, hret, hnext.runs, hrun], List.forall_mem_cons.mpr ⟨hown, howns⟩⟩

/-- After exec() a signal is ignored or has the default action. From there all calls return what
    they return without the interceptor, never one of its wrappers, and the signal runs the same. -/
theorem signals_are_transparent (hk : k.act.handler = .ign ∨ k.act.handler = .dfl) (calls : List Call)
    (hp : k.PlainRun calls) : Intercepted.run { kernel := k } calls = k.run calls ∧
      ∀ r ∈ Intercepted.run { kernel := k } calls, ∀ a ∈ r.1, a.handler.Own := by
  have hstart : Sim { kernel := k } k := ⟨by rw [Action.wrapped, if_pos hk], .inr hk, by grind⟩
  obtain ⟨hrun, hown⟩ := hstart.run calls hp
  exact ⟨hrun, hrun ▸ hown⟩

/-- What signal() returns is restored by sigaction(). -/
theorem a_handler_is_restored : Intercepted.run { kernel := ⟨⟨.dfl, false⟩, false⟩ }
      [.signal (.function 1), .signal .ign, .sigaction (some ⟨.function 1, false⟩) false] =
    [(some ⟨.dfl, false⟩, some ⟨.function 1, false⟩), (some ⟨.function 1, false⟩, some ⟨.ign, false⟩),
      (none, some ⟨.function 1, false⟩)] :=
  (signals_are_transparent (.inr rfl) _ (by
    simp [Kernel.PlainRun, Kernel.Plain, Kernel.OneArg, Handler.Own, Kernel.call, origSignal])).1

def unwrapped : List Call := [.sigaction (some ⟨.function 1, true⟩) false, .signal .ign, .sigset .hold]

/-- signal() returns the wrapper, and sigset() makes the signal run SIG_HOLD. -/
theorem a_wrapper_gets_out :
    Intercepted.run { kernel := ⟨⟨.dfl, false⟩, false⟩ } unwrapped = [(none, some ⟨.function 1, true⟩),
      (some ⟨.wrapper3arg, false⟩, some ⟨.ign, false⟩), (some ⟨.ign, false⟩, some ⟨.hold, false⟩)] ∧
    Kernel.run ⟨⟨.dfl, false⟩, false⟩ unwrapped = [(none, some ⟨.function 1, true⟩),
      (some ⟨.function 1, false⟩, some ⟨.ign, false⟩), (some ⟨.ign, false⟩, none)] := by
  decide

end Firebuild.Signals
