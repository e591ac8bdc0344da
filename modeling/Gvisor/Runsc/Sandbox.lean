import Mathlib.Algebra.Group.Nat.Basic
import Mathlib.Data.Nat.Defs
import Mathlib.Tactic.Common

/-!
# Tearing down a sandbox

`Sandbox.destroy` (runsc/sandbox/sandbox.go) deletes the control socket file, sends `SIGKILL`
to the sandbox process and waits for it to stop. A sandbox that is a child of the current
process is reaped with `Wait4`, which also resets `Pid` to zero. Any other sandbox is polled
with `IsRunning`, signal 0, until it is gone, and keeps its `Pid`.

A call is a program against the host (`HostProg`): each system call continues on the host's
answer. `HostProg.Returns p calls a` says that on some answers `p` makes the system calls
`calls` and ends with `a`, so a statement over every `Returns` is one over every behaviour of
the host process table, the process exiting and its PID being reused included.

The results here: after a `destroy` of a child sandbox that returns nil, a second call returns
nil on every path and sends no signal and waits on nothing (`destroy_child_idempotent`). After
a `destroy` of any other sandbox with a PID that returns nil, the PID is kept, a second call
sends `SIGKILL` to it on every path, and on some it fails (`destroy_again_kills_pid`).

Scope. Of the sandbox, `destroy` reads `ID`, `ControlAddress`, `Pid` and `child`; the other
fields are left out, and so is the exit `status` that `Wait4` stores and nothing here reads.
Logging is left out. `backoff.Retry` with a constant 100 ms back-off under a 5 s context is not
in the source: it is modelled from the spec as at most `retryAttempts` polls, after which it
fails with the context's error.
-/

set_option autoImplicit false

namespace Gvisor.Runsc

/-! ### Programs against the host -/

/-- The errors of the system calls `destroy` makes. -/
inductive Errno
  | esrch
  | other (code : Nat)
deriving DecidableEq, Repr

/-- A system call `destroy` makes. -/
inductive Syscall
  | remove (path : String)
  | kill (pid sig : Nat)
  | wait4 (pid : Nat)
deriving DecidableEq, Repr

/-- A program against the host. It makes system calls, each continuing on the host's answer
(`none` for success), and ends with a value. The answer of `os.Remove` is only logged, so its
continuation does not read it. -/
inductive HostProg (α : Type)
  | done (a : α)
  | remove (path : String) (k : HostProg α)
  | kill (pid sig : Nat) (k : Option Errno → HostProg α)
  | wait4 (pid : Nat) (k : Option Errno → HostProg α)

namespace HostProg

variable {α β : Type}

def bind : HostProg α → (α → HostProg β) → HostProg β
  | .done a, f => f a
  | .remove path k, f => .remove path (k.bind f)
  | .kill pid sig k, f => .kill pid sig fun e => (k e).bind f
  | .wait4 pid k, f => .wait4 pid fun e => (k e).bind f

/-- On some answers of the host, the program makes the system calls `calls`, in order, and
ends with `a`. -/
inductive Returns : HostProg α → List Syscall → α → Prop
  | done (a : α) : Returns (.done a) [] a
  | remove {path : String} {k : HostProg α} {calls : List Syscall} {a : α} :
      Returns k calls a → Returns (.remove path k) (.remove path :: calls) a
  | kill {pid sig : Nat} {k : Option Errno → HostProg α} {calls : List Syscall} {a : α} (e : Option Errno) :
      Returns (k e) calls a → Returns (.kill pid sig k) (.kill pid sig :: calls) a
  | wait4 {pid : Nat} {k : Option Errno → HostProg α} {calls : List Syscall} {a : α} (e : Option Errno) :
      Returns (k e) calls a → Returns (.wait4 pid k) (.wait4 pid :: calls) a

/-- A run of a bind is a run of the first program, then a run of the continuation on its
value, with the system calls in that order. -/
theorem Returns.bind_inv {f : α → HostProg β} {calls : List Syscall} {b : β} :
    ∀ {p : HostProg α}, Returns (p.bind f) calls b →
      ∃ c₁ c₂ a, calls = c₁ ++ c₂ ∧ Returns p c₁ a ∧ Returns (f a) c₂ b
  | .done a, h => ⟨[], calls, a, rfl, .done a, h⟩
  | .remove _ _, .remove h =>
    let ⟨c₁, c₂, a, hc, h₁, h₂⟩ := bind_inv h
    ⟨_ :: c₁, c₂, a, by rw [hc]; rfl, .remove h₁, h₂⟩
  | .kill _ _ _, .kill e h =>
    let ⟨c₁, c₂, a, hc, h₁, h₂⟩ := bind_inv h
    ⟨_ :: c₁, c₂, a, by rw [hc]; rfl, .kill e h₁, h₂⟩
  | .wait4 _ _, .wait4 e h =>
    let ⟨c₁, c₂, a, hc, h₁, h₂⟩ := bind_inv h
    ⟨_ :: c₁, c₂, a, by rw [hc]; rfl, .wait4 e h₁, h₂⟩

theorem Returns.bind {f : α → HostProg β} {p : HostProg α} {c₁ c₂ : List Syscall} {a : α} {b : β}
    (h₁ : Returns p c₁ a) (h₂ : Returns (f a) c₂ b) : Returns (p.bind f) (c₁ ++ c₂) b := by
  induction h₁ with
  | done => exact h₂
  | remove _ ih => exact .remove (ih h₂)
  | kill e _ ih => exact .kill e (ih h₂)
  | wait4 e _ ih => exact .wait4 e (ih h₂)

end HostProg

/-! ### `destroy` -/

/-- The fields of `Sandbox` that `destroy` reads. -/
structure Sandbox where
  id : String
  controlAddress : String
  pid : Nat
  child : Bool
deriving DecidableEq, Repr

/-- `unix.SIGKILL`. -/
def sigkill : Nat := 9

/-- The errors of `waitForStopped`. -/
inductive WaitError
  /-- `error waiting the sandbox process: %v`. -/
  | wait4 (err : Errno)
  /-- The context's error once the polls of `backoff.Retry` are over, each of which saw
  `sandbox is still running`. -/
  | deadlineExceeded
deriving DecidableEq, Repr

/-- The errors of `destroy`. -/
inductive DestroyError
  /-- `killing sandbox %q PID %q: %w`. -/
  | killing (id : String) (pid : Nat) (err : Errno)
  /-- `waiting sandbox %q stop: %w`. -/
  | waiting (id : String) (err : WaitError)
deriving DecidableEq, Repr

/-- `Sandbox.IsRunning`: signal 0 to a non-zero PID succeeds. -/
def isRunning (s : Sandbox) : HostProg Bool :=
  if s.pid ≠ 0 then .kill s.pid 0 fun e => .done (e = none) else .done false

/-- Modelled from the spec: the polls `backoff.Retry` makes in 5 s at 100 ms apart. -/
def retryAttempts : Nat := 50

/-- `backoff.Retry` of the `IsRunning` check, with `n` polls left. -/
def pollStopped (s : Sandbox) : Nat → HostProg (Except WaitError Unit)
  | 0 => .done (.error .deadlineExceeded)
  | n + 1 => (isRunning s).bind fun running => if running then pollStopped s n else .done (.ok ())

/-- `Sandbox.waitForStopped`, with the sandbox it leaves. -/
def waitForStopped (s : Sandbox) : HostProg (Sandbox × Except WaitError Unit) :=
  if s.child then
    if s.pid = 0 then .done (s, .ok ())
    else
      .wait4 s.pid fun
        | some err => .done (s, .error (.wait4 err))
        | none => .done ({ s with pid := 0 }, .ok ())
  else (pollStopped s retryAttempts).bind fun r => .done (s, r)

/-- `Sandbox.destroy`, with the sandbox it leaves. -/
def destroy (s : Sandbox) : HostProg (Sandbox × Except DestroyError Unit) :=
  let wait : HostProg (Sandbox × Except DestroyError Unit) :=
    (waitForStopped s).bind fun (s', r) => .done (s', r.mapError (.waiting s.id))
  let kill : HostProg (Sandbox × Except DestroyError Unit) :=
    if s.pid ≠ 0 then
      .kill s.pid sigkill fun
        | some err => if err ≠ .esrch then .done (s, .error (.killing s.id s.pid err)) else wait
        | none => wait
    else .done (s, .ok ())
  if s.controlAddress.length > 0 ∧ s.controlAddress.front ≠ Char.ofNat 0 then .remove s.controlAddress kill
  else kill

/-! ### What one call can do -/

open HostProg

/-- A run of a program behind an optional `os.Remove`. -/
theorem Returns.of_removeIf {α : Type} {c : Prop} [Decidable c] {path : String} {k : HostProg α}
    {calls : List Syscall} {a : α} (h : Returns (if c then .remove path k else k) calls a) :
    ∃ calls', (calls = calls' ∨ calls = .remove path :: calls') ∧ Returns k calls' a := by
  split at h
  · obtain _ | _ := h
    exact ⟨_, .inr rfl, ‹_›⟩
  · exact ⟨_, .inl rfl, h⟩

variable {s s' : Sandbox} {calls : List Syscall}

theorem waitForStopped_of_not_child (hchild : s.child = false) {r : Except WaitError Unit}
    (h : Returns (waitForStopped s) calls (s', r)) : s' = s := by
  simp only [waitForStopped, hchild, Bool.false_eq_true, if_false] at h
  obtain ⟨_, _, _, -, -, hd⟩ := h.bind_inv
  cases hd
  rfl

/-- Reaping a child sandbox that returns nil leaves it with `Pid` zero. -/
theorem waitForStopped_of_child (hchild : s.child = true) (hpid : s.pid ≠ 0)
    (h : Returns (waitForStopped s) calls (s', .ok ())) : s' = { s with pid := 0 } := by
  simp only [waitForStopped, hchild, hpid, if_true, if_false] at h
  obtain _ | _ := h
  rename_i e h
  cases e <;> cases h
  rw [hchild]

/-- The wait that follows the kill, from a run of it. -/
theorem destroy_wait_inv {c : List Syscall} {r : Except DestroyError Unit}
    (h : Returns ((waitForStopped s).bind fun x => .done (x.1, x.2.mapError (.waiting s.id))) c (s', r)) :
    ∃ c r', Returns (waitForStopped s) c (s', r') ∧ r = r'.mapError (.waiting s.id) := by
  obtain ⟨c₁, _, ⟨_, r'⟩, -, hw, hd⟩ := h.bind_inv
  cases hd
  exact ⟨c₁, r', hw, rfl⟩

/-- Every run of `destroy`. With no PID it removes at most the control file and returns nil.
With one it sends `SIGKILL` to it, and then fails on the answer or waits for the sandbox. -/
theorem destroy_inv {r : Except DestroyError Unit} (h : Returns (destroy s) calls (s', r)) :
    (s.pid = 0 ∧ s' = s ∧ r = .ok () ∧ ∀ c ∈ calls, c = .remove s.controlAddress) ∨
      (s.pid ≠ 0 ∧ .kill s.pid sigkill ∈ calls ∧
        ((s' = s ∧ ∃ err, r = .error (.killing s.id s.pid err)) ∨
          ∃ c r', Returns (waitForStopped s) c (s', r') ∧ r = r'.mapError (.waiting s.id))) := by
  obtain ⟨calls', hc, h⟩ := Returns.of_removeIf h
  by_cases hp : s.pid = 0
  · simp only [hp, ne_eq, not_true_eq_false, if_false] at h
    cases h
    refine .inl ⟨hp, rfl, rfl, fun c hc' => ?_⟩
    rcases hc with rfl | rfl <;> simp at hc'
    exact hc'
  · simp only [hp, ne_eq, not_false_eq_true, if_true] at h
    obtain _ | _ := h
    rename_i _ e h
    refine .inr ⟨hp, by rcases hc with rfl | rfl <;> simp, ?_⟩
    rcases e with _ | err <;> simp only at h
    · exact .inr (destroy_wait_inv h)
    · by_cases herr : err = .esrch
      · simp only [herr, ne_eq, not_true_eq_false, if_false] at h
        exact .inr (destroy_wait_inv h)
      · simp only [herr, ne_eq, not_false_eq_true, if_true] at h
        cases h
        exact .inl ⟨rfl, err, rfl⟩

theorem destroy_of_pid_zero (hp : s.pid = 0) {r : Except DestroyError Unit}
    (h : Returns (destroy s) calls (s', r)) :
    s' = s ∧ r = .ok () ∧ ∀ c ∈ calls, c = .remove s.controlAddress := by
  rcases destroy_inv h with ⟨-, h₁, h₂, h₃⟩ | ⟨hp', -⟩
  · exact ⟨h₁, h₂, h₃⟩
  · exact absurd hp hp'

/-- The host can refuse the `SIGKILL` with any error but `ESRCH`, and `destroy` then fails. -/
theorem destroy_kill_fails (hp : s.pid ≠ 0) {err : Errno} (herr : err ≠ .esrch) :
    ∃ calls, Returns (destroy s) calls (s, .error (.killing s.id s.pid err)) := by
  simp only [destroy, hp, ne_eq, not_false_eq_true, if_true]
  split
  · exact ⟨_, .remove (.kill (some err) (by simp only [herr, not_false_eq_true, if_true]; exact .done _))⟩
  · exact ⟨_, .kill (some err) (by simp only [herr, not_false_eq_true, if_true]; exact .done _)⟩

/-- A `destroy` of a child sandbox that returns nil leaves it with `Pid` zero. -/
theorem destroy_child_ok (hchild : s.child = true) (h : Returns (destroy s) calls (s', .ok ())) :
    s'.pid = 0 := by
  rcases destroy_inv h with ⟨hp, rfl, -⟩ | ⟨hp, -, ⟨-, err, herr⟩ | ⟨c, r', hw, hr⟩⟩
  · exact hp
  · cases herr
  · obtain _ | ⟨⟨⟩⟩ := r'
    · cases hr
    · rw [waitForStopped_of_child hchild hp hw]

/-! ### Two calls -/

/-- After a `destroy` of a child sandbox that returns nil, a second `destroy` returns nil on
every behaviour of the host, and its only system call is the removal of the control file. -/
theorem destroy_child_idempotent (hchild : s.child = true) (h : Returns (destroy s) calls (s', .ok ())) :
    ∀ calls' r, Returns (destroy s') calls' r → r = (s', .ok ()) ∧ ∀ c ∈ calls', c = .remove s'.controlAddress := by
  intro calls' ⟨s'', r⟩ h'
  obtain ⟨rfl, rfl, hc⟩ := destroy_of_pid_zero (destroy_child_ok hchild h) h'
  exact ⟨rfl, hc⟩

/-- A child sandbox, reaped by the first call. -/
theorem destroy_child_idempotent_reaped :
    Returns (destroy ⟨"sandbox", "", 42, true⟩) [.kill 42 sigkill, .wait4 42] (⟨"sandbox", "", 0, true⟩, .ok ()) ∧
      ∀ calls' r, Returns (destroy ⟨"sandbox", "", 0, true⟩) calls' r →
        r = (⟨"sandbox", "", 0, true⟩, .ok ()) ∧ ∀ c ∈ calls', c = .remove "" :=
  have h : Returns (destroy ⟨"sandbox", "", 42, true⟩) [.kill 42 sigkill, .wait4 42]
      (⟨"sandbox", "", 0, true⟩, .ok ()) := .kill none (.wait4 none (.done _))
  ⟨h, destroy_child_idempotent rfl h⟩

/-- After a `destroy` of a sandbox that is not a child, with a PID, that returns nil, the
sandbox keeps its PID. A second `destroy` sends `SIGKILL` to that PID on every behaviour of the
host, and fails when the host refuses the signal, as for a PID reused by another user's
process. -/
theorem destroy_again_kills_pid (hchild : s.child = false) (hpid : s.pid ≠ 0)
    (h : Returns (destroy s) calls (s', .ok ())) :
    s' = s ∧ (∀ calls' r, Returns (destroy s') calls' r → .kill s.pid sigkill ∈ calls') ∧
      ∀ err, err ≠ .esrch → ∃ calls', Returns (destroy s') calls' (s', .error (.killing s.id s.pid err)) := by
  have hs : s' = s := by
    rcases destroy_inv h with ⟨-, hs, -⟩ | ⟨-, -, ⟨hs, -⟩ | ⟨_, _, hw, -⟩⟩
    · exact hs
    · exact hs
    · exact waitForStopped_of_not_child hchild hw
  subst hs
  refine ⟨rfl, fun calls' r h' => ?_, fun err herr => destroy_kill_fails hpid herr⟩
  rcases destroy_inv h' with ⟨hp, -⟩ | ⟨-, hk, -⟩
  · exact absurd hp hpid
  · exact hk

/-- A sandbox that is not a child: the first call's poll finds the process gone (`ESRCH`). -/
theorem destroy_again_kills_pid_after_exit :
    Returns (destroy ⟨"sandbox", "", 42, false⟩) [.kill 42 sigkill, .kill 42 0] (⟨"sandbox", "", 42, false⟩, .ok ()) ∧
      (⟨"sandbox", "", 42, false⟩ : Sandbox) = ⟨"sandbox", "", 42, false⟩ ∧
      (∀ calls' r, Returns (destroy ⟨"sandbox", "", 42, false⟩) calls' r → .kill 42 sigkill ∈ calls') ∧
      ∀ err, err ≠ .esrch → ∃ calls', Returns (destroy ⟨"sandbox", "", 42, false⟩) calls'
        (⟨"sandbox", "", 42, false⟩, .error (.killing "sandbox" 42 err)) :=
  have h : Returns (destroy ⟨"sandbox", "", 42, false⟩) [.kill 42 sigkill, .kill 42 0]
      (⟨"sandbox", "", 42, false⟩, .ok ()) := .kill none (.kill (some .esrch) (.done _))
  ⟨h, destroy_again_kills_pid rfl (by decide) h⟩

end Gvisor.Runsc
