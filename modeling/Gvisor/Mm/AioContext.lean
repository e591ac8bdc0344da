import Mathlib.Algebra.Group.Nat.Basic
import Mathlib.Data.Nat.Defs
import Mathlib.Tactic.Common

/-!
# The AIO context protocol

An `AIOContext` (sentry/mm/aio_context.go) counts the requests that were prepared and not yet
popped, cancelled or drained (`outstanding`), keeps the completed ones (`results`), and closes
its notification channel `requestReady` once it is dead and nothing is outstanding, setting
the field to nil. The six operations `prepare`, `finishRequest`, `popRequest`,
`cancelPendingRequest`, `drain` and `destroy` are translated one for one; Go panics, both the
three "AIOContext outstanding is going negative" ones and the runtime's close of a nil or
closed channel and send on a closed channel, are the errors of `Except AioPanic`.

A run is any sequence of operations whose callers keep the discipline of the source:
`finishRequest` and `cancelPendingRequest` only for a prepared request that was neither
finished nor cancelled, and `destroy` at most once (`AioAllowed`). `aioStep` runs one
operation and tallies it in an `AioHistory`. `AioInv` is the inductive invariant, and
`aioReachable_protocol` the protocol law: in every reachable state `len results ≤
outstanding ≤ maxOutstanding` and `outstanding` is the number of successful prepares less
the pops that returned a result, the cancels and the drained results; no allowed step
panics; the channel is closed at most once, and a step closes it exactly when it is the
first step after which the context is dead with nothing outstanding.

Scope. The channel's one-slot buffer is left out: `finishRequest`'s send is non-blocking
(`select` with `default`) and changes nothing this file observes. The mutex is left out:
every operation runs under it and is one step here.
-/

set_option autoImplicit false

namespace Gvisor.Mm

/-- A panic of the AIO context code: its own underflow check, or a channel misuse the Go
runtime panics on. -/
inductive AioPanic
  | outstandingNegative
  | closeOfNilChannel
  | closeOfClosedChannel
  | sendOnClosedChannel
deriving DecidableEq, Repr

/-- The errors `Prepare` returns. -/
inductive AioErrno
  | einval
  | eagain
deriving DecidableEq, Repr

/-- An `AIOContext`. `requestReady` says whether the field still holds the channel made with
the context (it is nil after the close); `chanClosed` whether that channel is closed. -/
structure AIOContext (D : Type) where
  requestReady : Bool
  chanClosed : Bool
  results : List D
  maxOutstanding : Nat
  outstanding : Nat
  dead : Bool

namespace AIOContext

variable {D : Type}

/-- The context `newAIOContext` stores: an open channel and `events` slots. -/
def init (events : Nat) : AIOContext D :=
  ⟨true, false, [], events, 0, false⟩

/-- Closes the channel once the context is dead and nothing is outstanding. -/
def checkForDone (ctx : AIOContext D) : Except AioPanic (AIOContext D) :=
  if ctx.dead ∧ ctx.outstanding = 0 then
    if !ctx.requestReady then .error .closeOfNilChannel
    else if ctx.chanClosed then .error .closeOfClosedChannel
    else .ok { ctx with chanClosed := true, requestReady := false }
  else .ok ctx

def destroy (ctx : AIOContext D) : Except AioPanic (AIOContext D) :=
  checkForDone { ctx with dead := true }

/-- `Prepare`, with the errno it returns; `outstanding` is a `uint32`. -/
def prepare (ctx : AIOContext D) : Except AioPanic (AIOContext D × Option AioErrno) :=
  if ctx.dead then .ok (ctx, some .einval)
  else if ctx.outstanding ≥ ctx.maxOutstanding then .ok (ctx, some .eagain)
  else .ok ({ ctx with outstanding := (ctx.outstanding + 1) % 2 ^ 32 }, none)

def popRequest (ctx : AIOContext D) : Except AioPanic (AIOContext D × Option D) :=
  match ctx.results with
  | e :: rest =>
    if ctx.outstanding = 0 then .error .outstandingNegative
    else (checkForDone { ctx with outstanding := ctx.outstanding - 1, results := rest }).map
      fun ctx => (ctx, some e)
  | [] => .ok (ctx, none)

/-- `FinishRequest`: queues the result, then sends on the channel without blocking. -/
def finishRequest (ctx : AIOContext D) (data : D) : Except AioPanic (AIOContext D) :=
  if ctx.requestReady && ctx.chanClosed then .error .sendOnClosedChannel
  else .ok { ctx with results := ctx.results ++ [data] }

/-- `WaitChannel`: the channel, or nil (`false`) once it was closed. -/
def waitChannel (ctx : AIOContext D) : Bool := ctx.requestReady

def cancelPendingRequest (ctx : AIOContext D) : Except AioPanic (AIOContext D) :=
  if ctx.outstanding = 0 then .error .outstandingNegative
  else checkForDone { ctx with outstanding := ctx.outstanding - 1 }

/-- `Drain`; the result count is converted to `uint32`. -/
def drain (ctx : AIOContext D) : Except AioPanic (AIOContext D) :=
  if ctx.outstanding = 0 then .ok ctx
  else
    let size := ctx.results.length % 2 ^ 32
    if ctx.outstanding < size then .error .outstandingNegative
    else checkForDone { ctx with outstanding := ctx.outstanding - size, results := [] }

/-- The context is dead and nothing is outstanding: the state in which the channel closes. -/
def Done (ctx : AIOContext D) : Prop := ctx.dead ∧ ctx.outstanding = 0

instance (ctx : AIOContext D) : Decidable ctx.Done := inferInstanceAs (Decidable (_ ∧ _))

/-- Assumes: the field holds an open channel. `checkForDone` closes it exactly when the
context is done. -/
theorem checkForDone_open {ctx : AIOContext D} (hr : ctx.requestReady = true)
    (hc : ctx.chanClosed = false) :
    checkForDone ctx = .ok (if ctx.Done then { ctx with chanClosed := true, requestReady := false } else ctx) := by
  unfold checkForDone Done
  split_ifs <;> simp_all

end AIOContext

/-! ### Runs -/

/-- The operations of the protocol. -/
inductive AioOp (D : Type)
  | prepare
  | finishRequest (data : D)
  | popRequest
  | cancelPendingRequest
  | drain
  | destroy

/-- What a run has done so far: successful prepares, finishes, pops that returned a result,
cancels, results dropped by drains, whether `destroy` ran, and closes of the channel. -/
structure AioHistory where
  prepared : Nat
  finished : Nat
  popped : Nat
  cancelled : Nat
  dropped : Nat
  destroyed : Bool
  closes : Nat

def AioHistory.zero : AioHistory := ⟨0, 0, 0, 0, 0, false, 0⟩

open AIOContext

variable {D : Type}

/-- Counts the close a step made: the channel went from open to closed. -/
def tallyClose (before after : AIOContext D) (h : AioHistory) : AioHistory :=
  { h with closes := h.closes + if after.chanClosed && !before.chanClosed then 1 else 0 }

/-- One operation of a run, with its tally. -/
def aioStep (s : AIOContext D × AioHistory) : AioOp D → Except AioPanic (AIOContext D × AioHistory)
  | .prepare => (prepare s.1).map fun (ctx, err) =>
      (ctx, if err.isNone then { s.2 with prepared := s.2.prepared + 1 } else s.2)
  | .finishRequest data => (finishRequest s.1 data).map fun ctx =>
      (ctx, { s.2 with finished := s.2.finished + 1 })
  | .popRequest => (popRequest s.1).map fun (ctx, r) =>
      (ctx, tallyClose s.1 ctx (if r.isSome then { s.2 with popped := s.2.popped + 1 } else s.2))
  | .cancelPendingRequest => (cancelPendingRequest s.1).map fun ctx =>
      (ctx, tallyClose s.1 ctx { s.2 with cancelled := s.2.cancelled + 1 })
  | .drain => (drain s.1).map fun ctx =>
      (ctx, tallyClose s.1 ctx { s.2 with dropped := s.2.dropped + (s.1.results.length - ctx.results.length) })
  | .destroy => (destroy s.1).map fun ctx =>
      (ctx, tallyClose s.1 ctx { s.2 with destroyed := true })

/-- The caller discipline: finish or cancel only a prepared request that was neither
finished nor cancelled, and destroy at most once. -/
def AioAllowed (h : AioHistory) : AioOp D → Prop
  | .finishRequest _ | .cancelPendingRequest => h.finished + h.cancelled < h.prepared
  | .destroy => h.destroyed = false
  | _ => True

/-- The states a run of allowed operations reaches from a context made with `events` slots. -/
inductive AioReachable (events : Nat) : AIOContext D × AioHistory → Prop
  | init : AioReachable events (AIOContext.init events, AioHistory.zero)
  | step {s s' : AIOContext D × AioHistory} (op : AioOp D) :
      AioReachable events s → AioAllowed s.2 op → aioStep s op = .ok s' → AioReachable events s'

/-- The counting half of the invariant. -/
structure AioCounts (events : Nat) (ctx : AIOContext D) (h : AioHistory) : Prop where
  max_eq : ctx.maxOutstanding = events
  max_lt : events < 2 ^ 32
  results_le : ctx.results.length ≤ ctx.outstanding
  outstanding_le : ctx.outstanding ≤ ctx.maxOutstanding
  count : ctx.outstanding + h.popped + h.cancelled + h.dropped = h.prepared
  results_count : ctx.results.length + h.popped + h.dropped = h.finished

/-- The inductive invariant of the protocol: the counts, and the channel is closed (and the
field nil) exactly when the context is done, after exactly one close. -/
structure AioInv (events : Nat) (s : AIOContext D × AioHistory) : Prop where
  counts : AioCounts events s.1 s.2
  ready : s.1.requestReady = !s.1.chanClosed
  closed_iff : s.1.chanClosed = true ↔ s.1.Done
  closes : s.2.closes = if s.1.chanClosed then 1 else 0
  destroyed : s.2.destroyed = s.1.dead

theorem aioInv_init {events : Nat} (h : events < 2 ^ 32) :
    AioInv events ((AIOContext.init events : AIOContext D), AioHistory.zero) :=
  ⟨⟨rfl, h, Nat.le_refl _, Nat.zero_le _, rfl, rfl⟩, rfl, by simp [AIOContext.init, Done], rfl, rfl⟩

section Step

variable {events : Nat} {ctx : AIOContext D} {h : AioHistory}

/-- Assumes: the invariant. The channel of a context that is not done is open. -/
theorem AioInv.open_of_not_done (hi : AioInv events (ctx, h)) (hd : ¬ ctx.Done) :
    ctx.requestReady = true ∧ ctx.chanClosed = false := by
  have hc : ctx.chanClosed = false := by
    cases hc : ctx.chanClosed
    · rfl
    · exact absurd (hi.closed_iff.mp hc) hd
  exact ⟨by simpa [hc] using hi.ready, hc⟩

/-- Assumes: the counts for `c`, whose channel is open, and no close so far. The step from
`b` that ends in `checkForDone c` keeps the invariant and counts one close iff `c` is done. -/
theorem aioInv_checkForDone {b c : AIOContext D} (hcounts : AioCounts events c h)
    (hdestroyed : h.destroyed = c.dead) (hb : b.chanClosed = false)
    (hr : c.requestReady = true) (hc : c.chanClosed = false) (hcl : h.closes = 0) :
    ∃ c', checkForDone c = .ok c' ∧ AioInv events (c', tallyClose b c' h) ∧
      (tallyClose b c' h).closes = h.closes + (if c.Done then 1 else 0) ∧ (c'.Done ↔ c.Done) ∧
      c'.results = c.results := by
  rw [checkForDone_open hr hc]
  refine ⟨_, rfl, ?_⟩
  by_cases hd : c.Done
  · simp only [if_pos hd]
    exact ⟨⟨⟨hcounts.1, hcounts.2, hcounts.3, hcounts.4, hcounts.5, hcounts.6⟩, rfl,
        by simpa [Done] using hd, by simp [tallyClose, hcl, hb], hdestroyed⟩,
      by simp [tallyClose, hb], by simp [Done], trivial⟩
  · simp only [if_neg hd]
    exact ⟨⟨⟨hcounts.1, hcounts.2, hcounts.3, hcounts.4, hcounts.5, hcounts.6⟩, by simp [hr, hc],
        by simpa [hc] using hd, by simp [tallyClose, hcl, hc], hdestroyed⟩,
      by simp [tallyClose, hc], trivial, trivial⟩

/-- Assumes: the counts. A request that was prepared and neither finished nor cancelled keeps
`results` below `outstanding`. -/
theorem AioCounts.results_lt (hc : AioCounts events ctx h) (hp : h.finished + h.cancelled < h.prepared) :
    ctx.results.length < ctx.outstanding := by
  have := hc.count; have := hc.results_count; omega

theorem AioInv.closes_zero (hi : AioInv events (ctx, h)) (hd : ¬ ctx.Done) : h.closes = 0 := by
  have := hi.closes; simp_all [(hi.open_of_not_done hd).2]

/-- Assumes: the invariant and an allowed operation. The step does not panic, keeps the
invariant, and closes the channel exactly when it makes the context done. -/
theorem aioStep_inv (hi : AioInv events (ctx, h)) {op : AioOp D} (ha : AioAllowed h op) :
    ∃ s', aioStep (ctx, h) op = .ok s' ∧ AioInv events s' ∧
      s'.2.closes = h.closes + (if ¬ ctx.Done ∧ s'.1.Done then 1 else 0) := by
  have hc : AioCounts events ctx h := hi.counts
  have hmax := hc.max_lt
  have hmeq := hc.max_eq
  cases op with
  | prepare =>
    by_cases hdead : ctx.dead
    · exact ⟨(ctx, h), by simp [aioStep, Except.map, prepare, hdead], hi, by simp⟩
    by_cases hfull : ctx.outstanding ≥ ctx.maxOutstanding
    · exact ⟨(ctx, h), by simp [aioStep, Except.map, prepare, hdead, hfull], hi, by simp⟩
    have hlt : ctx.outstanding + 1 < 4294967296 := by omega
    obtain ⟨hr, hcl⟩ := hi.open_of_not_done (by simp [Done, hdead])
    refine ⟨({ ctx with outstanding := ctx.outstanding + 1 }, { h with prepared := h.prepared + 1 }),
      by simp [aioStep, Except.map, prepare, hdead, hfull, Nat.mod_eq_of_lt hlt, hlt], ⟨⟨hc.1, hc.2, ?_, ?_, ?_, hc.6⟩, ?_, ?_, ?_, hi.5⟩, ?_⟩
    · have := hc.3; simp; omega
    · simp; omega
    · have := hc.5; simp; omega
    · simp [hr, hcl]
    · simp [hcl, Done, hdead]
    · simpa [hcl] using hi.closes
    · simp [Done, hdead]
  | finishRequest data =>
    have hlt := hc.results_lt ha
    obtain ⟨hr, hcl⟩ := hi.open_of_not_done (by simp [Done]; omega)
    refine ⟨({ ctx with results := ctx.results ++ [data] }, { h with finished := h.finished + 1 }),
      by simp [aioStep, Except.map, finishRequest, hcl],
      ⟨⟨hc.1, hc.2, by simpa using hlt, hc.4, hc.5, by have := hc.6; simp; omega⟩, hi.2, hi.3, hi.4, hi.5⟩,
      by simp [Done]⟩
  | popRequest =>
    cases hres : ctx.results with
    | nil =>
      exact ⟨(ctx, tallyClose ctx ctx h), by simp [aioStep, Except.map, popRequest, hres],
        by simpa [tallyClose] using hi, by simp [tallyClose]⟩
    | cons e rest =>
      have hpos : 0 < ctx.outstanding := by have := hc.3; simp [hres] at this; omega
      have hnd : ¬ ctx.Done := by simp [Done]; omega
      obtain ⟨hr, hcl⟩ := hi.open_of_not_done hnd
      obtain ⟨c', hcheck, hinv, hcount, hdone, hres'⟩ := aioInv_checkForDone (b := ctx)
        (c := { ctx with outstanding := ctx.outstanding - 1, results := rest })
        (h := { h with popped := h.popped + 1 })
        ⟨hc.1, hc.2, by have := hc.3; simp [hres] at this; simp; omega, by have := hc.4; simp; omega,
          by have := hc.5; simp; omega, by have := hc.6; simp [hres] at this; simp; omega⟩
        hi.5 hcl hr hcl (hi.closes_zero hnd)
      refine ⟨(c', tallyClose ctx c' { h with popped := h.popped + 1 }),
        by simp [aioStep, Except.map, popRequest, hres, Nat.pos_iff_ne_zero.mp hpos, hcheck], hinv, ?_⟩
      simpa [hnd, hdone] using hcount
  | cancelPendingRequest =>
    have hlt := hc.results_lt ha
    have hnd : ¬ ctx.Done := by simp [Done]; omega
    obtain ⟨hr, hcl⟩ := hi.open_of_not_done hnd
    obtain ⟨c', hcheck, hinv, hcount, hdone, hres'⟩ := aioInv_checkForDone (b := ctx)
      (c := { ctx with outstanding := ctx.outstanding - 1 }) (h := { h with cancelled := h.cancelled + 1 })
      ⟨hc.1, hc.2, by simp; omega, by have := hc.4; simp; omega, by have := hc.5; simp; omega, hc.6⟩
      hi.5 hcl hr hcl (hi.closes_zero hnd)
    refine ⟨(c', tallyClose ctx c' { h with cancelled := h.cancelled + 1 }),
      by simp [aioStep, Except.map, cancelPendingRequest, show ctx.outstanding ≠ 0 by omega, hcheck], hinv, ?_⟩
    simpa [hnd, hdone] using hcount
  | drain =>
    by_cases hzero : ctx.outstanding = 0
    · exact ⟨(ctx, tallyClose ctx ctx { h with dropped := h.dropped + (ctx.results.length - ctx.results.length) }),
        by simp [aioStep, Except.map, drain, hzero], by simpa [tallyClose] using hi, by simp [tallyClose]⟩
    have hnd : ¬ ctx.Done := by simp [Done, hzero]
    obtain ⟨hr, hcl⟩ := hi.open_of_not_done hnd
    have hsize : ctx.results.length % 2 ^ 32 = ctx.results.length := by
      have := hc.3; have := hc.4; omega
    obtain ⟨c', hcheck, hinv, hcount, hdone, hres'⟩ := aioInv_checkForDone (b := ctx)
      (c := { ctx with outstanding := ctx.outstanding - ctx.results.length, results := [] })
      (h := { h with dropped := h.dropped + ctx.results.length })
      ⟨hc.1, hc.2, by simp, by have := hc.4; simp; omega, by have := hc.3; have := hc.5; simp; omega,
        by have := hc.6; simp; omega⟩
      hi.5 hcl hr hcl (hi.closes_zero hnd)
    have hrun : drain ctx = .ok c' := by
      simp only [drain, hzero, if_false, hsize, show ¬ ctx.outstanding < ctx.results.length by have := hc.3; omega]
      exact hcheck
    refine ⟨(c', tallyClose ctx c' { h with dropped := h.dropped + ctx.results.length }),
      by simp [aioStep, Except.map, hrun, hres'], hinv, ?_⟩
    simpa [hnd, hdone] using hcount
  | destroy =>
    have hlive : ctx.dead = false := hi.5.symm.trans (ha : h.destroyed = false)
    have hnd : ¬ ctx.Done := by simp [Done, hlive]
    obtain ⟨hr, hcl⟩ := hi.open_of_not_done hnd
    obtain ⟨c', hcheck, hinv, hcount, hdone, -⟩ := aioInv_checkForDone (b := ctx)
      (c := { ctx with dead := true }) (h := { h with destroyed := true })
      ⟨hc.1, hc.2, hc.3, hc.4, hc.5, hc.6⟩ rfl hcl hr hcl (hi.closes_zero hnd)
    refine ⟨(c', tallyClose ctx c' { h with destroyed := true }),
      by simp [aioStep, Except.map, destroy, hcheck], hinv, ?_⟩
    simpa [hnd, hdone] using hcount

end Step

/-- Assumes: `events` fits the `uint32` slot count. Every reachable state satisfies the
invariant. -/
theorem aioReachable_inv {events : Nat} (hev : events < 2 ^ 32) {s : AIOContext D × AioHistory}
    (hs : AioReachable events s) : AioInv events s := by
  induction hs with
  | init => exact aioInv_init hev
  | step op _ ha hstep ih =>
    obtain ⟨s'', hrun, hinv, -⟩ := aioStep_inv ih ha
    have : s'' = _ := Except.ok.inj (hrun.symm.trans hstep)
    exact this ▸ hinv

/-- The protocol law of a state: results never exceed the outstanding count, which never
exceeds the slots and is the successful prepares less the pops that returned a result, the
cancels and the drained results; the context is dead exactly when `destroy` ran; the channel
was closed at most once, and is closed (the wait channel nil) exactly when the context is done;
and every allowed step runs without panicking and closes the channel exactly when it is the
first to make the context done. -/
def AioProtocolLaw (s : AIOContext D × AioHistory) : Prop :=
  s.1.results.length ≤ s.1.outstanding ∧ s.1.outstanding ≤ s.1.maxOutstanding ∧
    s.1.outstanding + s.2.popped + s.2.cancelled + s.2.dropped = s.2.prepared ∧
    s.2.destroyed = s.1.dead ∧ s.2.closes ≤ 1 ∧ (s.2.closes = 1 ↔ s.1.Done) ∧ (s.1.waitChannel = false ↔ s.1.Done) ∧
    ∀ op, AioAllowed s.2 op → ∃ s', aioStep s op = .ok s' ∧
      s'.2.closes = s.2.closes + (if ¬ s.1.Done ∧ s'.1.Done then 1 else 0)

/-- Assumes: `events` fits the `uint32` slot count. Every state a run of allowed operations
reaches satisfies the protocol law. -/
theorem aioReachable_protocol {events : Nat} (hev : events < 2 ^ 32) {s : AIOContext D × AioHistory}
    (hs : AioReachable events s) : AioProtocolLaw s := by
  have hi := aioReachable_inv hev hs
  have hclosed := hi.closed_iff
  have hcloses := hi.closes
  have hready := hi.ready
  refine ⟨hi.counts.results_le, hi.counts.outstanding_le, hi.counts.count, hi.destroyed, ?_, ?_, ?_,
    fun op ha => let ⟨s', hrun, _, hclose⟩ := aioStep_inv hi ha; ⟨s', hrun, hclose⟩⟩
  · split at hcloses <;> omega
  · rw [← hclosed]; split at hcloses <;> simp_all
  · rw [← hclosed, waitChannel, hready]; simp

/-- A run that destroys the context while a request is outstanding: `prepare`, the request's
`finishRequest`, `destroy`, and the `popRequest` of its result, which closes the channel. -/
theorem aioReachable_protocol_destroy_pending : (8 : Nat) < 2 ^ 32 ∧
    AioReachable 8 ((⟨false, true, [], 8, 0, true⟩ : AIOContext Nat), (⟨1, 1, 1, 0, 0, true, 1⟩ : AioHistory)) ∧
    AioProtocolLaw ((⟨false, true, [], 8, 0, true⟩ : AIOContext Nat), (⟨1, 1, 1, 0, 0, true, 1⟩ : AioHistory)) := by
  have h1 : AioReachable 8 ((⟨true, false, [], 8, 1, false⟩ : AIOContext Nat), (⟨1, 0, 0, 0, 0, false, 0⟩ : AioHistory)) :=
    .step .prepare .init trivial rfl
  have h2 : AioReachable 8 ((⟨true, false, [7], 8, 1, false⟩ : AIOContext Nat), (⟨1, 1, 0, 0, 0, false, 0⟩ : AioHistory)) :=
    .step (.finishRequest 7) h1 (show 0 + 0 < 1 by decide) rfl
  have h3 : AioReachable 8 ((⟨true, false, [7], 8, 1, true⟩ : AIOContext Nat), (⟨1, 1, 0, 0, 0, true, 0⟩ : AioHistory)) :=
    .step .destroy h2 rfl rfl
  have h4 : AioReachable 8 ((⟨false, true, [], 8, 0, true⟩ : AIOContext Nat), (⟨1, 1, 1, 0, 0, true, 1⟩ : AioHistory)) :=
    .step .popRequest h3 trivial rfl
  exact ⟨by decide, h4, aioReachable_protocol (by decide) h4⟩

end Gvisor.Mm
