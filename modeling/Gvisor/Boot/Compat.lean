import Mathlib

/-!
# Deduplicated reports of unimplemented system calls

`compatEmitter.emitUnimplementedSyscall` (runsc/boot/loader.go) logs an `UnimplementedSyscall`
event only when the tracker of its syscall number says so. The tracker of a number is made at
its first event and kept: an `argsTracker` keyed by some arguments for prctl, ioctl, epoll_ctl,
shmctl, futex, fallocate, getsockopt, setsockopt and semctl (and whatever the architecture
file keys), and an `onceTracker` for every other number.

`emitAll_log` shows that the log the emitter writes over any sequence of events is the log of
`reportLaw`: an event is logged iff its number is once-tracked and no event of that number was
logged before, or its number is args-tracked, fewer than `reportLimit` events of that number
were logged, and none of them with the same selected arguments. The law needs the string key
of an `argsTracker` to be injective on argument tuples; `key_eq_key_iff` proves it from the
decimal encoding (`decimalValue_toString`). `reportLaw_once` and `reportLaw_args` are the two
consequences: a once-tracked number is logged exactly for its first event, and an
args-tracked number logs no argument tuple twice and at most `reportLimit` events.

Scope. The architecture file (`syscallNum`, `argVal`, `newArchArgsTracker`, `reportLimit`)
is not part of the source and is the parameter `CompatArch`. The numbers of the switch are
those of x/sys/unix on amd64. The sink's formatting of the logged line is left out: the log
holds the registers of each logged event.
-/

set_option autoImplicit false

namespace Gvisor.Boot

/-! ### Decimal keys -/

/-- Reads back a decimal numeral, most significant digit first. -/
def decimalValue (ds : List Char) : Nat :=
  ds.foldl (fun acc c => 10 * acc + (c.toNat - 48)) 0

private theorem digitChar_toNat {d : Nat} (h : d < 10) : (Nat.digitChar d).toNat - 48 = d := by
  interval_cases d <;> rfl

private theorem digitChar_ne_bar {d : Nat} (h : d < 10) : Nat.digitChar d ≠ '|' := by
  interval_cases d <;> decide

/-- `Nat.toDigitsCore` prepends the decimal digits of `n` to its accumulator once it has
enough fuel. -/
private theorem toDigitsCore_decimal (fuel : Nat) :
    ∀ n (acc : List Char), n < fuel → ∃ ds, Nat.toDigitsCore 10 fuel n acc = ds ++ acc ∧
      decimalValue ds = n ∧ '|' ∉ ds := by
  induction fuel with
  | zero => intro n _ h; omega
  | succ fuel ih =>
    intro n acc hn
    have hmod : n % 10 < 10 := Nat.mod_lt _ (by omega)
    by_cases hq : n / 10 = 0
    · refine ⟨[Nat.digitChar (n % 10)], by simp [Nat.toDigitsCore, hq], ?_, ?_⟩
      · simp only [decimalValue, List.foldl_cons, List.foldl_nil, digitChar_toNat hmod]
        omega
      · simpa using (digitChar_ne_bar hmod).symm
    · obtain ⟨ds, hds, hval, hbar⟩ := ih (n / 10) (Nat.digitChar (n % 10) :: acc) (by omega)
      refine ⟨ds ++ [Nat.digitChar (n % 10)], by simp [Nat.toDigitsCore, hq, hds], ?_, ?_⟩
      · simp only [decimalValue, List.foldl_append, List.foldl_cons, List.foldl_nil] at hval ⊢
        rw [hval, digitChar_toNat hmod]
        omega
      · simpa [hbar] using (digitChar_ne_bar hmod).symm

theorem decimalValue_toString (n : Nat) : decimalValue (toString n).data = n ∧ '|' ∉ (toString n).data := by
  obtain ⟨ds, hds, hval, hbar⟩ := toDigitsCore_decimal (n + 1) n [] (by omega)
  have hdata : (toString n).data = ds := by simpa using hds
  exact hdata ▸ ⟨hval, hbar⟩

/-- The characters of a key: each value's digits followed by a bar. -/
def barEncoding (vals : List Nat) : List Char :=
  vals.flatMap fun v => (toString v).data ++ ['|']

private theorem append_bar_inj {a b x y : List Char} (ha : '|' ∉ a) (hb : '|' ∉ b)
    (h : a ++ '|' :: x = b ++ '|' :: y) : a = b ∧ x = y := by
  induction a generalizing b with
  | nil =>
    cases b with
    | nil => simpa using h
    | cons c b => simp only [List.nil_append, List.cons_append, List.cons.injEq] at h; simp [← h.1] at hb
  | cons c a ih =>
    cases b with
    | nil => simp only [List.nil_append, List.cons_append, List.cons.injEq] at h; simp [h.1] at ha
    | cons c' b =>
      simp only [List.cons_append, List.cons.injEq] at h
      obtain ⟨rfl, h⟩ := h
      have := ih (by simp_all) (by simp_all) h
      exact ⟨by rw [this.1], this.2⟩

theorem barEncoding_injective : Function.Injective barEncoding := by
  intro xs
  induction xs with
  | nil => intro ys h; cases ys <;> simp_all [barEncoding]
  | cons x xs ih =>
    intro ys h
    cases ys with
    | nil => simp [barEncoding] at h
    | cons y ys =>
      simp only [barEncoding, List.flatMap_cons, List.append_assoc, List.singleton_append] at h
      obtain ⟨hxy, hrest⟩ := append_bar_inj (decimalValue_toString x).2 (decimalValue_toString y).2 h
      have : x = y := by
        rw [← (decimalValue_toString x).1, ← (decimalValue_toString y).1, hxy]
      rw [this, ih hrest]

/-! ### The emitter -/

/-- The architecture half of the compat emitter (compat_amd64.go, compat_arm64.go), which the
source does not include. -/
structure CompatArch (Regs : Type) where
  /-- The syscall number of an event's registers. -/
  syscallNum : Regs → Nat
  /-- The value of argument `i` in an event's registers. -/
  argVal : Nat → Regs → Nat
  /-- The argument indices of the `argsTracker` the architecture makes for a number, if any. -/
  newArchArgsTracker : Nat → Option (List Nat)
  /-- The most reports an `argsTracker` makes. -/
  reportLimit : Nat

/-- x/sys/unix syscall numbers on amd64. -/
def sysIoctl : Nat := 16
def sysShmctl : Nat := 31
def sysSetsockopt : Nat := 54
def sysGetsockopt : Nat := 55
def sysSemctl : Nat := 66
def sysPrctl : Nat := 157
def sysFutex : Nat := 202
def sysEpollCtl : Nat := 233
def sysFallocate : Nat := 285

/-- A `syscallTracker`: an `onceTracker` with its `reported` flag, or an `argsTracker` with the
argument indices it keys on, the keys it has reported and its report count. -/
inductive SyscallTracker
  | once (reported : Bool)
  | args (argsIdx : List Nat) (reported : List String) (count : Nat)
deriving DecidableEq, Repr

/-- The registers of an emitter event; `Emit` handles only `UnimplementedSyscall`. -/
inductive EmitterMessage (Regs : Type)
  | unimplementedSyscall (regs : Regs)
  | other

/-- The emitter's trackers, by syscall number, and the events its sink has logged. -/
structure CompatEmitter (Regs : Type) where
  trackers : Nat → Option SyscallTracker
  log : List Regs

section Emitter

variable {Regs : Type} (A : CompatArch Regs)

def newArgsTracker (argsIdx : List Nat) : SyscallTracker := .args argsIdx [] 0

/-- `argsTracker.key`: each selected argument in decimal, followed by a bar. -/
def key (argsIdx : List Nat) (regs : Regs) : String :=
  argsIdx.foldl (fun rv idx => rv ++ (toString (A.argVal idx regs) ++ "|")) ""

def shouldReport : SyscallTracker → Regs → Bool
  | .once reported, _ => !reported
  | .args argsIdx reported count, regs =>
    if count ≥ A.reportLimit then false else !decide (key A argsIdx regs ∈ reported)

def onReported : SyscallTracker → Regs → SyscallTracker
  | .once _, _ => .once true
  | .args argsIdx reported count, regs => .args argsIdx (key A argsIdx regs :: reported) (count + 1)

/-- The tracker `emitUnimplementedSyscall` makes for a number that has none. -/
def newTracker (sysnr : Nat) : SyscallTracker :=
  if sysnr = sysPrctl then newArgsTracker [0]
  else if sysnr = sysIoctl ∨ sysnr = sysEpollCtl ∨ sysnr = sysShmctl ∨ sysnr = sysFutex ∨
      sysnr = sysFallocate then newArgsTracker [1]
  else if sysnr = sysGetsockopt ∨ sysnr = sysSetsockopt then newArgsTracker [1, 2]
  else if sysnr = sysSemctl then newArgsTracker [2]
  else match A.newArchArgsTracker sysnr with
    | some argsIdx => newArgsTracker argsIdx
    | none => .once false

def newCompatEmitter : CompatEmitter Regs := ⟨fun _ => none, []⟩

def emitUnimplementedSyscall (c : CompatEmitter Regs) (regs : Regs) : CompatEmitter Regs :=
  let sysnr := A.syscallNum regs
  let tr := (c.trackers sysnr).getD (newTracker A sysnr)
  if shouldReport A tr regs then
    ⟨Function.update c.trackers sysnr (some (onReported A tr regs)), c.log ++ [regs]⟩
  else ⟨Function.update c.trackers sysnr (some tr), c.log⟩

/-- `Emit`, with the unsubscribe flag it returns; its error is always nil. -/
def emit (c : CompatEmitter Regs) : EmitterMessage Regs → CompatEmitter Regs × Bool
  | .unimplementedSyscall regs => (emitUnimplementedSyscall A c regs, false)
  | .other => (c, false)

def emitAll (c : CompatEmitter Regs) (msgs : List (EmitterMessage Regs)) : CompatEmitter Regs :=
  msgs.foldl (fun c m => (emit A c m).1) c

/-- The registers of an `UnimplementedSyscall` message. -/
def EmitterMessage.regs? : EmitterMessage Regs → Option Regs
  | .unimplementedSyscall regs => some regs
  | .other => none

/-! ### The reporting law -/

/-- The argument tuple an `argsTracker` keys an event by. -/
def selected (argsIdx : List Nat) (regs : Regs) : List Nat :=
  argsIdx.map (A.argVal · regs)

/-- Whether an event is logged after the events `logged`, stated on argument tuples. -/
def reportDecision (logged : List Regs) (regs : Regs) : Bool :=
  let prior := logged.filter (A.syscallNum · = A.syscallNum regs)
  match newTracker A (A.syscallNum regs) with
  | .once _ => prior.isEmpty
  | .args argsIdx _ _ =>
    decide (prior.length < A.reportLimit) && !decide (selected A argsIdx regs ∈ prior.map (selected A argsIdx))

/-- The log the reporting law makes of a sequence of events, after the events `logged`. -/
def reportLaw : List Regs → List Regs → List Regs
  | logged, [] => logged
  | logged, regs :: rest => reportLaw (if reportDecision A logged regs then logged ++ [regs] else logged) rest

theorem key_eq_key_iff (argsIdx : List Nat) (r r' : Regs) :
    key A argsIdx r = key A argsIdx r' ↔ selected A argsIdx r = selected A argsIdx r' := by
  have hdata : ∀ regs, (key A argsIdx regs).data = barEncoding (selected A argsIdx regs) := by
    intro regs
    suffices ∀ (l : List Nat) (rv : String), (l.foldl (fun rv idx => rv ++ (toString (A.argVal idx regs) ++ "|")) rv).data =
        rv.data ++ barEncoding (l.map (A.argVal · regs)) from by simpa using this argsIdx ""
    intro l
    induction l with
    | nil => simp [barEncoding]
    | cons i l ih => intro rv; simp [ih, barEncoding]
  constructor
  · intro h
    exact barEncoding_injective (by rw [← hdata, ← hdata, h])
  · intro h
    exact String.ext (by rw [hdata, hdata, h])

theorem newTracker_cases (sysnr : Nat) :
    newTracker A sysnr = .once false ∨ ∃ argsIdx, newTracker A sysnr = .args argsIdx [] 0 := by
  unfold newTracker newArgsTracker
  split_ifs
  iterate 4 exact .inr ⟨_, rfl⟩
  split
  · exact .inr ⟨_, rfl⟩
  · exact .inl rfl

/-- What a tracker records agrees with the events of its number that were logged. -/
def TrackerAgrees : Option SyscallTracker → Nat → List Regs → Prop
  | none, _, prior => prior = []
  | some (.once reported), sysnr, prior => newTracker A sysnr = .once false ∧ reported = !prior.isEmpty
  | some (.args argsIdx reported count), sysnr, prior =>
    newTracker A sysnr = .args argsIdx [] 0 ∧ count = prior.length ∧
      ∀ k, k ∈ reported ↔ ∃ p ∈ prior, key A argsIdx p = k

/-- Every tracker agrees with the log. -/
def EmitterAgrees (c : CompatEmitter Regs) : Prop :=
  ∀ n, TrackerAgrees A (c.trackers n) n (c.log.filter (A.syscallNum · = n))

theorem emitterAgrees_new : EmitterAgrees A (newCompatEmitter : CompatEmitter Regs) := fun _ => rfl

theorem trackerAgrees_getD {t : Option SyscallTracker} {n : Nat} {prior : List Regs}
    (h : TrackerAgrees A t n prior) : TrackerAgrees A (some (t.getD (newTracker A n))) n prior := by
  cases t with
  | some t => exact h
  | none =>
    cases (h : prior = [])
    rcases newTracker_cases A n with hn | ⟨argsIdx, hn⟩ <;> simp [hn, TrackerAgrees]

theorem shouldReport_eq {tr : SyscallTracker} {logged : List Regs} {regs : Regs}
    (h : TrackerAgrees A (some tr) (A.syscallNum regs) (logged.filter (A.syscallNum · = A.syscallNum regs))) :
    shouldReport A tr regs = reportDecision A logged regs := by
  cases tr with
  | once reported =>
    obtain ⟨hn, rfl⟩ := h
    simp [shouldReport, reportDecision, hn]
  | args argsIdx reported count =>
    obtain ⟨hn, rfl, hmem⟩ := h
    have hkey : key A argsIdx regs ∈ reported ↔ selected A argsIdx regs ∈
        (logged.filter (A.syscallNum · = A.syscallNum regs)).map (selected A argsIdx) := by
      simp only [hmem, List.mem_map, key_eq_key_iff]
    simp only [shouldReport, reportDecision, hn, hkey]
    split_ifs with hc <;> simp <;> omega

theorem trackerAgrees_onReported {tr : SyscallTracker} {n : Nat} {prior : List Regs} (regs : Regs)
    (h : TrackerAgrees A (some tr) n prior) :
    TrackerAgrees A (some (onReported A tr regs)) n (prior ++ [regs]) := by
  cases tr with
  | once reported => exact ⟨h.1, by simp⟩
  | args argsIdx reported count =>
    obtain ⟨hn, rfl, hmem⟩ := h
    refine ⟨hn, by simp, fun k => ?_⟩
    rw [List.mem_cons, hmem]
    constructor
    · rintro (rfl | ⟨p, hp, rfl⟩)
      · exact ⟨regs, List.mem_append_right _ (List.mem_singleton_self _), rfl⟩
      · exact ⟨p, List.mem_append_left _ hp, rfl⟩
    · rintro ⟨p, hp, rfl⟩
      rcases List.mem_append.mp hp with hp | hp
      · exact .inr ⟨p, hp, rfl⟩
      · exact .inl (by rw [List.mem_singleton.mp hp])

/-- One event keeps the trackers in agreement and logs what the law logs. -/
theorem emitUnimplementedSyscall_agrees {c : CompatEmitter Regs} (h : EmitterAgrees A c) (regs : Regs) :
    EmitterAgrees A (emitUnimplementedSyscall A c regs) ∧
      (emitUnimplementedSyscall A c regs).log =
        if reportDecision A c.log regs then c.log ++ [regs] else c.log := by
  have htr := trackerAgrees_getD A (h (A.syscallNum regs))
  have hdec := shouldReport_eq A htr
  simp only [emitUnimplementedSyscall, hdec]
  split
  · refine ⟨fun n => ?_, rfl⟩
    by_cases hn : n = A.syscallNum regs
    · subst hn
      simpa [List.filter_append] using trackerAgrees_onReported A regs htr
    · have hne : ¬ A.syscallNum regs = n := fun e => hn e.symm
      simpa [Function.update_apply, hn, List.filter_append, hne] using h n
  · refine ⟨fun n => ?_, rfl⟩
    by_cases hn : n = A.syscallNum regs
    · subst hn
      simpa using htr
    · simpa [Function.update_apply, hn] using h n

theorem emitAll_agrees (msgs : List (EmitterMessage Regs)) :
    ∀ c : CompatEmitter Regs, EmitterAgrees A c →
      EmitterAgrees A (emitAll A c msgs) ∧
        (emitAll A c msgs).log = reportLaw A c.log (msgs.filterMap EmitterMessage.regs?) := by
  induction msgs with
  | nil => intro c h; exact ⟨h, rfl⟩
  | cons m msgs ih =>
    intro c h
    cases m with
    | other => exact ih c h
    | unimplementedSyscall regs =>
      obtain ⟨h', hlog⟩ := emitUnimplementedSyscall_agrees A h regs
      have := ih _ h'
      refine ⟨this.1, ?_⟩
      simp only [emitAll, List.foldl_cons, emit, List.filterMap_cons, EmitterMessage.regs?, reportLaw]
      rw [← hlog]
      exact this.2

/-- The emitter logs exactly what the reporting law logs. -/
theorem emitAll_log (msgs : List (EmitterMessage Regs)) :
    (emitAll A newCompatEmitter msgs).log = reportLaw A [] (msgs.filterMap EmitterMessage.regs?) :=
  (emitAll_agrees A msgs _ (emitterAgrees_new A)).2

/-! ### Consequences of the law -/

theorem reportLaw_once {sysnr : Nat} (hn : newTracker A sysnr = .once false) (events : List Regs) :
    ∀ logged : List Regs, (logged.filter (A.syscallNum · = sysnr)).length ≤ 1 →
      (reportLaw A logged events).filter (A.syscallNum · = sysnr) =
        (logged.filter (A.syscallNum · = sysnr) ++ events.filter (A.syscallNum · = sysnr)).take 1 := by
  induction events with
  | nil =>
    intro logged h
    match hl : logged.filter (A.syscallNum · = sysnr), h with
    | [], _ => simp [reportLaw, hl]
    | [_], _ => simp [reportLaw, hl]
  | cons regs rest ih =>
    intro logged h
    by_cases hr : A.syscallNum regs = sysnr
    · subst hr
      have hdec : reportDecision A logged regs = (logged.filter (A.syscallNum · = A.syscallNum regs)).isEmpty := by
        simp [reportDecision, hn]
      match hl : logged.filter (A.syscallNum · = A.syscallNum regs), h with
      | [], _ =>
        rw [hl] at hdec
        simp only [reportLaw, hdec, List.isEmpty_nil, if_true]
        rw [ih _ (by simp [List.filter_append, hl])]
        simp [List.filter_append, hl]
      | [x], _ =>
        rw [hl] at hdec
        simp only [reportLaw, hdec, List.isEmpty_cons, Bool.false_eq_true, if_false]
        rw [ih _ (by simp [hl])]
        simp [hl]
    · have hkeep : ((if reportDecision A logged regs then logged ++ [regs] else logged).filter
          (A.syscallNum · = sysnr)) = logged.filter (A.syscallNum · = sysnr) := by
        split <;> simp [List.filter_append, hr]
      simp only [reportLaw]
      rw [ih _ (by rw [hkeep]; exact h), hkeep]
      simp [hr]

theorem reportLaw_args {sysnr : Nat} {argsIdx : List Nat} (hn : newTracker A sysnr = .args argsIdx [] 0)
    (events : List Regs) : ∀ logged : List Regs,
      ((logged.filter (A.syscallNum · = sysnr)).map (selected A argsIdx)).Nodup →
      (logged.filter (A.syscallNum · = sysnr)).length ≤ A.reportLimit →
      (((reportLaw A logged events).filter (A.syscallNum · = sysnr)).map (selected A argsIdx)).Nodup ∧
        ((reportLaw A logged events).filter (A.syscallNum · = sysnr)).length ≤ A.reportLimit := by
  induction events with
  | nil => intro logged h1 h2; exact ⟨h1, h2⟩
  | cons regs rest ih =>
    intro logged h1 h2
    apply ih
    · split
      · rename_i hdec
        by_cases hr : A.syscallNum regs = sysnr
        · subst hr
          simp only [reportDecision, hn, Bool.and_eq_true, decide_eq_true_eq, Bool.not_eq_true',
            decide_eq_false_iff_not] at hdec
          simpa [List.filter_append, List.nodup_append, hdec.2] using h1
        · simpa [List.filter_append, hr] using h1
      · exact h1
    · split
      · rename_i hdec
        by_cases hr : A.syscallNum regs = sysnr
        · subst hr
          simp only [reportDecision, hn, Bool.and_eq_true, decide_eq_true_eq] at hdec
          simp only [List.filter_append, List.length_append]
          simp
          omega
        · simpa [List.filter_append, hr] using h2
      · exact h2

/-- Over any sequence of events the emitter logs what the reporting law logs; a once-tracked
number is logged for its first event only; an args-tracked number never logs one argument
tuple twice and logs at most `reportLimit` events. -/
theorem emitAll_reports_deduplicated (msgs : List (EmitterMessage Regs)) :
    let log := (emitAll A newCompatEmitter msgs).log
    let events := msgs.filterMap EmitterMessage.regs?
    log = reportLaw A [] events ∧
    (∀ sysnr, newTracker A sysnr = .once false →
      log.filter (A.syscallNum · = sysnr) = (events.filter (A.syscallNum · = sysnr)).take 1) ∧
    (∀ sysnr argsIdx, newTracker A sysnr = .args argsIdx [] 0 →
      ((log.filter (A.syscallNum · = sysnr)).map (selected A argsIdx)).Nodup ∧
        (log.filter (A.syscallNum · = sysnr)).length ≤ A.reportLimit) := by
  intro log events
  have hlog : log = reportLaw A [] events := emitAll_log A msgs
  refine ⟨hlog, fun sysnr hn => ?_, fun sysnr argsIdx hn => ?_⟩
  · simpa [hlog] using reportLaw_once A hn events [] (by simp)
  · rw [hlog]
    exact reportLaw_args A hn events [] (by simp) (by simp)

end Emitter

end Gvisor.Boot
