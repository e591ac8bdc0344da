import Mathlib

/-!
# Control RPC payloads

`containerManager.StartSubcontainer` and `containerManager.CreateTraceSession` (runsc/boot,
the control server) take the files a client donates with its request. `StartSubcontainer`
checks that the request carries a spec, a config, a container ID and at least `expectedFDs`
files, computed from the signed `NumOverlayFilestoreFDs` and the spec's `Process.Terminal`. It
then slices the files into stdios, overlay filestore files and gofer files.
`CreateTraceSession` stores the `i`-th file as the descriptor of the `i`-th sink.

The results here: with a `Process` in the spec, a count of overlay files between 0 and `2^62`,
and no more trace files than sinks, neither handler panics before the call it ends with
(`control_rpcs_no_panic`). Without
those checks, a request that passes the handler's own validation panics: on a spec without a
`Process`, on a negative count, and on more trace files than sinks (`control_rpcs_panic`).

Scope. A Go `int` is an `Int` in `[-2^63, 2^63)`, and its additions wrap (`wrapInt`). A slice
is a list whose capacity is its length, and its slicing and indexing panic as Go's do. Of the
spec only `Process.Terminal` is read, of the config only whether it is nil. `fd.NewFromFile`
is modelled from the spec: it dups the file's descriptor and fails on a negative one, which is
what `Fd()` returns for a nil file. Logging, the loader's `startSubcontainer`
(runsc/boot/loader.go) and `seccheck.Create` are left out: each handler is modelled up to that
call and ends with the arguments it would pass on, so what is proved here is proved of the
handlers' own code and not of the loader's.
-/

set_option autoImplicit false

namespace Gvisor.Runsc

/-! ### Go values -/

/-- A Go `int`. -/
abbrev GoInt := {x : Int // -2 ^ 63 ≤ x ∧ x < 2 ^ 63}

/-- The `int` result of an addition. -/
def wrapInt (x : Int) : Int := (x + 2 ^ 63) % 2 ^ 64 - 2 ^ 63

/-- A runtime panic of Go. -/
inductive RuntimePanic
  /-- `invalid memory address or nil pointer dereference`. -/
  | nilDereference
  /-- `slice bounds out of range [%d:%d]`, with the bound and the length. -/
  | sliceBounds (bound : Int) (len : Nat)
  /-- `index out of range [%d] with length %d`. -/
  | indexOutOfRange (index : Int) (len : Nat)
deriving DecidableEq, Repr

/-- How a handler ends without a result: it returns an error, or it panics. -/
inductive Failure (E : Type)
  | error (e : E)
  | panic (p : RuntimePanic)
deriving DecidableEq, Repr

/-- `s[:hi]`. -/
def sliceTo {α : Type} (s : List α) (hi : Int) : Except RuntimePanic (List α) :=
  if 0 ≤ hi ∧ hi ≤ s.length then .ok (s.take hi.toNat) else .error (.sliceBounds hi s.length)

/-- `s[lo:]`. -/
def sliceFrom {α : Type} (s : List α) (lo : Int) : Except RuntimePanic (List α) :=
  if 0 ≤ lo ∧ lo ≤ s.length then .ok (s.drop lo.toNat) else .error (.sliceBounds lo s.length)

/-- A panic of a slice expression, as a failure of a handler. -/
def liftPanic {E α : Type} (r : Except RuntimePanic α) : Except (Failure E) α :=
  r.mapError .panic

/-- A donated `*os.File`, by its host descriptor. -/
structure File where
  fd : Int
deriving DecidableEq, Repr

/-- A descriptor of the sentry, from `fd.NewFromFile`. -/
structure FD where
  fd : Int
deriving DecidableEq, Repr

/-- The error of a failed `dup`: `EBADF` on the descriptor. -/
structure DupError where
  fd : Int
deriving DecidableEq, Repr

/-- Modelled from the spec: `fd.NewFromFile`. -/
def newFromFile (f : File) : Except DupError FD :=
  if 0 ≤ f.fd then .ok ⟨f.fd⟩ else .error ⟨f.fd⟩

/-- Modelled from the spec: `fd.NewFromFiles`, which stops at the first failure. -/
def newFromFiles (fs : List File) : Except DupError (List FD) := fs.mapM newFromFile

/-! ### `StartSubcontainer` -/

/-- Of `specs.Process`, the field the handler reads. -/
structure Process where
  terminal : Bool
deriving DecidableEq, Repr

/-- Of `specs.Spec`, the field the handler reads. -/
structure Spec where
  process : Option Process
deriving DecidableEq, Repr

/-- `StartArgs`; `conf` is `none` for a nil config. -/
structure StartArgs where
  spec : Option Spec
  conf : Option Unit
  cid : String
  numOverlayFilestoreFDs : GoInt
  files : List File
deriving DecidableEq, Repr

/-- The errors `StartSubcontainer` returns before the loader. -/
inductive StartError
  /-- `start missing arguments`. -/
  | missingArguments
  /-- `start arguments missing spec`. -/
  | missingSpec
  /-- `start arguments missing config`. -/
  | missingConfig
  /-- `start argument missing container ID`. -/
  | missingContainerID
  /-- `start arguments must contain at least %d FDs, but only got %d`. -/
  | tooFewFDs (expected : Int) (got : Nat)
  /-- `error dup'ing stdio files: %w`. -/
  | dupStdio (err : DupError)
  /-- `error dup'ing overlay filestore file: %w`. -/
  | dupOverlay (err : DupError)
  /-- `error dup'ing gofer files: %w`. -/
  | dupGofer (err : DupError)
deriving DecidableEq, Repr

/-- The descriptors `StartSubcontainer` passes to the loader. -/
structure StartFDs where
  stdios : List FD
  goferFDs : List FD
  overlayFilestoreFDs : List FD
deriving DecidableEq, Repr

/-- The loop `for i := 0; i < n; i++` that dups `goferFiles[i]`, from `i` with `k` iterations
left. -/
def dupOverlayFiles (goferFiles : List File) : Nat → Nat → Except (Failure StartError) (List FD)
  | _, 0 => .ok []
  | i, k + 1 =>
    match goferFiles[i]? with
    | none => .error (.panic (.indexOutOfRange i goferFiles.length))
    | some f =>
      match newFromFile f with
      | .error err => .error (.error (.dupOverlay err))
      | .ok fd => (dupOverlayFiles goferFiles (i + 1) k).map (fd :: ·)

/-- The stdios of `StartSubcontainer`: without a terminal, the first three files. -/
def takeStdios (terminal : Bool) (files : List File) : Except (Failure StartError) (List FD × List File) :=
  if !terminal then do
    let first ← liftPanic (sliceTo files 3)
    let stdios ← (newFromFiles first).mapError (.error ∘ .dupStdio)
    let rest ← liftPanic (sliceFrom files 3)
    pure (stdios, rest)
  else pure ([], files)

/-- The slicing and dup'ing of `StartSubcontainer` once the request is validated: the stdios,
then `n` overlay filestore files, then the gofer files. -/
def splitStartFiles (terminal : Bool) (n : Int) (files : List File) : Except (Failure StartError) StartFDs := do
  let (stdios, goferFiles) ← takeStdios terminal files
  let overlayFilestoreFDs ← dupOverlayFiles goferFiles 0 n.toNat
  let goferFiles ← liftPanic (sliceFrom goferFiles n)
  let goferFDs ← (newFromFiles goferFiles).mapError (.error ∘ .dupGofer)
  pure ⟨stdios, goferFDs, overlayFilestoreFDs⟩

/-- `containerManager.StartSubcontainer` up to its call of the loader's `startSubcontainer`,
which is not modelled: it returns the files that call receives. -/
def startSubcontainer (args : Option StartArgs) : Except (Failure StartError) StartFDs := do
  let some args := args | throw (.error .missingArguments)
  let some spec := args.spec | throw (.error .missingSpec)
  let some _ := args.conf | throw (.error .missingConfig)
  if args.cid = "" then throw (.error .missingContainerID)
  let some process := spec.process | throw (.panic .nilDereference)
  let n := args.numOverlayFilestoreFDs.1
  let expectedFDs := wrapInt (wrapInt (1 + n) + if !process.terminal then 3 else 0)
  if (args.files.length : Int) < expectedFDs then
    throw (.error (.tooFewFDs expectedFDs args.files.length))
  splitStartFiles process.terminal n args.files

/-! ### `CreateTraceSession` -/

/-- Of `seccheck.SinkConfig`, its name and the descriptor the handler sets. -/
structure Sink where
  name : String
  fd : Option FD
deriving DecidableEq, Repr

/-- Of `seccheck.SessionConfig`, its sinks. -/
structure SessionConfig where
  sinks : List Sink
deriving DecidableEq, Repr

/-- `CreateTraceSessionArgs`; a file is `none` for a nil one. -/
structure CreateTraceSessionArgs where
  config : SessionConfig
  force : Bool
  files : List (Option File)
deriving DecidableEq, Repr

/-- The loop `for i, sinkFile := range args.Files`, from index `i`. -/
def setSinkFDs (sinks : List Sink) : List (Option File) → Nat → Except (Failure DupError) (List Sink)
  | [], _ => .ok sinks
  | none :: files, i => setSinkFDs sinks files (i + 1)
  | some f :: files, i =>
    match newFromFile f with
    | .error err => .error (.error err)
    | .ok fd =>
      if h : i < sinks.length then setSinkFDs (sinks.set i { sinks[i] with fd := some fd }) files (i + 1)
      else .error (.panic (.indexOutOfRange i sinks.length))

/-- `containerManager.CreateTraceSession`, up to `seccheck.Create`: the config it passes on. -/
def createTraceSession (args : CreateTraceSessionArgs) : Except (Failure DupError) SessionConfig :=
  (setSinkFDs args.config.sinks args.files 0).map fun sinks => { args.config with sinks := sinks }

/-! ### Panics -/

section Panics

variable {E α β : Type}

/-- The handler does not panic: it returns a result or an error. -/
def NoPanic (r : Except (Failure E) α) : Prop := ∀ p, r ≠ .error (.panic p)

theorem noPanic_ok (a : α) : NoPanic (E := E) (.ok a) := fun _ h => by cases h

theorem noPanic_error (e : E) : NoPanic (α := α) (.error (.error e)) := fun _ h => by cases h

@[simp] theorem liftPanic_ok (a : α) : liftPanic (E := E) (.ok a) = pure a := rfl

theorem NoPanic.bind {x : Except (Failure E) α} {f : α → Except (Failure E) β} (hx : NoPanic x)
    (hf : ∀ a, x = .ok a → NoPanic (f a)) : NoPanic (x >>= f) := by
  intro p h
  cases x with
  | error e =>
    have he : e = .panic p := Except.error.inj h
    exact hx p (he ▸ rfl)
  | ok a => exact hf a rfl p h

theorem noPanic_mapError {E' : Type} (r : Except E' α) (g : E' → E) : NoPanic (r.mapError (Failure.error ∘ g)) := by
  intro p h
  cases r <;> cases h

theorem noPanic_liftPanic {r : Except RuntimePanic α} {a : α} (h : r = .ok a) : NoPanic (E := E) (liftPanic r) := by
  intro p hp
  simp [liftPanic, h, Except.mapError] at hp

theorem sliceFrom_ok {γ : Type} {s : List γ} {lo : Int} (h0 : 0 ≤ lo) (h : lo ≤ s.length) :
    sliceFrom s lo = .ok (s.drop lo.toNat) := if_pos ⟨h0, h⟩

theorem sliceTo_ok {γ : Type} {s : List γ} {hi : Int} (h0 : 0 ≤ hi) (h : hi ≤ s.length) :
    sliceTo s hi = .ok (s.take hi.toNat) := if_pos ⟨h0, h⟩

end Panics

/-- The overlay loop stays within the files it indexes. -/
theorem dupOverlayFiles_noPanic (goferFiles : List File) :
    ∀ (k i : Nat), i + k ≤ goferFiles.length → NoPanic (dupOverlayFiles goferFiles i k)
  | 0, _, _ => noPanic_ok _
  | k + 1, i, h => by
    have hi : i < goferFiles.length := by omega
    intro p hp
    simp only [dupOverlayFiles, List.getElem?_eq_getElem hi] at hp
    split at hp
    · cases hp
    · rename_i fd _
      cases hr : dupOverlayFiles goferFiles (i + 1) k with
      | error e =>
        rw [hr] at hp
        cases hp
        exact dupOverlayFiles_noPanic goferFiles k (i + 1) (by omega) p hr
      | ok l =>
        rw [hr] at hp
        cases hp

theorem takeStdios_noPanic {terminal : Bool} {files : List File} (h : terminal = false → 3 ≤ files.length) :
    NoPanic (takeStdios terminal files) := by
  cases terminal
  · have h3 := h rfl
    refine (noPanic_liftPanic (sliceTo_ok (by omega) (by omega))).bind fun _ _ => ?_
    refine (noPanic_mapError _ _).bind fun _ _ => ?_
    exact (noPanic_liftPanic (sliceFrom_ok (by omega) (by omega))).bind fun _ _ => noPanic_ok _
  · exact noPanic_ok _

theorem takeStdios_rest {terminal : Bool} {files rest : List File} {stdios : List FD}
    (h : takeStdios terminal files = .ok (stdios, rest)) :
    rest.length + (if !terminal then 3 else 0) = files.length := by
  cases terminal
  · by_cases h3 : 3 ≤ files.length
    · simp only [takeStdios, Bool.not_false, if_true, sliceTo_ok (by omega) (by omega : (3 : Int) ≤ files.length),
        sliceFrom_ok (by omega) (by omega : (3 : Int) ≤ files.length), liftPanic_ok, pure_bind] at h
      cases hs : newFromFiles (files.take (3 : Int).toNat) with
      | error e => rw [hs] at h; cases h
      | ok fds =>
        rw [hs] at h
        cases h
        simp
        omega
    · simp only [takeStdios, Bool.not_false, if_true, sliceTo, liftPanic] at h
      rw [if_neg (by omega)] at h
      cases h
  · simp only [takeStdios, Bool.not_true, Bool.false_eq_true, if_false] at h
    cases h
    simp

theorem splitStartFiles_noPanic {terminal : Bool} {n : Int} {files : List File} (h0 : 0 ≤ n)
    (hlen : n + (if !terminal then 3 else 0) ≤ files.length) : NoPanic (splitStartFiles terminal n files) := by
  refine (takeStdios_noPanic fun ht => by subst ht; simp at hlen; omega).bind fun ⟨stdios, rest⟩ hx => ?_
  have hr : n ≤ rest.length := by
    have hrest := takeStdios_rest hx
    cases terminal <;> simp at hlen hrest <;> omega
  refine (dupOverlayFiles_noPanic rest n.toNat 0 (by omega)).bind fun _ _ => ?_
  refine (noPanic_liftPanic (sliceFrom_ok h0 hr)).bind fun _ _ => ?_
  exact (noPanic_mapError _ _).bind fun _ _ => noPanic_ok _

/-- With a terminal and a negative count, the gofer files are sliced from a negative bound. -/
theorem splitStartFiles_of_neg {n : Int} {files : List File} (hn : n < 0) :
    splitStartFiles true n files = .error (.panic (.sliceBounds n files.length)) := by
  have h0 : n.toNat = 0 := by omega
  have hs : sliceFrom files n = .error (.sliceBounds n files.length) := if_neg (by omega)
  simp only [splitStartFiles, takeStdios, Bool.not_true, Bool.false_eq_true, if_false, h0, pure_bind, hs]
  rfl

theorem startSubcontainer_of_no_process {args : StartArgs} {spec : Spec} (hspec : args.spec = some spec)
    (hconf : args.conf = some ()) (hcid : args.cid ≠ "") (hproc : spec.process = none) :
    startSubcontainer (some args) = .error (.panic .nilDereference) := by
  simp [startSubcontainer, hspec, hconf, hcid, hproc]
  rfl

theorem wrapInt_of_range {x : Int} (h₁ : -2 ^ 63 ≤ x) (h₂ : x < 2 ^ 63) : wrapInt x = x := by
  unfold wrapInt
  omega

/-- A validated request goes on to the slicing. -/
theorem startSubcontainer_of_validated {args : StartArgs} {spec : Spec} {process : Process}
    (hspec : args.spec = some spec) (hconf : args.conf = some ()) (hcid : args.cid ≠ "")
    (hproc : spec.process = some process)
    (hlen : ¬(args.files.length : Int) <
      wrapInt (wrapInt (1 + args.numOverlayFilestoreFDs.1) + if !process.terminal then 3 else 0)) :
    startSubcontainer (some args) = splitStartFiles process.terminal args.numOverlayFilestoreFDs.1 args.files := by
  simp only [startSubcontainer, hspec, hconf, hcid, hproc, hlen]
  rfl

theorem startSubcontainer_noPanic (args : StartArgs) (hproc : ∀ spec, args.spec = some spec → spec.process.isSome)
    (h0 : 0 ≤ args.numOverlayFilestoreFDs.1) (hn : args.numOverlayFilestoreFDs.1 ≤ 2 ^ 62) :
    NoPanic (startSubcontainer (some args)) := by
  rcases hs : args.spec with _ | spec
  · simp only [startSubcontainer, hs]
    exact noPanic_error _
  rcases hc : args.conf with _ | ⟨⟩
  · simp only [startSubcontainer, hs, hc]
    exact noPanic_error _
  by_cases hcid : args.cid = ""
  · simp only [startSubcontainer, hs, hc, hcid]
    exact noPanic_error _
  obtain ⟨process, hp⟩ := Option.isSome_iff_exists.1 (hproc spec hs)
  by_cases hlen : (args.files.length : Int) <
      wrapInt (wrapInt (1 + args.numOverlayFilestoreFDs.1) + if !process.terminal then 3 else 0)
  · simp only [startSubcontainer, hs, hc, hcid, hp, hlen]
    exact noPanic_error _
  rw [startSubcontainer_of_validated hs hc hcid hp hlen]
  have hc3 : (0 : Int) ≤ (if !process.terminal then 3 else 0) ∧ (if !process.terminal then 3 else 0 : Int) ≤ 3 := by
    split <;> omega
  have h1 : wrapInt (1 + args.numOverlayFilestoreFDs.1) = 1 + args.numOverlayFilestoreFDs.1 :=
    wrapInt_of_range (by omega) (by omega)
  rw [h1, wrapInt_of_range (by omega) (by omega)] at hlen
  exact splitStartFiles_noPanic h0 (by omega)

theorem setSinkFDs_noPanic : ∀ (files : List (Option File)) (sinks : List Sink) (i : Nat),
    i + files.length ≤ sinks.length → NoPanic (setSinkFDs sinks files i)
  | [], _, _, _ => noPanic_ok _
  | none :: files, sinks, i, h => setSinkFDs_noPanic files sinks (i + 1) (by simp at h; omega)
  | some f :: files, sinks, i, h => by
    have hi : i < sinks.length := by simp at h; omega
    simp only [setSinkFDs, hi, dif_pos]
    split
    · exact noPanic_error _
    · exact setSinkFDs_noPanic files _ (i + 1) (by simp at h ⊢; omega)

/-- Past the last sink, the first file the loop reaches is stored at an index out of range. -/
theorem setSinkFDs_overflow : ∀ (files : List (Option File)) (sinks : List Sink) (i : Nat),
    (∀ f ∈ files, ∃ file, f = some file ∧ 0 ≤ file.fd) → i ≤ sinks.length → sinks.length < i + files.length →
      setSinkFDs sinks files i = .error (.panic (.indexOutOfRange sinks.length sinks.length))
  | [], _, _, _, h₁, h₂ => by simp at h₂; omega
  | f :: files, sinks, i, hf, h₁, h₂ => by
    obtain ⟨file, rfl, hfd⟩ := hf f (List.mem_cons_self _ _)
    have hnew : newFromFile file = .ok ⟨file.fd⟩ := if_pos hfd
    simp only [setSinkFDs, hnew]
    by_cases hi : i < sinks.length
    · rw [dif_pos hi, setSinkFDs_overflow files _ (i + 1) (fun g hg => hf g (List.mem_cons_of_mem _ hg))
        (by simp; omega) (by simp at h₂ ⊢; omega), List.length_set]
    · rw [dif_neg hi, show i = sinks.length by omega]

/-! ### What the handlers do with every payload -/

/-- With a `Process` in the spec, a count of overlay files in `[0, 2^62]`, and no more trace
files than sinks, neither handler panics before the call it ends with: the loader's
`startSubcontainer` and `seccheck.Create`. -/
theorem control_rpcs_no_panic :
    (∀ args : StartArgs, (∀ spec, args.spec = some spec → spec.process.isSome) →
      0 ≤ args.numOverlayFilestoreFDs.1 → args.numOverlayFilestoreFDs.1 ≤ 2 ^ 62 →
      NoPanic (startSubcontainer (some args))) ∧
    ∀ args : CreateTraceSessionArgs, args.files.length ≤ args.config.sinks.length →
      NoPanic (createTraceSession args) := by
  refine ⟨startSubcontainer_noPanic, fun args h p hp => ?_⟩
  cases hs : setSinkFDs args.config.sinks args.files 0 with
  | error e =>
    simp only [createTraceSession, hs] at hp
    exact setSinkFDs_noPanic args.files args.config.sinks 0 (by omega) p (by rw [hs]; cases hp; rfl)
  | ok sinks =>
    simp only [createTraceSession, hs] at hp
    cases hp

/-- Requests that pass the handlers' own checks and panic: a spec without a `Process`, a
negative count of overlay files with a terminal, and more trace files than sinks. -/
theorem control_rpcs_panic :
    (∀ (args : StartArgs) (spec : Spec), args.spec = some spec → args.conf = some () → args.cid ≠ "" →
      spec.process = none → startSubcontainer (some args) = .error (.panic .nilDereference)) ∧
    (∀ (args : StartArgs) (spec : Spec) (process : Process), args.spec = some spec → args.conf = some () →
      args.cid ≠ "" → spec.process = some process → process.terminal = true → args.numOverlayFilestoreFDs.1 < 0 →
      startSubcontainer (some args) = .error (.panic (.sliceBounds args.numOverlayFilestoreFDs.1 args.files.length))) ∧
    ∀ args : CreateTraceSessionArgs, (∀ f ∈ args.files, ∃ file, f = some file ∧ 0 ≤ file.fd) →
      args.config.sinks.length < args.files.length →
      createTraceSession args =
        .error (.panic (.indexOutOfRange args.config.sinks.length args.config.sinks.length)) := by
  refine ⟨fun args spec hs hc hcid hp => startSubcontainer_of_no_process hs hc hcid hp,
    fun args spec process hs hc hcid hp ht hn => ?_, fun args hf hlen => ?_⟩
  · have hb := args.numOverlayFilestoreFDs.2
    have h₁ : wrapInt (1 + args.numOverlayFilestoreFDs.1) = 1 + args.numOverlayFilestoreFDs.1 :=
      wrapInt_of_range (by omega) (by omega)
    have hlen : ¬(args.files.length : Int) <
        wrapInt (wrapInt (1 + args.numOverlayFilestoreFDs.1) + if !process.terminal then 3 else 0) := by
      rw [h₁, ht]
      simp only [Bool.not_true, Bool.false_eq_true, if_false, Int.add_zero]
      rw [wrapInt_of_range (by omega) (by omega)]
      omega
    rw [startSubcontainer_of_validated hs hc hcid hp hlen, ht, splitStartFiles_of_neg hn]
  · simp only [createTraceSession, setSinkFDs_overflow args.files args.config.sinks 0 hf (Nat.zero_le _) (by omega)]
    rfl

/-- Three payloads: a spec without a `Process`, a count of `-1` with a terminal, and one trace
file for no sink. -/
theorem control_rpcs_panic_payloads :
    startSubcontainer (some ⟨some ⟨none⟩, some (), "c", ⟨0, by decide⟩, []⟩) = .error (.panic .nilDereference) ∧
      startSubcontainer (some ⟨some ⟨some ⟨true⟩⟩, some (), "c", ⟨-1, by decide⟩, []⟩) =
        .error (.panic (.sliceBounds (-1) 0)) ∧
      createTraceSession ⟨⟨[]⟩, false, [some ⟨3⟩]⟩ = .error (.panic (.indexOutOfRange 0 0)) :=
  ⟨control_rpcs_panic.1 _ _ rfl rfl (by decide) rfl,
    control_rpcs_panic.2.1 _ _ _ rfl rfl (by decide) rfl rfl (by decide),
    control_rpcs_panic.2.2 _ (by simp) (by decide)⟩

/-- A request with stdios, one overlay file and one gofer file, and a trace session with one
file for its one sink. -/
theorem control_rpcs_no_panic_wellformed :
    NoPanic (startSubcontainer (some ⟨some ⟨some ⟨false⟩⟩, some (), "c", ⟨1, by decide⟩, [⟨0⟩, ⟨1⟩, ⟨2⟩, ⟨3⟩, ⟨4⟩]⟩)) ∧
      NoPanic (createTraceSession ⟨⟨[⟨"sink", none⟩]⟩, false, [some ⟨3⟩]⟩) :=
  ⟨control_rpcs_no_panic.1 _ (fun _ h => by cases h; rfl) (by decide) (by decide),
    control_rpcs_no_panic.2 _ (by decide)⟩

end Gvisor.Runsc
