import Mathlib.Algebra.Group.Nat.Basic
import Mathlib.Data.Nat.Defs
import Mathlib.Tactic.Common

/-!
# Flag overrides from OCI annotations

`Config.Override` (runsc/config/flags.go) writes one flag's value into a `Config`: it walks
the struct's fields for the first one whose `flag` tag is the name, looks the flag up in the
flag set, asks `isOverrideAllowed` unless `force` is set, parses the value with the flag's own
`Value.Set`, writes the field and validates the config again. Without `AllowFlagOverride`,
`isOverrideAllowed` lets through only the names of `overrideAllowlist`, and `oci-seccomp` only
with a value that `checkOciSeccomp` reads as true.

The results here: `override_spec` says what one call can do. A call on a name outside the
allowlist fails and leaves the config as it was (`override_outside_allowlist`), and a call on
`oci-seccomp` can only set it to true (`flag_override_ociSeccomp`). `overrideReach_guarded`
carries these over every run of annotation overrides from a config without
`AllowFlagOverride`: every state reached keeps `AllowFlagOverride` off, rejects every name
outside the allowlist unchanged, and never turns `OCISeccomp` from true to false.

Scope. `Config`, its `validate` and the `flag` package are not in the source and are modelled
from the spec. A config is the list of its fields, each with its `flag` tag and value, in
declaration order: the list the reflection in `Override` walks. The named fields
`AllowFlagOverride` and `OCISeccomp` are the fields tagged `allow-flag-override` and
`oci-seccomp`. A flag set maps a name to its flag's `Value.Set`; `flagSet.Bool` registers
`strconv.ParseBool`, as the Go `flag` package does. `validate` is any check of the config.
An error is kept as the data the code formats into its text, and the panic of `Override` is an
error of its own.
-/

set_option autoImplicit false

namespace Gvisor.Runsc

/-! ### Values and flags -/

/-- The `*strconv.NumError` of a failed parse: the function and the input. -/
structure NumError where
  func : String
  num : String
deriving DecidableEq, Repr

/-- Modelled from the spec: `strconv.ParseBool`. -/
def parseBool (str : String) : Except NumError Bool :=
  match str with
  | "1" | "t" | "T" | "TRUE" | "true" | "True" => .ok true
  | "0" | "f" | "F" | "FALSE" | "false" | "False" => .ok false
  | _ => .error ⟨"ParseBool", str⟩

/-- The value of a flag field, as `flag.Get` returns it; `other` is a `flag.Value` of the
package's own, by its `String()`. -/
inductive FlagValue
  | bool (b : Bool)
  | string (s : String)
  | uint (n : Nat)
  | other (s : String)
deriving DecidableEq, Repr

/-- A flag of a flag set, by its `Value.Set`: the value a string parses to, or the error. -/
structure Flag where
  set : String → Except String FlagValue

/-- Modelled from the spec: the flag `flagSet.Bool` registers. Its `Set` is
`strconv.ParseBool`, and fails with `errParse`. -/
def boolFlag : Flag :=
  ⟨fun s => match parseBool s with
    | .ok b => .ok (.bool b)
    | .error _ => .error "parse error"⟩

/-- Modelled from the spec: `flag.FlagSet`, by `Lookup`. -/
structure FlagSet where
  lookup : String → Option Flag

/-! ### The config -/

/-- A field of `Config`: its `flag` tag, if it has one, and its value. -/
structure Field where
  tag : Option String
  value : FlagValue
deriving DecidableEq, Repr

/-- Modelled from the spec: `Config`, as its fields in declaration order. -/
structure Config where
  fields : List Field
deriving DecidableEq, Repr

/-- Whether a field carries the tag `flag:"name"`. -/
def Field.tagged (name : String) (f : Field) : Bool := f.tag = some name

/-- The value of the field tagged `name`: the first one, as the reflection finds it. -/
def Config.flag (c : Config) (name : String) : Option FlagValue :=
  (c.fields.find? (Field.tagged name)).map (·.value)

/-- `c.AllowFlagOverride`. -/
def Config.allowFlagOverride (c : Config) : Bool := c.flag "allow-flag-override" = some (.bool true)

/-- `c.OCISeccomp`. -/
def Config.ociSeccomp (c : Config) : Bool := c.flag "oci-seccomp" = some (.bool true)

/-- The precondition of `Override` that its comment "Flag must exist if there is a field match
above" states: every tagged field of the config has its flag in the flag set. `RegisterFlags`
(runsc/config/flags.go) registers the flags, but `Config`'s tags are not in the source, so the
precondition is stated over the fields rather than derived from that registration. `Override`
panics on a field whose flag is missing. -/
def Registered (flagSet : FlagSet) (c : Config) : Bool :=
  c.fields.all fun f => f.tag.all fun name => (flagSet.lookup name).isSome

/-! ### `Override` -/

/-- The errors of `Override`, by the data their texts are formatted from. -/
inductive OverrideError
  /-- `flag %q not found. Cannot set it to %q`. -/
  | notFound (name value : String)
  /-- `error setting flag %s=%q: %w`. -/
  | setting (name value : String) (err : OverrideError)
  /-- `flag override disabled, use --allow-flag-override to enable it`. -/
  | overrideDisabled
  /-- `disabling %q requires flag %q to be enabled`. -/
  | disablingRequires (name flag : String)
  /-- The error of `strconv.ParseBool` in `checkOciSeccomp`. -/
  | parseBool (err : NumError)
  /-- The error of the flag's `Value.Set`. -/
  | set (err : String)
  /-- An error of `validate`. -/
  | validate (err : String)
  /-- The panic `Flag %q not found`. -/
  | flagNotFound (name : String)
deriving DecidableEq, Repr

/-- `checkOciSeccomp`: seccomp can be enabled but not disabled. -/
def checkOciSeccomp (name value : String) : Except OverrideError Unit :=
  match parseBool value with
  | .error err => .error (.parseBool err)
  | .ok enable => if !enable then .error (.disablingRequires name "allow-flag-override") else .ok ()

/-- `overrideAllowlist`: the flags OCI annotations may change, with their checks. -/
def overrideAllowlist : List (String × Option (String → String → Except OverrideError Unit)) :=
  [("debug", none), ("strace", none), ("strace-syscalls", none), ("strace-log-size", none),
    ("host-uds", none), ("oci-seccomp", some checkOciSeccomp)]

/-- `Config.isOverrideAllowed`. -/
def Config.isOverrideAllowed (c : Config) (name value : String) : Except OverrideError Unit :=
  if c.allowFlagOverride then .ok ()
  else
    match overrideAllowlist.lookup name with
    | some allow =>
      match allow with
      | some check => check name value
      | none => .ok ()
    | none => .error .overrideDisabled

/-- The fields with the one at `i` set to `x`: `obj.Field(i).Set(x)`. -/
def setField (fields : List Field) (i : Nat) (x : FlagValue) : List Field :=
  fields.modify (fun f => { f with value := x }) i

/-- `Config.Override(flagSet, name, value, force)`: the config it leaves and the error it
returns. -/
def Config.override (validate : Config → Except OverrideError Unit) (flagSet : FlagSet) (c : Config)
    (name value : String) (force : Bool) : Config × Except OverrideError Unit :=
  match c.fields.findIdx? (Field.tagged name) with
  | none => (c, .error (.notFound name value))
  | some i =>
    match flagSet.lookup name with
    | none => (c, .error (.flagNotFound name))
    | some fl =>
      match (if !force then c.isOverrideAllowed name value else .ok ()) with
      | .error err => (c, .error (.setting name value err))
      | .ok () =>
        match fl.set value with
        | .error err => (c, .error (.setting name value (.set err)))
        | .ok x =>
          let c' : Config := ⟨setField c.fields i x⟩
          (c', validate c')

/-! ### What one call can do -/

theorem findIdx?_tagged_mem {fields : List Field} {name : String} {i : Nat}
    (hi : fields.findIdx? (Field.tagged name) = some i) : ∃ f ∈ fields, f.tag = some name := by
  obtain ⟨h, hf, -⟩ := List.findIdx?_eq_some_iff_getElem.1 hi
  exact ⟨_, List.getElem_mem h, by simpa [Field.tagged] using hf⟩

/-- Writing the field the walk found changes the value of its tag and no other. -/
theorem flag_setField {name n : String} {x : FlagValue} : ∀ {fields : List Field} {i : Nat},
    fields.findIdx? (Field.tagged name) = some i →
      Config.flag ⟨setField fields i x⟩ n = if n = name then some x else Config.flag ⟨fields⟩ n
  | [], _, h => by simp at h
  | f :: fs, i, h => by
    rw [List.findIdx?_cons, Nat.zero_add, List.findIdx?_succ] at h
    by_cases hf : f.tag = some name
    · obtain rfl : i = 0 := by simpa [Field.tagged, hf] using h.symm
      by_cases hn : n = name
      · simp [Config.flag, setField, Field.tagged, hf, hn]
      · have hne : name ≠ n := fun h => hn h.symm
        simp only [Config.flag, setField, List.modify_zero_cons, List.find?_cons, if_neg hn]
        simp [Field.tagged, hf, hne]
    · obtain ⟨j, hj, rfl⟩ : ∃ j, fs.findIdx? (Field.tagged name) = some j ∧ j + 1 = i := by
        simpa [Field.tagged, hf] using h
      have ih := flag_setField (n := n) (x := x) hj
      simp only [Config.flag, setField] at ih ⊢
      rw [List.modify_succ_cons, List.find?_cons, List.find?_cons]
      cases hn : Field.tagged n f
      · exact ih
      · have hne : n ≠ name := by
          rintro rfl
          exact hf (by simpa [Field.tagged] using hn)
        simp [hne]

theorem registered_setField (flagSet : FlagSet) (x : FlagValue) : ∀ (fields : List Field) (i : Nat),
    Registered flagSet ⟨setField fields i x⟩ = Registered flagSet ⟨fields⟩
  | [], _ => by simp [setField]
  | _ :: _, 0 => by simp [Registered, setField]
  | f :: fs, i + 1 => by
    have ih := registered_setField flagSet x fs i
    simp only [Registered, setField, List.modify_succ_cons, List.all_cons] at ih ⊢
    rw [ih]

/-- A registered config has a flag for every field the walk can find. -/
theorem Registered.lookup {flagSet : FlagSet} {c : Config} (hreg : Registered flagSet c = true)
    {name : String} {i : Nat} (hi : c.fields.findIdx? (Field.tagged name) = some i) :
    (flagSet.lookup name).isSome := by
  obtain ⟨f, hf, htag⟩ := findIdx?_tagged_mem hi
  have := List.all_eq_true.1 hreg f hf
  rwa [htag] at this

theorem isOverrideAllowed_outside {c : Config} (hoff : c.allowFlagOverride = false) {name : String}
    (hn : overrideAllowlist.lookup name = none) (value : String) :
    c.isOverrideAllowed name value = .error .overrideDisabled := by
  simp [Config.isOverrideAllowed, hoff, hn]

/-- Without `AllowFlagOverride`, a name the guard lets through is on the allowlist, and
`oci-seccomp` only with a value that `ParseBool` reads as true. -/
theorem isOverrideAllowed_ok {c : Config} (hoff : c.allowFlagOverride = false) {name value : String}
    (h : c.isOverrideAllowed name value = .ok ()) :
    (overrideAllowlist.lookup name).isSome ∧ (name = "oci-seccomp" → parseBool value = .ok true) := by
  simp only [Config.isOverrideAllowed, hoff, Bool.false_eq_true, if_false] at h
  refine ⟨?_, ?_⟩
  · cases hl : overrideAllowlist.lookup name
    · simp [hl] at h
    · rfl
  · rintro rfl
    have hl : overrideAllowlist.lookup "oci-seccomp" = some (some checkOciSeccomp) := rfl
    simp only [hl, checkOciSeccomp] at h
    split at h
    · cases h
    · rename_i enable henable
      cases enable
      · cases h
      · exact henable

section Step

variable (validate : Config → Except OverrideError Unit) (flagSet : FlagSet)

/-- Every call either leaves the config as it was, or finds the field, passes the guard unless
forced, parses the value and writes it. -/
theorem override_spec (c : Config) (name value : String) (force : Bool) :
    (c.override validate flagSet name value force).1 = c ∨
      ∃ i fl x, c.fields.findIdx? (Field.tagged name) = some i ∧ flagSet.lookup name = some fl ∧
        (force = false → c.isOverrideAllowed name value = .ok ()) ∧ fl.set value = .ok x ∧
        (c.override validate flagSet name value force).1 = ⟨setField c.fields i x⟩ := by
  unfold Config.override
  split
  · exact .inl rfl
  rename_i i hi
  split
  · exact .inl rfl
  rename_i fl hfl
  split
  · exact .inl rfl
  rename_i hallow
  split
  · exact .inl rfl
  rename_i x hx
  exact .inr ⟨i, fl, x, hi, hfl, fun hf => by simpa [hf] using hallow, hx, rfl⟩

/-- Without `AllowFlagOverride`, a call on a name outside the allowlist leaves the config as it
was and fails: the name has no field, or the guard refuses it. -/
theorem override_outside_allowlist {c : Config} (hreg : Registered flagSet c = true)
    (hoff : c.allowFlagOverride = false) {name : String} (hn : overrideAllowlist.lookup name = none)
    (value : String) :
    c.override validate flagSet name value false = (c, .error (.notFound name value)) ∨
      c.override validate flagSet name value false = (c, .error (.setting name value .overrideDisabled)) := by
  unfold Config.override
  split
  · exact .inl rfl
  rename_i i hi
  obtain ⟨fl, hfl⟩ := Option.isSome_iff_exists.1 (Registered.lookup hreg hi)
  right
  simp [hfl, isOverrideAllowed_outside hoff hn]

theorem flag_override_ne (c : Config) {name n : String} (hn : n ≠ name) (value : String) (force : Bool) :
    (c.override validate flagSet name value force).1.flag n = c.flag n := by
  rcases override_spec validate flagSet c name value force with h | ⟨i, -, x, hi, -, -, -, h⟩
  · rw [h]
  · rw [h, flag_setField hi, if_neg hn]

theorem allowFlagOverride_override {c : Config} (hoff : c.allowFlagOverride = false) (name value : String) :
    (c.override validate flagSet name value false).1.allowFlagOverride = false := by
  rcases override_spec validate flagSet c name value false with h | ⟨-, -, -, -, -, hallow, -, -⟩
  · rwa [h]
  · have hne : "allow-flag-override" ≠ name := by
      rintro rfl
      have hl := (isOverrideAllowed_ok hoff (hallow rfl)).1
      rw [show overrideAllowlist.lookup "allow-flag-override" = none from rfl] at hl
      cases hl
    simpa only [Config.allowFlagOverride, flag_override_ne validate flagSet c hne] using hoff

/-- Without `AllowFlagOverride`, a call leaves the value of `oci-seccomp` as it was or sets it
to true. -/
theorem flag_override_ociSeccomp (hbool : flagSet.lookup "oci-seccomp" = some boolFlag) {c : Config}
    (hoff : c.allowFlagOverride = false) (name value : String) :
    (c.override validate flagSet name value false).1.flag "oci-seccomp" = c.flag "oci-seccomp" ∨
      (c.override validate flagSet name value false).1.flag "oci-seccomp" = some (.bool true) := by
  by_cases hn : "oci-seccomp" = name
  · subst hn
    rcases override_spec validate flagSet c "oci-seccomp" value false with h | ⟨i, fl, x, hi, hfl, hallow, hx, h⟩
    · exact .inl (by rw [h])
    · rw [hbool, Option.some_inj] at hfl
      subst hfl
      have hp := (isOverrideAllowed_ok hoff (hallow rfl)).2 rfl
      simp only [boolFlag, hp, Except.ok.injEq] at hx
      right
      rw [h, flag_setField hi, if_pos rfl, ← hx]
  · exact .inl (flag_override_ne validate flagSet c hn value false)

theorem registered_override (c : Config) (name value : String) (force : Bool) :
    Registered flagSet (c.override validate flagSet name value force).1 = Registered flagSet c := by
  rcases override_spec validate flagSet c name value force with h | ⟨i, -, x, -, -, -, -, h⟩
  · rw [h]
  · rw [h, registered_setField]

/-! ### Runs of overrides -/

/-- The configs a run of annotation overrides reaches from `c`: `Override(flagSet, name, value,
false)` with any name and value, one call after another, whether or not each fails. -/
inductive OverrideReach (c : Config) : Config → Prop
  | refl : OverrideReach c c
  | step {c' : Config} (name value : String) :
      OverrideReach c c' → OverrideReach c (c'.override validate flagSet name value false).1

/-- What annotations must not do from the config `c`: `AllowFlagOverride` is off; a call on a
name outside the allowlist fails and leaves `c` unchanged; and no call turns `OCISeccomp` from
true to false. -/
def Guarded (c : Config) : Prop :=
  c.allowFlagOverride = false ∧
    (∀ name value, overrideAllowlist.lookup name = none →
      c.override validate flagSet name value false = (c, .error (.notFound name value)) ∨
        c.override validate flagSet name value false = (c, .error (.setting name value .overrideDisabled))) ∧
    ∀ name value, c.ociSeccomp = true → (c.override validate flagSet name value false).1.ociSeccomp = true

theorem ociSeccomp_override (hbool : flagSet.lookup "oci-seccomp" = some boolFlag) {c : Config}
    (hoff : c.allowFlagOverride = false) (name value : String) (h : c.ociSeccomp = true) :
    (c.override validate flagSet name value false).1.ociSeccomp = true := by
  simp only [Config.ociSeccomp, decide_eq_true_eq] at h ⊢
  rcases flag_override_ociSeccomp validate flagSet hbool hoff name value with h' | h' <;> rw [h']
  exact h

/-- Over every run of annotation overrides from a registered config without
`AllowFlagOverride`, every config reached is guarded. -/
theorem overrideReach_guarded (hbool : flagSet.lookup "oci-seccomp" = some boolFlag) {c c' : Config}
    (hreg : Registered flagSet c = true) (hoff : c.allowFlagOverride = false)
    (hr : OverrideReach validate flagSet c c') : Guarded validate flagSet c' := by
  have hinv : Registered flagSet c' = true ∧ c'.allowFlagOverride = false := by
    induction hr with
    | refl => exact ⟨hreg, hoff⟩
    | step name value _ ih =>
      exact ⟨(registered_override validate flagSet _ name value false).trans ih.1,
        allowFlagOverride_override validate flagSet ih.2 name value⟩
  exact ⟨hinv.2, fun name value hn => override_outside_allowlist validate flagSet hinv.1 hinv.2 hn value,
    fun name value => ociSeccomp_override validate flagSet hbool hinv.2 name value⟩

end Step

/-- A flag set in which every name is a boolean flag. -/
def allBoolFlags : FlagSet := ⟨fun _ => some boolFlag⟩

/-- Enabling seccomp by annotation on a config with both flags off. -/
theorem overrideReach_guarded_enable_seccomp :
    allBoolFlags.lookup "oci-seccomp" = some boolFlag ∧
      Registered allBoolFlags ⟨[⟨some "allow-flag-override", .bool false⟩, ⟨some "oci-seccomp", .bool false⟩]⟩ = true ∧
      Config.allowFlagOverride ⟨[⟨some "allow-flag-override", .bool false⟩, ⟨some "oci-seccomp", .bool false⟩]⟩ = false ∧
      OverrideReach (fun _ => .ok ()) allBoolFlags
        ⟨[⟨some "allow-flag-override", .bool false⟩, ⟨some "oci-seccomp", .bool false⟩]⟩
        (Config.override (fun _ => .ok ()) allBoolFlags
          ⟨[⟨some "allow-flag-override", .bool false⟩, ⟨some "oci-seccomp", .bool false⟩]⟩ "oci-seccomp" "true" false).1 ∧
      Guarded (fun _ => .ok ()) allBoolFlags
        (Config.override (fun _ => .ok ()) allBoolFlags
          ⟨[⟨some "allow-flag-override", .bool false⟩, ⟨some "oci-seccomp", .bool false⟩]⟩ "oci-seccomp" "true" false).1 :=
  ⟨rfl, by decide, by decide, .step "oci-seccomp" "true" .refl,
    overrideReach_guarded _ _ rfl (by decide) (by decide) (.step "oci-seccomp" "true" .refl)⟩

end Gvisor.Runsc
