import Mathlib.Algebra.Group.Nat.Basic
import Mathlib.Data.Nat.Defs
import Mathlib.Tactic.Common

/-!
# The mmap layout of a 64-bit address space

`Context64.NewMmapLayout` (sentry/arch/arch.go) picks the bounds and bases of a new memory
manager's address space. It rounds `min` up and `max` down to pages, and clamps the gap above
the stack between `minGap64` and five sixths of `max`. It draws one random offset for both
bases, and shrinks the offset's range when that keeps `TopDownBase` above the address TSAN
needs. A final check panics on an invalid layout. `PIELoadAddress` places a
position-independent executable in a layout.

The results here: `newMmapLayout_spec` says what `NewMmapLayout` returns for every input: it
rejects exactly the bounds that `Accepts` excludes, and it returns a layout within the bounds
exactly when the draw fits (`LayoutFits`). Otherwise it panics
(`newMmapLayout_panics_unless_fits`), which a raised `min` or a small `max` reaches. The
shrinking branch keeps `TopDownBase` between `preferredTopDownBaseMin` and `MaxAddr - gap`
(`maxRand_shrinkLaw`). In a layout whose `MaxAddr` lies below two thirds of `TopDownBase` plus
`maxMmapRand64`, `PIELoadAddress` can return an address at or past `MaxAddr`
(`pieLoadAddress_escapes`).

Scope. `hostarch.Addr` is a `uint64`: its values are `Nat`s below `2 ^ 64`, and the code's
subtractions and additions wrap (`sub64`, `wrap`). `RoundUp`, `RoundDown` and `AddLength` of
`hostarch`, `limits.Infinity` and the contract of `rand.Int63n` are not part of the source
and are modelled from the spec. A source of random draws is an `Int63n`: a function that, like
`rand.Int63n`, returns a value in `[0, n)` for every `0 < n < 2 ^ 63`. Of the stack limit
only `Cur` is read. A panic ends the computation with an `ArchFailure` of its own.
-/

set_option autoImplicit false

namespace Gvisor.Arch

/-! ### `uint64` addresses -/

/-- Modelled from the spec: `hostarch.PageSize`. -/
def pageSize : Nat := 4096

/-- The `uint64` result of an addition or a multiplication. -/
def wrap (x : Nat) : Nat := x % 2 ^ 64

/-- The `uint64` difference `a - b` of two `uint64`s, which wraps below zero. -/
def sub64 (a b : Nat) : Nat := (a + 2 ^ 64 - b) % 2 ^ 64

/-- Modelled from the spec: `Addr.RoundDown`, `v &^ (PageSize - 1)`. -/
def roundDown (v : Nat) : Nat := v / pageSize * pageSize

/-- Modelled from the spec: `Addr.RoundUp`: the page boundary at or above `v`, and whether
the addition did not wrap. -/
def roundUp (v : Nat) : Nat × Bool :=
  let addr := roundDown (wrap (v + pageSize - 1))
  (addr, decide (v ≤ addr))

/-- Modelled from the spec: `Addr.AddLength`: the end, and whether it did not wrap. -/
def addLength (v length : Nat) : Nat × Bool :=
  let e := wrap (v + length)
  (e, decide (v ≤ e))

/-- Modelled from the spec: `limits.Infinity`, `RLIM_INFINITY`. -/
def infinity : Nat := 2 ^ 64 - 1

def maxAddr64 : Nat := 2 ^ 47 - pageSize

def maxStackRand64 : Nat := 16 * 2 ^ 30

def maxMmapRand64 : Nat := 2 ^ 28 * pageSize

def minGap64 : Nat := 128 * 2 ^ 20 + maxStackRand64

def preferredPIELoadAddr : Nat := maxAddr64 / 3 * 2

def preferredTopDownAllocMin : Nat := 0x7e8000000000

def preferredAllocationGap : Nat := 128 * 2 ^ 30

def preferredTopDownBaseMin : Nat := preferredTopDownAllocMin + preferredAllocationGap

def minMmapRand64 : Nat := 2 ^ 26 * pageSize

/-! ### The layout -/

inductive MmapDirection
  | bottomUp
  | topDown
deriving DecidableEq, Repr

structure MmapLayout where
  minAddr : Nat
  maxAddr : Nat
  bottomUpBase : Nat
  topDownBase : Nat
  defaultDirection : MmapDirection
  maxStackRand : Nat
deriving DecidableEq, Repr

def MmapLayout.valid (m : MmapLayout) : Bool :=
  if m.minAddr > m.maxAddr then false
  else if m.bottomUpBase < m.minAddr then false
  else if m.bottomUpBase > m.maxAddr then false
  else if m.topDownBase < m.minAddr then false
  else if m.topDownBase > m.maxAddr then false
  else true

/-- How `NewMmapLayout` and `PIELoadAddress` end without a result: the error `EINVAL`, or a
panic. -/
inductive ArchFailure
  | einval
  /-- `panic("Invalid MmapLayout: %+v")`. -/
  | invalidLayout (l : MmapLayout)
  /-- The panic of `rand.Int63n` on an argument that is not positive. -/
  | int63nArgument
  /-- `panic("preferredPIELoadAddr %#x too large")`. -/
  | pieTooLarge
deriving DecidableEq, Repr

/-- Modelled from the spec: a source of `rand.Int63n` draws, which lie in `[0, n)` for every
positive `n`. -/
structure Int63n where
  draw : Nat → Nat
  draw_lt : ∀ n, 0 < n → n < 2 ^ 63 → draw n < n

/-- `mmapRand(max)`: `RoundDown(Int63n(int64(max)))`; `int64(max)` is not positive from `2 ^ 63`
on. -/
def mmapRand (int63n : Nat → Nat) (max : Nat) : Except ArchFailure Nat :=
  if max = 0 ∨ 2 ^ 63 ≤ max then throw .int63nArgument else pure (roundDown (int63n max))

/-- `max`, clamped to `maxAddr64` and rounded down. -/
def layoutMax (max : Nat) : Nat := roundDown (if max > maxAddr64 then maxAddr64 else max)

/-- The gap above the stack: the stack limit clamped to `minGap64` from below, then to
`MAX_GAP`, five sixths of `max`, from above. -/
def stackGap (max stackCur : Nat) : Nat :=
  let maxGap := wrap (max / 6 * 5)
  let gap := if stackCur < minGap64 then minGap64 else stackCur
  if gap > maxGap then maxGap else gap

/-- `topDownMin`: the lowest `TopDownBase` with the full randomization. -/
def topDownMin (max gap : Nat) : Nat := sub64 (sub64 max gap) maxMmapRand64

/-- `maxRand`, shrunk by `needAdjust` when `TopDownBase` may fall below
`preferredTopDownBaseMin` and the shrinking leaves at least `minMmapRand64`. -/
def layoutMaxRand (max gap : Nat) : Nat :=
  let topDownMin := topDownMin max gap
  let maxRand := maxMmapRand64
  if topDownMin < preferredTopDownBaseMin then
    let maxAdjust := sub64 maxRand minMmapRand64
    let needAdjust := sub64 preferredTopDownBaseMin topDownMin
    if needAdjust ≤ maxAdjust then sub64 maxRand needAdjust else maxRand
  else maxRand

/-- The layout built from the bounds, the gap, the direction, the randomization range and the
draw `rnd`. -/
def buildLayout (min max gap : Nat) (dir : MmapDirection) (maxRand rnd : Nat) : MmapLayout :=
  ⟨min, max, roundDown (wrap (max / 3 + rnd)), roundDown (sub64 (sub64 max gap) rnd), dir, maxRand⟩

/-- `Context64.NewMmapLayout(min, max, r)`, with `stackCur` the current stack limit. -/
def newMmapLayout (min max stackCur : Nat) (int63n : Nat → Nat) : Except ArchFailure MmapLayout := do
  let (min, ok) := roundUp min
  if !ok then throw .einval
  let max := layoutMax max
  if min > max then throw .einval
  let gap := stackGap max stackCur
  let defaultDir := if stackCur = infinity then MmapDirection.bottomUp else .topDown
  let maxRand := layoutMaxRand max gap
  let rnd ← mmapRand int63n maxRand
  let l := buildLayout min max gap defaultDir maxRand rnd
  if !l.valid then throw (.invalidLayout l)
  pure l

/-- `Context64.PIELoadAddress(l)`. -/
def pieLoadAddress (l : MmapLayout) (int63n : Nat → Nat) : Except ArchFailure Nat := do
  let base := preferredPIELoadAddr
  let (max, ok) := addLength base maxMmapRand64
  if !ok then throw .pieTooLarge
  let base := if max > l.maxAddr then l.topDownBase / 3 * 2 else base
  pure (wrap (base + (← mmapRand int63n maxMmapRand64)))

/-! ### Arithmetic -/

theorem roundDown_le (v : Nat) : roundDown v ≤ v := Nat.div_mul_le_self v pageSize

/-- A page boundary at or below `v` is at or below `v` rounded down. -/
theorem le_roundDown {p v : Nat} (hp : p % pageSize = 0) (h : p ≤ v) : p ≤ roundDown v := by
  simp only [roundDown, pageSize] at *
  omega

theorem wrap_of_lt {x : Nat} (h : x < 2 ^ 64) : wrap x = x := Nat.mod_eq_of_lt h

theorem sub64_of_le {a b : Nat} (ha : a < 2 ^ 64) (h : b ≤ a) : sub64 a b = a - b := by
  rw [sub64, show a + 2 ^ 64 - b = a - b + 2 ^ 64 by omega, Nat.add_mod_right, Nat.mod_eq_of_lt (by omega)]

theorem sub64_of_lt {a b : Nat} (h : a < b) : sub64 a b = a + 2 ^ 64 - b :=
  Nat.mod_eq_of_lt (by omega)

theorem le_roundUp {v : Nat} (h : (roundUp v).2 = true) : v ≤ (roundUp v).1 := by
  simpa [roundUp] using h

/-! ### The parts of the layout -/

theorem layoutMax_le (max : Nat) : layoutMax max ≤ maxAddr64 :=
  Nat.le_trans (roundDown_le _) (by split_ifs <;> omega)

theorem layoutMax_le_self (max : Nat) : layoutMax max ≤ max :=
  Nat.le_trans (roundDown_le _) (by split_ifs <;> omega)

theorem stackGap_le {max : Nat} (h : max < 2 ^ 64) (stackCur : Nat) : stackGap max stackCur ≤ max := by
  have hw : wrap (max / 6 * 5) = max / 6 * 5 := wrap_of_lt (by omega)
  unfold stackGap
  simp only [hw]
  split_ifs <;> omega

/-- The two conditions of the branch that shrinks `maxRand`: `topDownMin` lies below
`preferredTopDownBaseMin`, and `needAdjust` is at most `maxAdjust`. -/
def Shrinks (max gap : Nat) : Prop :=
  topDownMin max gap < preferredTopDownBaseMin ∧
    sub64 preferredTopDownBaseMin (topDownMin max gap) ≤ sub64 maxMmapRand64 minMmapRand64

theorem layoutMaxRand_of_shrinks {max gap : Nat} (h : Shrinks max gap) :
    layoutMaxRand max gap = maxMmapRand64 - (preferredTopDownBaseMin - topDownMin max gap) := by
  have hmax : sub64 maxMmapRand64 minMmapRand64 = maxMmapRand64 - minMmapRand64 := sub64_of_le (by decide) (by decide)
  have hneed := sub64_of_le (a := preferredTopDownBaseMin) (b := topDownMin max gap) (by decide) (Nat.le_of_lt h.1)
  obtain ⟨h1, h2⟩ := h
  rw [hmax, hneed] at h2
  simp only [layoutMaxRand, if_pos h1, hneed, hmax, if_pos h2]
  exact sub64_of_le (by decide) (by simp [maxMmapRand64, minMmapRand64, pageSize] at h2 ⊢; omega)

theorem layoutMaxRand_of_not_shrinks {max gap : Nat} (h : ¬Shrinks max gap) : layoutMaxRand max gap = maxMmapRand64 := by
  simp only [layoutMaxRand]
  split_ifs with h1 h2
  · exact absurd ⟨h1, h2⟩ h
  · rfl
  · rfl

/-- In the shrinking branch `max - gap` is at least `maxMmapRand64`, so `topDownMin` does not
wrap, and every draw below `maxRand` leaves `TopDownBase` in
`[preferredTopDownBaseMin, max - gap]`. -/
theorem shrinks_topDownBase {max gap rnd : Nat} (hmax : max ≤ maxAddr64) (hgap : gap ≤ max)
    (hs : Shrinks max gap) (hrnd : rnd < layoutMaxRand max gap) :
    preferredTopDownBaseMin ≤ roundDown (sub64 (sub64 max gap) rnd) ∧
      roundDown (sub64 (sub64 max gap) rnd) ≤ max - gap := by
  rw [layoutMaxRand_of_shrinks hs] at hrnd
  have h1 := hs.1
  simp only [topDownMin, sub64_of_le (by simp [maxAddr64, pageSize] at hmax; omega) hgap] at h1 hrnd ⊢
  by_cases hbig : maxMmapRand64 ≤ max - gap
  · rw [sub64_of_le (by simp [maxAddr64, pageSize] at hmax; omega) hbig] at h1 hrnd
    rw [sub64_of_le (by simp [maxAddr64, pageSize] at hmax; omega) (by omega)]
    exact ⟨le_roundDown (by decide) (by omega), Nat.le_trans (roundDown_le _) (by omega)⟩
  · rw [sub64_of_lt (by omega)] at h1
    simp only [preferredTopDownBaseMin, preferredTopDownAllocMin, preferredAllocationGap,
      maxMmapRand64, pageSize] at h1 hbig
    omega

/-- `maxRand` never leaves `[minMmapRand64, maxMmapRand64]`. -/
theorem layoutMaxRand_bounds (max gap : Nat) :
    minMmapRand64 ≤ layoutMaxRand max gap ∧ layoutMaxRand max gap ≤ maxMmapRand64 := by
  by_cases h : Shrinks max gap
  · have h2 := h.2
    rw [sub64_of_le (by decide) (Nat.le_of_lt h.1), sub64_of_le (by decide) (by decide)] at h2
    rw [layoutMaxRand_of_shrinks h]
    simp only [maxMmapRand64, minMmapRand64, pageSize] at h2 ⊢
    omega
  · rw [layoutMaxRand_of_not_shrinks h]
    decide

theorem mmapRand_ok (rand : Int63n) {m : Nat} (h0 : 0 < m) (h63 : m < 2 ^ 63) :
    mmapRand rand.draw m = .ok (roundDown (rand.draw m)) ∧ roundDown (rand.draw m) < m :=
  ⟨if_neg (by omega), Nat.lt_of_le_of_lt (roundDown_le _) (rand.draw_lt m h0 h63)⟩

/-- `Valid()` as the conjunction of its five comparisons. -/
theorem MmapLayout.valid_eq_true (l : MmapLayout) :
    l.valid = true ↔ l.minAddr ≤ l.maxAddr ∧ l.minAddr ≤ l.bottomUpBase ∧ l.bottomUpBase ≤ l.maxAddr ∧
      l.minAddr ≤ l.topDownBase ∧ l.topDownBase ≤ l.maxAddr := by
  unfold MmapLayout.valid
  split_ifs <;> simp <;> omega

/-- The condition under which the layout built from `min`, `max`, `gap` and the draw `rnd` is
valid: both bases lie in `[min, max]`, and `max - gap - rnd` does not wrap. -/
def DrawFits (min max gap rnd : Nat) : Prop :=
  min ≤ max ∧ min ≤ roundDown (max / 3 + rnd) ∧ roundDown (max / 3 + rnd) ≤ max ∧ rnd ≤ max - gap ∧
    min ≤ roundDown (max - gap - rnd)

instance (min max gap rnd : Nat) : Decidable (DrawFits min max gap rnd) :=
  inferInstanceAs (Decidable (_ ∧ _ ∧ _ ∧ _ ∧ _))

/-- For a `max` below `maxAddr64`, a gap within `max` and a draw below `maxMmapRand64`, the
final check passes exactly when the draw fits. -/
theorem buildLayout_valid {min max gap maxRand rnd : Nat} {dir : MmapDirection} (hmax : max ≤ maxAddr64)
    (hgap : gap ≤ max) (hrnd : rnd < maxMmapRand64) :
    (buildLayout min max gap dir maxRand rnd).valid = true ↔ DrawFits min max gap rnd := by
  simp only [maxAddr64, maxMmapRand64, pageSize] at hmax hrnd
  have hw : wrap (max / 3 + rnd) = max / 3 + rnd := wrap_of_lt (by omega)
  rw [MmapLayout.valid_eq_true, buildLayout, DrawFits, hw, sub64_of_le (by omega) hgap]
  by_cases hr : rnd ≤ max - gap
  · rw [sub64_of_le (by omega) hr]
    have := roundDown_le (max - gap - rnd)
    simp only [hr, true_and]
    omega
  · rw [sub64_of_lt (by omega)]
    simp only [roundDown, pageSize, hr, false_and, and_false, iff_false] at *
    omega

theorem buildLayout_maxStackRand (min max gap : Nat) (dir : MmapDirection) (maxRand rnd : Nat) :
    (buildLayout min max gap dir maxRand rnd).maxStackRand = maxRand := rfl

/-! ### What `NewMmapLayout` returns -/

/-- The final sanity check returns the layout only when it is valid. -/
theorem checked_ok {l l' : MmapLayout}
    (h : (if l.valid then Except.ok l else Except.error (ArchFailure.invalidLayout l)) = Except.ok l') :
    l.valid = true ∧ l = l' := by
  cases hv : l.valid <;> simp only [hv] at h
  · cases h
  · cases h
    exact ⟨rfl, rfl⟩

/-- The bounds that `NewMmapLayout` does not reject with `EINVAL`: `RoundUp(min)` does not wrap
and is at most the rounded-down `max`. -/
def Accepts (min max : Nat) : Prop := (roundUp min).2 = true ∧ (roundUp min).1 ≤ layoutMax max

instance (min max : Nat) : Decidable (Accepts min max) := inferInstanceAs (Decidable (_ ∧ _))

/-- `DrawFits` for the rounded bounds, the gap and the draw of `NewMmapLayout`. -/
def LayoutFits (min max stackCur : Nat) (rand : Int63n) : Prop :=
  DrawFits (roundUp min).1 (layoutMax max) (stackGap (layoutMax max) stackCur)
    (roundDown (rand.draw (layoutMaxRand (layoutMax max) (stackGap (layoutMax max) stackCur))))

instance (min max stackCur : Nat) (rand : Int63n) : Decidable (LayoutFits min max stackCur rand) :=
  inferInstanceAs (Decidable (DrawFits _ _ _ _))

/-- The source whose every draw is `0`. -/
def zeroDraws : Int63n := ⟨fun _ => 0, fun _ h _ => h⟩

/-- The source whose draw from `[0, n)` is `n - pageSize`, the last page boundary below `n`
when `n` is page-aligned. -/
def lastPageDraws : Int63n := ⟨fun n => n - pageSize, fun n h _ => by show n - 4096 < n; omega⟩

section Layout

variable {rand : Int63n} {min max stackCur : Nat}

/-- On accepted bounds the result is the layout built from one page-aligned draw below
`maxRand`, or the panic on it. -/
theorem newMmapLayout_accepted (hacc : Accepts min max) :
    let gap := stackGap (layoutMax max) stackCur
    let l := buildLayout (roundUp min).1 (layoutMax max) gap (if stackCur = infinity then .bottomUp else .topDown)
      (layoutMaxRand (layoutMax max) gap) (roundDown (rand.draw (layoutMaxRand (layoutMax max) gap)))
    newMmapLayout min max stackCur rand.draw = if l.valid then .ok l else .error (.invalidLayout l) := by
  obtain ⟨h1, h2⟩ := layoutMaxRand_bounds (layoutMax max) (stackGap (layoutMax max) stackCur)
  obtain ⟨hrnd, -⟩ := mmapRand_ok rand (m := layoutMaxRand (layoutMax max) (stackGap (layoutMax max) stackCur))
    (by simp [minMmapRand64, pageSize] at h1; omega) (by simp [maxMmapRand64, pageSize] at h2; omega)
  obtain ⟨hok, hle⟩ := hacc
  rcases hm : roundUp min with ⟨m, ok⟩
  rw [hm] at hok hle
  subst hok
  simp only [newMmapLayout, hm, Bool.not_true, Bool.false_eq_true, if_false, if_neg (Nat.not_lt.mpr hle),
    show mmapRand _ _ = pure _ from hrnd, pure_bind]
  split <;> split <;> simp_all <;> rfl

/-- Bounds that `RoundUp` wraps, or that cross after rounding, are rejected with `EINVAL`. -/
theorem newMmapLayout_rejected (h : ¬Accepts min max) :
    newMmapLayout min max stackCur rand.draw = .error .einval := by
  unfold Accepts at h
  rcases hm : roundUp min with ⟨m, ok⟩
  rw [hm] at h
  cases ok with
  | false => simp [newMmapLayout, hm]; rfl
  | true => simp [newMmapLayout, hm, Nat.lt_of_not_le (by simpa using h)]; rfl

/-- The draw below `maxRand`, the gap below `max` and `max` below `maxAddr64`: the side
conditions of `buildLayout_valid` for the layout `NewMmapLayout` builds. -/
theorem newMmapLayout_parts (rand : Int63n) (max stackCur : Nat) :
    roundDown (rand.draw (layoutMaxRand (layoutMax max) (stackGap (layoutMax max) stackCur))) <
        layoutMaxRand (layoutMax max) (stackGap (layoutMax max) stackCur) ∧
      layoutMaxRand (layoutMax max) (stackGap (layoutMax max) stackCur) ≤ maxMmapRand64 ∧
      stackGap (layoutMax max) stackCur ≤ layoutMax max ∧ layoutMax max ≤ maxAddr64 := by
  have hM := layoutMax_le max
  obtain ⟨h1, h2⟩ := layoutMaxRand_bounds (layoutMax max) (stackGap (layoutMax max) stackCur)
  refine ⟨(mmapRand_ok rand ?_ ?_).2, h2, stackGap_le (by simp [maxAddr64, pageSize] at hM; omega) _, hM⟩
  · simp [minMmapRand64, pageSize] at h1; omega
  · simp [maxMmapRand64, pageSize] at h2; omega

theorem checked_ne_einval (l : MmapLayout) :
    (if l.valid then Except.ok l else Except.error (ArchFailure.invalidLayout l)) ≠ Except.error .einval := by
  split <;> simp

theorem newMmapLayout_ok {l : MmapLayout} (h : newMmapLayout min max stackCur rand.draw = .ok l) :
    Accepts min max ∧ l = buildLayout (roundUp min).1 (layoutMax max) (stackGap (layoutMax max) stackCur)
        (if stackCur = infinity then .bottomUp else .topDown) (layoutMaxRand (layoutMax max) (stackGap (layoutMax max) stackCur))
        (roundDown (rand.draw (layoutMaxRand (layoutMax max) (stackGap (layoutMax max) stackCur)))) ∧
      l.valid = true := by
  by_cases hacc : Accepts min max
  · rw [newMmapLayout_accepted hacc] at h
    obtain ⟨hv, rfl⟩ := checked_ok h
    exact ⟨hacc, rfl, hv⟩
  · rw [newMmapLayout_rejected hacc] at h
    cases h

/-- What `NewMmapLayout` returns, for every pair of bounds, stack limit and source of draws:
`EINVAL` exactly on the bounds it does not accept; a layout exactly when the bounds are
accepted and the draw fits; and a returned layout lies within the bounds. -/
theorem newMmapLayout_spec (rand : Int63n) (min max stackCur : Nat) :
    (newMmapLayout min max stackCur rand.draw = .error .einval ↔ ¬Accepts min max) ∧
      ((∃ l, newMmapLayout min max stackCur rand.draw = .ok l) ↔
        Accepts min max ∧ LayoutFits min max stackCur rand) ∧
      ∀ l, newMmapLayout min max stackCur rand.draw = .ok l → min ≤ l.minAddr ∧ l.maxAddr ≤ max := by
  obtain ⟨hrnd, hmr, hgap, hM⟩ := newMmapLayout_parts rand max stackCur
  have hr := Nat.lt_of_lt_of_le hrnd hmr
  refine ⟨⟨fun h hacc => ?_, newMmapLayout_rejected⟩, ⟨?_, ?_⟩, ?_⟩
  · rw [newMmapLayout_accepted hacc] at h
    exact checked_ne_einval _ h
  · rintro ⟨l, h⟩
    obtain ⟨hacc, rfl, hv⟩ := newMmapLayout_ok h
    exact ⟨hacc, (buildLayout_valid hM hgap hr).1 hv⟩
  · rintro ⟨hacc, hfit⟩
    rw [newMmapLayout_accepted hacc]
    exact ⟨_, if_pos ((buildLayout_valid hM hgap hr).2 hfit)⟩
  · intro l h
    obtain ⟨⟨hok, -⟩, rfl, -⟩ := newMmapLayout_ok h
    exact ⟨le_roundUp hok, layoutMax_le_self max⟩

/-- On accepted bounds whose draw does not fit, `NewMmapLayout` reaches its final sanity check
and panics. -/
theorem newMmapLayout_panics_unless_fits (hacc : Accepts min max)
    (hfit : ¬LayoutFits min max stackCur rand) :
    ∃ l, l.valid = false ∧ newMmapLayout min max stackCur rand.draw = .error (.invalidLayout l) := by
  obtain ⟨hrnd, hmr, hgap, hM⟩ := newMmapLayout_parts rand max stackCur
  rw [newMmapLayout_accepted hacc]
  refine ⟨_, Bool.eq_false_iff.2 ?_, if_neg ?_⟩ <;>
    exact mt (buildLayout_valid hM hgap (Nat.lt_of_lt_of_le hrnd hmr)).1 hfit

/-- A raised `min` of `2 ^ 40` with `max = 2 ^ 40`: `BottomUpBase` is `max / 3` rounded down,
below `MinAddr`, whatever the draw. -/
theorem newMmapLayout_panics_one_tib :
    Accepts (2 ^ 40) (2 ^ 40) ∧ ¬LayoutFits (2 ^ 40) (2 ^ 40) (8 * 2 ^ 20) zeroDraws ∧
      ∃ l, l.valid = false ∧ newMmapLayout (2 ^ 40) (2 ^ 40) (8 * 2 ^ 20) zeroDraws.draw = .error (.invalidLayout l) :=
  ⟨by decide, by decide, newMmapLayout_panics_unless_fits (by decide) (by decide)⟩

/-- What the shrinking of `maxRand` promises, for `max`, `gap` and the layout `l`: in the
shrinking branch `TopDownBase` lies in `[preferredTopDownBaseMin, MaxAddr - gap]` and
`MaxStackRand` is the shrunk `maxRand`, within `[minMmapRand64, maxMmapRand64]`; otherwise
`MaxStackRand` is `maxMmapRand64`. -/
def ShrinkLaw (max gap : Nat) (l : MmapLayout) : Prop :=
  (Shrinks max gap → preferredTopDownBaseMin ≤ l.topDownBase ∧ l.topDownBase ≤ l.maxAddr - gap ∧
    l.maxStackRand = layoutMaxRand max gap ∧ minMmapRand64 ≤ l.maxStackRand ∧ l.maxStackRand ≤ maxMmapRand64) ∧
  (¬Shrinks max gap → l.maxStackRand = maxMmapRand64)

theorem maxRand_shrinkLaw {l : MmapLayout} (h : newMmapLayout min max stackCur rand.draw = .ok l) :
    ShrinkLaw (layoutMax max) (stackGap (layoutMax max) stackCur) l := by
  obtain ⟨-, rfl, -⟩ := newMmapLayout_ok h
  obtain ⟨hrnd, -, hgap, hM⟩ := newMmapLayout_parts rand max stackCur
  refine ⟨fun hs => ?_, fun hs => (buildLayout_maxStackRand ..).trans (layoutMaxRand_of_not_shrinks hs)⟩
  obtain ⟨h1, h2⟩ := shrinks_topDownBase hM hgap hs hrnd
  rw [buildLayout_maxStackRand]
  exact ⟨h1, h2, rfl, layoutMaxRand_bounds _ _⟩

/-- The whole address space below `maxAddr64` with a 400 GiB stack limit takes the shrinking
branch. -/
theorem maxRand_shrinkLaw_large_stack :
    newMmapLayout 0 (2 ^ 47) (400 * 2 ^ 30) zeroDraws.draw =
        .ok ⟨0, 140737488351232, 46912496115712, 140307991621632, .topDown, 1082331754496⟩ ∧
      Shrinks (layoutMax (2 ^ 47)) (stackGap (layoutMax (2 ^ 47)) (400 * 2 ^ 30)) ∧
      ShrinkLaw (layoutMax (2 ^ 47)) (stackGap (layoutMax (2 ^ 47)) (400 * 2 ^ 30))
        ⟨0, 140737488351232, 46912496115712, 140307991621632, .topDown, 1082331754496⟩ :=
  have h : newMmapLayout 0 (2 ^ 47) (400 * 2 ^ 30) zeroDraws.draw =
      .ok ⟨0, 140737488351232, 46912496115712, 140307991621632, .topDown, 1082331754496⟩ := rfl
  ⟨h, by unfold Shrinks; decide, maxRand_shrinkLaw h⟩

/-- In a layout from `NewMmapLayout` whose `MaxAddr` lies below two thirds of `TopDownBase`
plus `maxMmapRand64 - pageSize`, `PIELoadAddress` falls back to two thirds of `TopDownBase`,
and the last page-aligned draw puts the address at or past `MaxAddr`. -/
theorem pieLoadAddress_escapes {l : MmapLayout} (hl : newMmapLayout min max stackCur rand.draw = .ok l)
    (hnear : l.maxAddr ≤ l.topDownBase / 3 * 2 + (maxMmapRand64 - pageSize)) :
    ∃ a, pieLoadAddress l lastPageDraws.draw = .ok a ∧ l.maxAddr ≤ a := by
  obtain ⟨-, rfl, hv⟩ := newMmapLayout_ok hl
  have hM := layoutMax_le max
  rw [MmapLayout.valid_eq_true] at hv
  simp only [buildLayout] at hv hnear ⊢
  have hadd : addLength preferredPIELoadAddr maxMmapRand64 = (preferredPIELoadAddr + maxMmapRand64, true) := rfl
  have hdraw : roundDown (lastPageDraws.draw maxMmapRand64) = maxMmapRand64 - pageSize := rfl
  refine ⟨_, rfl, ?_⟩
  simp only [hadd, hdraw]
  simp only [wrap, maxAddr64, maxMmapRand64, pageSize, preferredPIELoadAddr] at hM hv hnear ⊢
  rw [if_pos (by omega)]
  omega

/-- A 1 GiB address space: `TopDownBase` two thirds down is 119 MiB, and a draw of one page
below 1 TiB lands far past `MaxAddr`. -/
theorem pieLoadAddress_escapes_small_space :
    newMmapLayout 0 (2 ^ 30) (8 * 2 ^ 20) zeroDraws.draw = .ok ⟨0, 2 ^ 30, 357912576, 178954240, .topDown, 2 ^ 40⟩ ∧
      2 ^ 30 ≤ 178954240 / 3 * 2 + (maxMmapRand64 - pageSize) ∧
      ∃ a, pieLoadAddress ⟨0, 2 ^ 30, 357912576, 178954240, .topDown, 2 ^ 40⟩ lastPageDraws.draw = .ok a ∧ 2 ^ 30 ≤ a :=
  have h : newMmapLayout 0 (2 ^ 30) (8 * 2 ^ 20) zeroDraws.draw =
      .ok ⟨0, 2 ^ 30, 357912576, 178954240, .topDown, 2 ^ 40⟩ := rfl
  ⟨h, by decide, pieLoadAddress_escapes h (by decide)⟩

end Layout

end Gvisor.Arch
