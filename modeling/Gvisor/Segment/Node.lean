import Mathlib.Algebra.Group.Nat.Basic
import Mathlib.Data.Nat.Defs
import Mathlib.Logic.Function.Basic

/-!
# The reclaim set: nodes, iterators and lookups

`reclaimSet` (sentry/pgalloc/reclaim_set.go) is gVisor's segment set instantiated for the
page allocator: a B-tree of non-overlapping `FileRange` keys with values. A node holds up to
`maxDegree - 1` segments, an internal node one child more than segments, and every node
links to its parent. This module translates the set's types and its read-only code: the
descents and climbs of node navigation, the iterator steps, and `Find` with the lookups
built on it.

Scope. Nodes live in a heap of addresses: the root, `s.root`, is at address 0, and a node
made by `&reclaimnode{...}` is allocated at `fresh`. The fixed-size arrays `keys`, `values`
and `children` are functions on indices; a nil pointer is `none`, and dereferencing one is a
panic, `none` as well. The loops that follow pointers run on fuel, `fresh`, which bounds the
depth of every tree held in the heap; the binary search of `Find` is recursion on the width
of its interval. `trackGaps` is 0, so every `maxGap` update is dead code and left out, as
are the `LargeEnoughGap` searches, which panic without it. The template prefix `reclaim` is
dropped from function names. `FileRange` and `reclaimSetFunctions` are not part of the source.
-/

set_option autoImplicit false

namespace Gvisor.Segment

/-- Modelled from the spec: `memmap.FileRange`, the range `[Start, End)` of `uint64` bounds,
with the methods of gVisor's range template. The methods are stated for well-formed ranges,
`Start ≤ End`, but the set does not check that: an ill-formed range reaches them as it is. -/
structure FileRange where
  start : Nat
  «end» : Nat
deriving DecidableEq, Repr

namespace FileRange

def wellFormed (r : FileRange) : Bool := r.start ≤ r.end

/-- `Length`, the `uint64` subtraction `End - Start`: for bounds below `2 ^ 64` it wraps to
`End + 2 ^ 64 - Start` when `Start > End`, so it is zero only when `Start = End`. -/
def length (r : FileRange) : Nat := if r.start ≤ r.end then r.end - r.start else r.end + 2 ^ 64 - r.start

theorem length_of_le {r : FileRange} (h : r.start ≤ r.end) : r.length = r.end - r.start := if_pos h

/-- `Length() <= 0` holds only of a range that is empty or ill-formed, and of a well-formed one
exactly when it is empty. -/
theorem end_le_of_length_eq_zero {r : FileRange} (h : r.length = 0) : r.end ≤ r.start := by
  unfold length at h; split at h <;> omega

theorem length_eq_zero_iff {r : FileRange} (h : r.start ≤ r.end) : r.length = 0 ↔ r.end ≤ r.start := by
  rw [length_of_le h]; omega

def contains (r : FileRange) (x : Nat) : Bool := r.start ≤ x && x < r.end

def canSplitAt (r : FileRange) (x : Nat) : Bool := r.contains x && r.start < x

def isSupersetOf (r r2 : FileRange) : Bool := r.start ≤ r2.start && r2.end ≤ r.end

def intersect (r r2 : FileRange) : FileRange :=
  let start := if r.start < r2.start then r2.start else r.start
  let e := if r.end > r2.end then r2.end else r.end
  ⟨start, if e < start then start else e⟩

end FileRange

/-- Modelled from the spec: `reclaimSetFunctions`, which is not part of the source: the key
bounds, `ClearValue`, and the value functions `Merge` and `Split`, taken as arbitrary. -/
structure SetFunctions (V : Type) where
  minKey : Nat
  maxKey : Nat
  clearValue : V → V
  merge : FileRange → V → FileRange → V → Option V
  split : FileRange → V → Nat → V × V

def minDegree : Nat := 10

def maxDegree : Nat := 2 * minDegree

/-- A `reclaimnode`. -/
structure ReclaimNode (V : Type) where
  nrSegments : Nat
  parent : Option Nat
  parentIndex : Nat
  hasChildren : Bool
  keys : Nat → FileRange
  values : Nat → V
  children : Nat → Option Nat

/-- `reclaimnode{}`. -/
def ReclaimNode.zero {V : Type} [Inhabited V] : ReclaimNode V :=
  ⟨0, none, 0, false, fun _ => ⟨0, 0⟩, fun _ => default, fun _ => none⟩

/-- A `reclaimSet`: its nodes by address, the root at 0, and the next free address. -/
structure ReclaimSet (V : Type) where
  nodes : Nat → ReclaimNode V
  fresh : Nat

/-- The zero `reclaimSet`, an empty set. -/
def ReclaimSet.empty {V : Type} [Inhabited V] : ReclaimSet V := ⟨fun _ => .zero, 1⟩

/-- A `reclaimIterator`; `⟨none, 0⟩` is the terminal iterator. -/
structure ReclaimIterator where
  node : Option Nat
  index : Nat
deriving DecidableEq, Repr

/-- A `reclaimGapIterator`; `⟨none, 0⟩` is the terminal iterator. -/
structure ReclaimGapIterator where
  node : Option Nat
  index : Nat
deriving DecidableEq, Repr

def ReclaimIterator.ok (seg : ReclaimIterator) : Bool := seg.node.isSome

def ReclaimGapIterator.ok (gap : ReclaimGapIterator) : Bool := gap.node.isSome

/-- Go's `copy(dst[dlo:dhi], src[slo:shi])` on arrays read as functions: it copies as many
elements as the shorter slice holds, reading `src` as it was before the copy. -/
def copySlice {α : Type} (dst : Nat → α) (dlo dhi : Nat) (src : Nat → α) (slo shi : Nat) : Nat → α :=
  fun i => if dlo ≤ i ∧ i < dlo + min (dhi - dlo) (shi - slo) then src (slo + (i - dlo)) else dst i

namespace ReclaimSet

variable {V : Type}

/-! ### The heap -/

/-- Writes the node at `a`. -/
def modify (s : ReclaimSet V) (a : Nat) (f : ReclaimNode V → ReclaimNode V) : ReclaimSet V :=
  { s with nodes := Function.update s.nodes a (f (s.nodes a)) }

/-- `&reclaimnode{...}`: the node `n` at a new address. -/
def alloc (s : ReclaimSet V) (n : ReclaimNode V) : ReclaimSet V × Nat :=
  ({ nodes := Function.update s.nodes s.fresh n, fresh := s.fresh + 1 }, s.fresh)

/-- `p.children[i].parent = p; p.children[i].parentIndex = i`. -/
def adopt (s : ReclaimSet V) (p i : Nat) : Option (ReclaimSet V) :=
  ((s.nodes p).children i).map fun c => s.modify c fun m => { m with parent := some p, parentIndex := i }

/-- `p.children[i].parentIndex = i`. -/
def renumber (s : ReclaimSet V) (p i : Nat) : Option (ReclaimSet V) :=
  ((s.nodes p).children i).map fun c => s.modify c fun m => { m with parentIndex := i }

/-- `for i := lo; i < hi; i++ { p.children[i].parent = p; p.children[i].parentIndex = i }`. -/
def adoptChildren (s : ReclaimSet V) (p lo hi : Nat) : Option (ReclaimSet V) :=
  (List.range' lo (hi - lo)).foldlM (fun s i => s.adopt p i) s

/-- `for i := lo; i < hi; i++ { p.children[i].parentIndex = i }`. -/
def renumberChildren (s : ReclaimSet V) (p lo hi : Nat) : Option (ReclaimSet V) :=
  (List.range' lo (hi - lo)).foldlM (fun s i => s.renumber p i) s

/-! ### Node navigation -/

/-- The loop `for n.hasChildren { n = n.children[0] }`: the node it stops at. -/
def descendFirst (s : ReclaimSet V) : Nat → Nat → Option Nat
  | 0, _ => none
  | fuel + 1, a =>
    if (s.nodes a).hasChildren then (s.nodes a).children 0 >>= s.descendFirst fuel else some a

/-- The loop `for n.hasChildren { n = n.children[n.nrSegments] }`: the node it stops at. -/
def descendLast (s : ReclaimSet V) : Nat → Nat → Option Nat
  | 0, _ => none
  | fuel + 1, a =>
    if (s.nodes a).hasChildren then (s.nodes a).children (s.nodes a).nrSegments >>= s.descendLast fuel
    else some a

/-- `n.firstSegment()`. -/
def firstSegment (s : ReclaimSet V) (a : Nat) : Option ReclaimIterator :=
  (s.descendFirst s.fresh a).map fun l => ⟨some l, 0⟩

/-- `n.lastSegment()`. -/
def lastSegment (s : ReclaimSet V) (a : Nat) : Option ReclaimIterator :=
  (s.descendLast s.fresh a).map fun l => ⟨some l, (s.nodes l).nrSegments - 1⟩

/-- `n.prevSibling()`; `none` is nil. -/
def prevSibling (s : ReclaimSet V) (a : Nat) : Option Nat :=
  match (s.nodes a).parent with
  | none => none
  | some p => if (s.nodes a).parentIndex = 0 then none else (s.nodes p).children ((s.nodes a).parentIndex - 1)

/-- `n.nextSibling()`; `none` is nil. -/
def nextSibling (s : ReclaimSet V) (a : Nat) : Option Nat :=
  match (s.nodes a).parent with
  | none => none
  | some p =>
    if (s.nodes a).parentIndex = (s.nodes p).nrSegments then none
    else (s.nodes p).children ((s.nodes a).parentIndex + 1)

/-- The loop of `segmentBeforePosition`, climbing while the position is a node's first. -/
def segmentBeforePositionLoop (s : ReclaimSet V) : Nat → Nat → Nat → Option ReclaimIterator
  | 0, _, _ => none
  | fuel + 1, a, i =>
    if i = 0 then
      match (s.nodes a).parent with
      | none => some ⟨none, 0⟩
      | some p => s.segmentBeforePositionLoop fuel p (s.nodes a).parentIndex
    else some ⟨some a, i - 1⟩

/-- The loop of `segmentAfterPosition`, climbing while the position is a node's last. -/
def segmentAfterPositionLoop (s : ReclaimSet V) : Nat → Nat → Nat → Option ReclaimIterator
  | 0, _, _ => none
  | fuel + 1, a, i =>
    if i = (s.nodes a).nrSegments then
      match (s.nodes a).parent with
      | none => some ⟨none, 0⟩
      | some p => s.segmentAfterPositionLoop fuel p (s.nodes a).parentIndex
    else some ⟨some a, i⟩

/-- `segmentBeforePosition(n, i)`. -/
def segmentBeforePosition (s : ReclaimSet V) (a i : Nat) : Option ReclaimIterator :=
  s.segmentBeforePositionLoop s.fresh a i

/-- `segmentAfterPosition(n, i)`. -/
def segmentAfterPosition (s : ReclaimSet V) (a i : Nat) : Option ReclaimIterator :=
  s.segmentAfterPositionLoop s.fresh a i

end ReclaimSet

/-! ### Iterators -/

namespace ReclaimIterator

variable {V : Type}

def range (seg : ReclaimIterator) (s : ReclaimSet V) : Option FileRange :=
  seg.node.map fun a => (s.nodes a).keys seg.index

def start (seg : ReclaimIterator) (s : ReclaimSet V) : Option Nat := (seg.range s).map (·.start)

def «end» (seg : ReclaimIterator) (s : ReclaimSet V) : Option Nat := (seg.range s).map (·.end)

def value (seg : ReclaimIterator) (s : ReclaimSet V) : Option V :=
  seg.node.map fun a => (s.nodes a).values seg.index

def prevSegment (seg : ReclaimIterator) (s : ReclaimSet V) : Option ReclaimIterator := do
  let a ← seg.node
  let n := s.nodes a
  if n.hasChildren then n.children seg.index >>= s.lastSegment
  else if seg.index > 0 then pure ⟨some a, seg.index - 1⟩
  else match n.parent with
    | none => pure ⟨none, 0⟩
    | some p => s.segmentBeforePosition p n.parentIndex

def nextSegment (seg : ReclaimIterator) (s : ReclaimSet V) : Option ReclaimIterator := do
  let a ← seg.node
  let n := s.nodes a
  if n.hasChildren then n.children (seg.index + 1) >>= s.firstSegment
  else if seg.index < n.nrSegments - 1 then pure ⟨some a, seg.index + 1⟩
  else match n.parent with
    | none => pure ⟨none, 0⟩
    | some p => s.segmentAfterPosition p n.parentIndex

/-- `PrevGap`. On an internal node it is `NextGap` of `lastSegment` of a child, which stops at
a node without children, where `NextGap` is the gap after the segment. -/
def prevGap (seg : ReclaimIterator) (s : ReclaimSet V) : Option ReclaimGapIterator := do
  let a ← seg.node
  let n := s.nodes a
  if n.hasChildren then
    let last ← n.children seg.index >>= s.lastSegment
    pure ⟨last.node, last.index + 1⟩
  else pure ⟨some a, seg.index⟩

/-- `NextGap`. On an internal node it is `PrevGap` of `firstSegment` of a child, which stops at
a node without children, where `PrevGap` is the gap before the segment. -/
def nextGap (seg : ReclaimIterator) (s : ReclaimSet V) : Option ReclaimGapIterator := do
  let a ← seg.node
  let n := s.nodes a
  if n.hasChildren then
    let first ← n.children (seg.index + 1) >>= s.firstSegment
    pure ⟨first.node, first.index⟩
  else pure ⟨some a, seg.index + 1⟩

end ReclaimIterator

namespace ReclaimGapIterator

variable {V : Type}

def prevSegment (gap : ReclaimGapIterator) (s : ReclaimSet V) : Option ReclaimIterator :=
  gap.node >>= fun a => s.segmentBeforePosition a gap.index

def nextSegment (gap : ReclaimGapIterator) (s : ReclaimSet V) : Option ReclaimIterator :=
  gap.node >>= fun a => s.segmentAfterPosition a gap.index

def start (gap : ReclaimGapIterator) (fns : SetFunctions V) (s : ReclaimSet V) : Option Nat := do
  let ps ← gap.prevSegment s
  if ps.ok then ps.end s else pure fns.minKey

def «end» (gap : ReclaimGapIterator) (fns : SetFunctions V) (s : ReclaimSet V) : Option Nat := do
  let ns ← gap.nextSegment s
  if ns.ok then ns.start s else pure fns.maxKey

def range (gap : ReclaimGapIterator) (fns : SetFunctions V) (s : ReclaimSet V) : Option FileRange := do
  pure ⟨← gap.start fns s, ← gap.end fns s⟩

def isEmpty (gap : ReclaimGapIterator) (fns : SetFunctions V) (s : ReclaimSet V) : Option Bool :=
  (gap.range fns s).map (·.length = 0)

def prevGap (gap : ReclaimGapIterator) (s : ReclaimSet V) : Option ReclaimGapIterator := do
  let seg ← gap.prevSegment s
  if seg.ok then seg.prevGap s else pure ⟨none, 0⟩

def nextGap (gap : ReclaimGapIterator) (s : ReclaimSet V) : Option ReclaimGapIterator := do
  let seg ← gap.nextSegment s
  if seg.ok then seg.nextGap s else pure ⟨none, 0⟩

end ReclaimGapIterator

/-! ### Lookups -/

namespace ReclaimSet

variable {V : Type}

def isEmpty (s : ReclaimSet V) : Bool := (s.nodes 0).nrSegments = 0

/-- `FirstSegment`. -/
def firstSegmentOfSet (s : ReclaimSet V) : Option ReclaimIterator :=
  if (s.nodes 0).nrSegments = 0 then some ⟨none, 0⟩ else s.firstSegment 0

/-- `LastSegment`. -/
def lastSegmentOfSet (s : ReclaimSet V) : Option ReclaimIterator :=
  if (s.nodes 0).nrSegments = 0 then some ⟨none, 0⟩ else s.lastSegment 0

def firstGap (s : ReclaimSet V) : Option ReclaimGapIterator :=
  (s.descendFirst s.fresh 0).map fun l => ⟨some l, 0⟩

def lastGap (s : ReclaimSet V) : Option ReclaimGapIterator :=
  (s.descendLast s.fresh 0).map fun l => ⟨some l, (s.nodes l).nrSegments⟩

/-- The binary search of `Find` in one node: `.inl i` if segment `i` contains `key`, else
`.inr i` for the index `lower` it ends at. -/
def searchNode (n : ReclaimNode V) (key lower upper : Nat) : Nat ⊕ Nat :=
  if h : lower < upper then
    let i := lower + (upper - lower) / 2
    if key < (n.keys i).end then
      if key ≥ (n.keys i).start then .inl i else searchNode n key lower i
    else searchNode n key (i + 1) upper
  else .inr lower
termination_by upper - lower
decreasing_by all_goals omega

/-- The loop of `Find`, descending from node `a`. -/
def findLoop (s : ReclaimSet V) (key : Nat) : Nat → Nat → Option (ReclaimIterator × ReclaimGapIterator)
  | 0, _ => none
  | fuel + 1, a =>
    match searchNode (s.nodes a) key 0 (s.nodes a).nrSegments with
    | .inl i => some (⟨some a, i⟩, ⟨none, 0⟩)
    | .inr i =>
      if (s.nodes a).hasChildren then (s.nodes a).children i >>= s.findLoop key fuel
      else some (⟨none, 0⟩, ⟨some a, i⟩)

def find (s : ReclaimSet V) (key : Nat) : Option (ReclaimIterator × ReclaimGapIterator) :=
  s.findLoop key s.fresh 0

def findSegment (s : ReclaimSet V) (key : Nat) : Option ReclaimIterator := (s.find key).map (·.1)

def findGap (s : ReclaimSet V) (key : Nat) : Option ReclaimGapIterator := (s.find key).map (·.2)

def lowerBoundSegment (s : ReclaimSet V) (min : Nat) : Option ReclaimIterator := do
  let (seg, gap) ← s.find min
  if seg.ok then pure seg else gap.nextSegment s

def upperBoundSegment (s : ReclaimSet V) (max : Nat) : Option ReclaimIterator := do
  let (seg, gap) ← s.find max
  if seg.ok then pure seg else gap.prevSegment s

def lowerBoundGap (s : ReclaimSet V) (min : Nat) : Option ReclaimGapIterator := do
  let (seg, gap) ← s.find min
  if gap.ok then pure gap else seg.nextGap s

def upperBoundGap (s : ReclaimSet V) (max : Nat) : Option ReclaimGapIterator := do
  let (seg, gap) ← s.find max
  if gap.ok then pure gap else seg.prevGap s

end ReclaimSet

end Gvisor.Segment
