import Gvisor.Segment.Mutate

/-!
# The reclaim set: operations

The set's operations built on lookup, insertion and removal: `Add`, the merging `Insert`,
`Merge` and its loops, `Split`, `Isolate`, `RemoveRange`, `ApplyContiguous`, the span
queries, and the save/restore pair `ExportSortedSlices`/`ImportSortedSlices`.

Scope. `Length` is `uint64` subtraction, so `r.Length() <= 0` is `r.length = 0`, and the
`r.Length() < 0` cases of `IsEmptyRange` and `SpanRange` are kept though they never hold; an
ill-formed range is not empty and passes these checks, as it does in Go. `MergeAdjacent`'s
`r.End - 1` is `uint64` subtraction.
The callback of `ApplyContiguous` changes only values: it is a function of the segment's
range and value, and the loop also returns the calls it made. The loops over segments run on
the fuel `loopFuel`, which bounds the number of segments a set can hold, plus the two that
`Isolate` can add.
-/

set_option autoImplicit false

namespace Gvisor.Segment

variable {V : Type}

/-- The slices of `reclaimSegmentDataSlices`. -/
structure ReclaimSegmentDataSlices (V : Type) where
  start : List Nat
  «end» : List Nat
  values : List V

/-- The errors `ImportSortedSlices` returns. -/
inductive ImportError (V : Type)
  /-- "cannot import into non-empty set %v" -/
  | nonEmpty
  /-- "segment overlaps a preceding segment or is incorrectly sorted: [%d, %d) => %v" -/
  | overlapsPreceding (start «end» : Nat) (value : V)

namespace ReclaimSet

/-- The fuel of the loops over segments. -/
def loopFuel (s : ReclaimSet V) : Nat := maxDegree * s.fresh + 3

variable [Inhabited V] (fns : SetFunctions V)

/-! ### Insertion and merging -/

/-- What `Insert` and `MergeUnchecked` do with two adjacent segments `Merge` joins into `mval`:
`first` takes over `second`'s end and the value, `second` is removed, and the result is the
segment before the gap the removal leaves. -/
def absorbNext (s : ReclaimSet V) (first second : ReclaimIterator) (mval : V) :
    Option (ReclaimSet V × ReclaimIterator) := do
  let s ← first.setEndUnchecked s (← second.end s)
  let s ← first.setValue s mval
  let (s, gap) ← s.remove fns second
  pure (s, ← gap.prevSegment s)

/-- The end of `Insert` once `prev` has absorbed `r` with value `mval`: `prev` also absorbs
`next` when they are adjacent and `Merge` allows. -/
def insertMergeNext (s : ReclaimSet V) (prev next : ReclaimIterator) (r : FileRange) (mval : V) :
    Option (ReclaimSet V × ReclaimIterator) := do
  if next.ok then
    if (← next.start s) = r.end then
      if let some mval := fns.merge (← prev.range s) mval (← next.range s) (← next.value s) then
        return ← s.absorbNext fns prev next mval
  pure (s, prev)

/-- The end of `Insert` when `prev` did not absorb `r`: `next` absorbs it when they are
adjacent and `Merge` allows, and otherwise `r` is inserted into the gap. -/
def insertIntoNext (s : ReclaimSet V) (gap : ReclaimGapIterator) (next : ReclaimIterator) (r : FileRange)
    (val : V) : Option (ReclaimSet V × ReclaimIterator) := do
  if next.ok then
    if (← next.start s) = r.end then
      if let some mval := fns.merge r val (← next.range s) (← next.value s) then
        let s ← next.setStartUnchecked s r.start
        let s ← next.setValue s mval
        return (s, next)
  s.insertWithoutMergingUnchecked fns gap r val

/-- The merging `Insert`: merges with the predecessor, the successor, or both when `Merge`
allows, and panics if `r` is empty or overlaps either neighbour. -/
def insert (s : ReclaimSet V) (gap : ReclaimGapIterator) (r : FileRange) (val : V) :
    Option (ReclaimSet V × ReclaimIterator) := do
  if r.length = 0 then failure
  let prev ← gap.prevSegment s
  let next ← gap.nextSegment s
  if prev.ok then
    if (← prev.end s) > r.start then failure
  if next.ok then
    if (← next.start s) < r.end then failure
  if prev.ok then
    if (← prev.end s) = r.start then
      if let some mval := fns.merge (← prev.range s) (← prev.value s) r val then
        let s ← prev.setEndUnchecked s r.end
        let s ← prev.setValue s mval
        return ← s.insertMergeNext fns prev next r mval
  s.insertIntoNext fns gap next r val

/-- `Add`: `false`, and the set unchanged, if `r` overlaps a segment. -/
def add (s : ReclaimSet V) (r : FileRange) (val : V) : Option (ReclaimSet V × Bool) := do
  if r.length = 0 then failure
  let gap ← s.findGap r.start
  if !gap.ok then return (s, false)
  if r.end > (← gap.end fns s) then return (s, false)
  let (s, _) ← s.insert fns gap r val
  pure (s, true)

/-- `AddWithoutMerging`. -/
def addWithoutMerging (s : ReclaimSet V) (r : FileRange) (val : V) : Option (ReclaimSet V × Bool) := do
  if r.length = 0 then failure
  let gap ← s.findGap r.start
  if !gap.ok then return (s, false)
  if r.end > (← gap.end fns s) then return (s, false)
  let (s, _) ← s.insertWithoutMergingUnchecked fns gap r val
  pure (s, true)

/-- `MergeUnchecked`: a terminal iterator, and the set unchanged, unless the two segments are
adjacent and `Merge` succeeds. -/
def mergeUnchecked (s : ReclaimSet V) (first second : ReclaimIterator) : Option (ReclaimSet V × ReclaimIterator) := do
  if (← first.end s) = (← second.start s) then
    if let some mval := fns.merge (← first.range s) (← first.value s) (← second.range s) (← second.value s) then
      return ← s.absorbNext fns first second mval
  pure (s, ⟨none, 0⟩)

/-- `Merge`: panics unless `second` follows `first`. -/
def merge (s : ReclaimSet V) (first second : ReclaimIterator) : Option (ReclaimSet V × ReclaimIterator) := do
  if (← first.nextSegment s) ≠ second then failure
  s.mergeUnchecked fns first second

/-- The loop of `MergeAll` and `MergeRange`, while `next` is a segment whose range passes
`cont`. -/
def mergeLoop (cont : FileRange → Bool) : Nat → ReclaimSet V → ReclaimIterator → ReclaimIterator → Option (ReclaimSet V)
  | 0, _, _, _ => none
  | fuel + 1, s, seg, next => do
    if !next.ok then return s
    if !cont (← next.range s) then return s
    let (s, mseg) ← s.mergeUnchecked fns seg next
    if mseg.ok then mergeLoop cont fuel s mseg (← mseg.nextSegment s)
    else mergeLoop cont fuel s next (← next.nextSegment s)

/-- `MergeAll`. -/
def mergeAll (s : ReclaimSet V) : Option (ReclaimSet V) := do
  let seg ← s.firstSegmentOfSet
  if !seg.ok then return s
  mergeLoop fns (fun _ => true) s.loopFuel s seg (← seg.nextSegment s)

/-- `MergeRange`. -/
def mergeRange (s : ReclaimSet V) (r : FileRange) : Option (ReclaimSet V) := do
  let seg ← s.lowerBoundSegment r.start
  if !seg.ok then return s
  mergeLoop fns (·.start < r.end) s.loopFuel s seg (← seg.nextSegment s)

/-- `MergeAdjacent`. -/
def mergeAdjacent (s : ReclaimSet V) (r : FileRange) : Option (ReclaimSet V) := do
  let first ← s.findSegment r.start
  let s ← if first.ok then do
      let prev ← first.prevSegment s
      if prev.ok then pure (← s.merge fns prev first).1 else pure s
    else pure s
  let last ← s.findSegment ((r.end + 2 ^ 64 - 1) % 2 ^ 64)
  if last.ok then
    let next ← last.nextSegment s
    if next.ok then return (← s.merge fns last next).1
  pure s

/-! ### Splitting -/

/-- `SplitUnchecked`. Assumes: `split` lies strictly inside the segment. -/
def splitUnchecked (s : ReclaimSet V) (seg : ReclaimIterator) (split : Nat) :
    Option (ReclaimSet V × ReclaimIterator × ReclaimIterator) := do
  let (val1, val2) := fns.split (← seg.range s) (← seg.value s) split
  let end2 ← seg.end s
  let s ← seg.setEndUnchecked s split
  let s ← seg.setValue s val1
  let (s, seg2) ← s.insertWithoutMergingUnchecked fns (← seg.nextGap s) ⟨split, end2⟩ val2
  pure (s, ← seg2.prevSegment s, seg2)

/-- `Split`: panics unless `split` lies strictly inside the segment. -/
def split (s : ReclaimSet V) (seg : ReclaimIterator) (split : Nat) :
    Option (ReclaimSet V × ReclaimIterator × ReclaimIterator) := do
  if !(← seg.range s).canSplitAt split then failure
  s.splitUnchecked fns seg split

/-- `SplitAt`. -/
def splitAt (s : ReclaimSet V) (split : Nat) : Option (ReclaimSet V × Bool) := do
  let seg ← s.findSegment split
  if seg.ok then
    if (← seg.range s).canSplitAt split then
      return ((← s.splitUnchecked fns seg split).1, true)
  pure (s, false)

/-- `Isolate`: splits the segment at `r.Start` and `r.End` where they fall inside it. -/
def isolate (s : ReclaimSet V) (seg : ReclaimIterator) (r : FileRange) : Option (ReclaimSet V × ReclaimIterator) := do
  let (s, seg) ← if (← seg.range s).canSplitAt r.start then do
      let (s, _, seg) ← s.splitUnchecked fns seg r.start
      pure (s, seg)
    else pure (s, seg)
  if (← seg.range s).canSplitAt r.end then
    let (s, seg, _) ← s.splitUnchecked fns seg r.end
    return (s, seg)
  pure (s, seg)

/-! ### Removing and applying over a range -/

/-- The loop of `RemoveRange`. -/
def removeRangeLoop (r : FileRange) : Nat → ReclaimSet V → ReclaimGapIterator → Option (ReclaimSet V × ReclaimGapIterator)
  | 0, _, _ => none
  | fuel + 1, s, gap => do
    let seg ← gap.nextSegment s
    if seg.ok then
      if (← seg.start s) < r.end then
        let (s, seg) ← s.isolate fns seg r
        let (s, gap) ← s.remove fns seg
        return ← removeRangeLoop r fuel s gap
    pure (s, gap)

/-- `RemoveRange`. -/
def removeRange (s : ReclaimSet V) (r : FileRange) : Option (ReclaimSet V × ReclaimGapIterator) := do
  let (seg, gap) ← s.find r.start
  let (s, gap) ← if seg.ok then do
      let (s, seg) ← s.isolate fns seg r
      s.remove fns seg
    else pure (s, gap)
  removeRangeLoop fns r s.loopFuel s gap

/-- The loop of `ApplyContiguous`, with the calls made so far. -/
def applyContiguousLoop (r : FileRange) (fn : FileRange → V → V) :
    Nat → ReclaimSet V → ReclaimIterator → List (FileRange × V) →
      Option (ReclaimSet V × ReclaimGapIterator × List (FileRange × V))
  | 0, _, _, _ => none
  | fuel + 1, s, seg, calls => do
    let (s, seg) ← s.isolate fns seg r
    let range ← seg.range s
    let val ← seg.value s
    let s ← seg.setValue s (fn range val)
    let calls := calls ++ [(range, val)]
    if (← seg.end s) ≥ r.end then return (s, ⟨none, 0⟩, calls)
    let gap ← seg.nextGap s
    if !(← gap.isEmpty fns s) then return (s, gap, calls)
    let seg ← gap.nextSegment s
    if !seg.ok then return (s, ⟨none, 0⟩, calls)
    applyContiguousLoop r fn fuel s seg calls

/-- `ApplyContiguous`, with the calls of `fn`, in order, as the ranges and values it was given. -/
def applyContiguous (s : ReclaimSet V) (r : FileRange) (fn : FileRange → V → V) :
    Option (ReclaimSet V × ReclaimGapIterator × List (FileRange × V)) := do
  let (seg, gap) ← s.find r.start
  if !seg.ok then return (s, gap, [])
  applyContiguousLoop fns r fn s.loopFuel s seg []

/-! ### Spans -/

/-- `IsEmptyRange`. -/
def isEmptyRange (s : ReclaimSet V) (r : FileRange) : Option Bool := do
  if r.length < 0 then failure
  if r.length = 0 then return true
  let (_, gap) ← s.find r.start
  if !gap.ok then return false
  pure (r.end ≤ (← gap.end fns s))

/-- The loops of `Span` and `SpanRange`: the `uint64` sum of `measure` over the segments
whose start passes `cont`. -/
def spanLoop (cont : Nat → Bool) (measure : FileRange → Nat) : Nat → ReclaimSet V → ReclaimIterator → Nat → Option Nat
  | 0, _, _, _ => none
  | fuel + 1, s, seg, sz => do
    if !seg.ok then return sz
    if !cont (← seg.start s) then return sz
    spanLoop cont measure fuel s (← seg.nextSegment s) ((sz + measure (← seg.range s)) % 2 ^ 64)

/-- `Span`. -/
def span (s : ReclaimSet V) : Option Nat := do
  spanLoop (fun _ => true) FileRange.length s.loopFuel s (← s.firstSegmentOfSet) 0

/-- `SpanRange`. -/
def spanRange (s : ReclaimSet V) (r : FileRange) : Option Nat := do
  if r.length < 0 then failure
  if r.length = 0 then return 0
  spanLoop (· < r.end) (fun k => (k.intersect r).length) s.loopFuel s (← s.lowerBoundSegment r.start) 0

/-! ### Save and restore -/

/-- The loop of `ExportSortedSlices`. -/
def exportLoop : Nat → ReclaimSet V → ReclaimIterator → ReclaimSegmentDataSlices V → Option (ReclaimSegmentDataSlices V)
  | 0, _, _, _ => none
  | fuel + 1, s, seg, sds => do
    if !seg.ok then return sds
    exportLoop fuel s (← seg.nextSegment s)
      ⟨sds.start ++ [← seg.start s], sds.end ++ [← seg.end s], sds.values ++ [← seg.value s]⟩

/-- `ExportSortedSlices`. -/
def exportSortedSlices (s : ReclaimSet V) : Option (ReclaimSegmentDataSlices V) := do
  exportLoop s.loopFuel s (← s.firstSegmentOfSet) ⟨[], [], []⟩

/-- The loop of `ImportSortedSlices` over `Start`, indexing `End` and `Values` alike. -/
def importLoop : ReclaimSet V → ReclaimGapIterator → List Nat → List Nat → List V →
    Option (ReclaimSet V × Except (ImportError V) Unit)
  | s, _, [], _, _ => pure (s, .ok ())
  | s, gap, start :: starts, ends, values => do
    let e ← ends.head?
    let v ← values.head?
    if !(← gap.range fns s).isSupersetOf ⟨start, e⟩ then return (s, .error (.overlapsPreceding start e v))
    let (s, seg) ← s.insertWithoutMerging fns gap ⟨start, e⟩ v
    importLoop s (← seg.nextGap s) starts ends.tail values.tail

/-- `ImportSortedSlices`. -/
def importSortedSlices (s : ReclaimSet V) (sds : ReclaimSegmentDataSlices V) :
    Option (ReclaimSet V × Except (ImportError V) Unit) := do
  if !s.isEmpty then return (s, .error .nonEmpty)
  importLoop fns s (← s.firstGap) sds.start sds.end sds.values

end ReclaimSet

end Gvisor.Segment
