import Gvisor.Segment.Node

/-!
# The reclaim set: rebalancing, insertion and removal

The code that changes the tree: the setters of `reclaimIterator`, `rebalanceBeforeInsert`
with its two splits, `InsertWithoutMergingUnchecked` and `InsertWithoutMerging`,
`rebalanceAfterRemove` with its four cases, `Remove` and `RemoveAll`.

Scope. A node made by `&reclaimnode{...}` is filled before it is allocated: nothing else
points to it until then, so its `copy`s may run first. Consecutive writes to one node are
one `modify`. `rebalanceBeforeInsert`'s recursion to the parent, and the loop of
`rebalanceAfterRemove`, run on the fuel `fresh`. The recursive call of `Remove` always takes
the branch for a node without children, since its victim comes from `lastSegment`, which
stops at one; it is that branch, `removeLeaf`, here.
-/

set_option autoImplicit false

namespace Gvisor.Segment

variable {V : Type}

/-- `&reclaimnode{nrSegments: nr, parent: p, parentIndex: i, hasChildren: h}`. -/
def ReclaimNode.new [Inhabited V] (nr p i : Nat) (h : Bool) : ReclaimNode V :=
  { ReclaimNode.zero with nrSegments := nr, parent := some p, parentIndex := i, hasChildren := h }

/-- `ClearValue(&values[i])`. -/
def clearAt (fns : SetFunctions V) (values : Nat → V) (i : Nat) : Nat → V :=
  Function.update values i (fns.clearValue (values i))

/-- `zeroValueSlice(values[lo:hi])`. -/
def clearSlice (fns : SetFunctions V) (values : Nat → V) (lo hi : Nat) : Nat → V :=
  fun i => if lo ≤ i ∧ i < hi then fns.clearValue (values i) else values i

/-- `zeroNodeSlice(children[lo:hi])`. -/
def nilSlice (children : Nat → Option Nat) (lo hi : Nat) : Nat → Option Nat :=
  fun i => if lo ≤ i ∧ i < hi then none else children i

/-! ### Setters -/

namespace ReclaimIterator

/-- Writes the key of the iterated segment. -/
def updateKey (seg : ReclaimIterator) (s : ReclaimSet V) (f : FileRange → FileRange) : Option (ReclaimSet V) :=
  seg.node.map fun a => s.modify a fun m => { m with keys := Function.update m.keys seg.index (f (m.keys seg.index)) }

def setRangeUnchecked (seg : ReclaimIterator) (s : ReclaimSet V) (r : FileRange) : Option (ReclaimSet V) :=
  seg.updateKey s fun _ => r

def setStartUnchecked (seg : ReclaimIterator) (s : ReclaimSet V) (start : Nat) : Option (ReclaimSet V) :=
  seg.updateKey s fun k => { k with start := start }

def setEndUnchecked (seg : ReclaimIterator) (s : ReclaimSet V) (e : Nat) : Option (ReclaimSet V) :=
  seg.updateKey s fun k => { k with «end» := e }

def setValue (seg : ReclaimIterator) (s : ReclaimSet V) (val : V) : Option (ReclaimSet V) :=
  seg.node.map fun a => s.modify a fun m => { m with values := Function.update m.values seg.index val }

end ReclaimIterator

namespace ReclaimSet

variable [Inhabited V] (fns : SetFunctions V)

/-! ### Splitting before an insertion -/

/-- The loop of the root split: `for i := 0; i < minDegree; i++`, adopting `left.children[i]`
and `right.children[i]`. -/
def adoptPairs (s : ReclaimSet V) (l r : Nat) : Option (ReclaimSet V) :=
  (List.range minDegree).foldlM (fun s i => s.adopt l i >>= fun s => s.adopt r i) s

/-- The root case of `rebalanceBeforeInsert`: the full root keeps its middle segment and gets
two new children with the segments, and children, before and after it. -/
def splitRoot (s : ReclaimSet V) (a : Nat) (gap : ReclaimGapIterator) : Option (ReclaimSet V × ReclaimGapIterator) := do
  let n := s.nodes a
  let left : ReclaimNode V := ReclaimNode.new (minDegree - 1) a 0 n.hasChildren
  let right : ReclaimNode V := ReclaimNode.new (minDegree - 1) a 1 n.hasChildren
  let left := { left with
    keys := copySlice left.keys 0 (minDegree - 1) n.keys 0 (minDegree - 1)
    values := copySlice left.values 0 (minDegree - 1) n.values 0 (minDegree - 1)
    children := if n.hasChildren then copySlice left.children 0 minDegree n.children 0 minDegree else left.children }
  let right := { right with
    keys := copySlice right.keys 0 (minDegree - 1) n.keys minDegree (maxDegree - 1)
    values := copySlice right.values 0 (minDegree - 1) n.values minDegree (maxDegree - 1)
    children := if n.hasChildren then copySlice right.children 0 minDegree n.children minDegree maxDegree
      else right.children }
  let (s, l) := s.alloc left
  let (s, r) := s.alloc right
  let s := s.modify a fun m => { m with
    keys := Function.update m.keys 0 (m.keys (minDegree - 1))
    values := clearSlice fns (Function.update m.values 0 (m.values (minDegree - 1))) 1 (maxDegree - 1) }
  let s ← if n.hasChildren then (s.modify a fun m => { m with children := nilSlice m.children 2 maxDegree }).adoptPairs l r
    else pure s
  let s := s.modify a fun m => { m with
    nrSegments := 1, hasChildren := true
    children := Function.update (Function.update m.children 0 (some l)) 1 (some r) }
  pure (s, if gap.node ≠ some a then gap
    else if gap.index < minDegree then ⟨some l, gap.index⟩ else ⟨some r, gap.index - minDegree⟩)

/-- The non-root case of `rebalanceBeforeInsert`: the full node `a` moves its middle segment
into its parent `p`, and its upper half into a new sibling after it. -/
def splitNonRoot (s : ReclaimSet V) (a p : Nat) (gap : ReclaimGapIterator) :
    Option (ReclaimSet V × ReclaimGapIterator) := do
  let n := s.nodes a
  let pi := n.parentIndex
  let s := s.modify p fun m => { m with
    keys := Function.update (copySlice m.keys (pi + 1) (maxDegree - 1) m.keys pi m.nrSegments) pi (n.keys (minDegree - 1))
    values := Function.update (copySlice m.values (pi + 1) (maxDegree - 1) m.values pi m.nrSegments) pi
      (n.values (minDegree - 1))
    children := copySlice m.children (pi + 2) maxDegree m.children (pi + 1) (m.nrSegments + 1) }
  let s ← s.renumberChildren p (pi + 2) ((s.nodes p).nrSegments + 2)
  let sibling : ReclaimNode V := ReclaimNode.new (minDegree - 1) p (pi + 1) n.hasChildren
  let sibling := { sibling with
    keys := copySlice sibling.keys 0 (minDegree - 1) n.keys minDegree (maxDegree - 1)
    values := copySlice sibling.values 0 (minDegree - 1) n.values minDegree (maxDegree - 1)
    children := if n.hasChildren then copySlice sibling.children 0 minDegree n.children minDegree maxDegree
      else sibling.children }
  let (s, sib) := s.alloc sibling
  let s := s.modify p fun m => { m with
    children := Function.update m.children (pi + 1) (some sib), nrSegments := m.nrSegments + 1 }
  let s := s.modify a fun m => { m with values := clearSlice fns m.values (minDegree - 1) (maxDegree - 1) }
  let s ← if n.hasChildren then
      (s.modify a fun m => { m with children := nilSlice m.children minDegree maxDegree }).adoptChildren sib 0 minDegree
    else pure s
  let s := s.modify a fun m => { m with nrSegments := minDegree - 1 }
  pure (s, if gap.node ≠ some a then gap
    else if gap.index < minDegree then gap else ⟨some sib, gap.index - minDegree⟩)

/-- `n.rebalanceBeforeInsert(gap)`: splits `n` and its full ancestors, the highest first. -/
def rebalanceBeforeInsert : Nat → ReclaimSet V → Nat → ReclaimGapIterator → Option (ReclaimSet V × ReclaimGapIterator)
  | 0, _, _, _ => none
  | fuel + 1, s, a, gap =>
    if (s.nodes a).nrSegments < maxDegree - 1 then some (s, gap) else do
    let (s, gap) ← match (s.nodes a).parent with
      | some p => rebalanceBeforeInsert fuel s p gap
      | none => pure (s, gap)
    match (s.nodes a).parent with
    | none => s.splitRoot fns a gap
    | some p => s.splitNonRoot fns a p gap

/-- `InsertWithoutMergingUnchecked`. Assumes: `r` lies within the gap. -/
def insertWithoutMergingUnchecked (s : ReclaimSet V) (gap : ReclaimGapIterator) (r : FileRange) (val : V) :
    Option (ReclaimSet V × ReclaimIterator) := do
  let a ← gap.node
  let (s, gap) ← rebalanceBeforeInsert fns s.fresh s a gap
  let a ← gap.node
  let s := s.modify a fun m => { m with
    keys := Function.update (copySlice m.keys (gap.index + 1) (maxDegree - 1) m.keys gap.index m.nrSegments) gap.index r
    values := Function.update (copySlice m.values (gap.index + 1) (maxDegree - 1) m.values gap.index m.nrSegments)
      gap.index val
    nrSegments := m.nrSegments + 1 }
  pure (s, ⟨some a, gap.index⟩)

/-- `InsertWithoutMerging`: panics unless `r` is non-empty and lies within the gap. -/
def insertWithoutMerging (s : ReclaimSet V) (gap : ReclaimGapIterator) (r : FileRange) (val : V) :
    Option (ReclaimSet V × ReclaimIterator) := do
  if r.length = 0 then failure
  let gr ← gap.range fns s
  if !gr.isSupersetOf r then failure
  s.insertWithoutMergingUnchecked fns gap r val

/-! ### Rebalancing after a removal -/

/-- The first case of `rebalanceAfterRemove`: the short node `a` takes the separator before
it from its parent `p`, and the parent takes the last segment (and child) of the previous
sibling `sib`. -/
def borrowFromPrev (s : ReclaimSet V) (a sib p : Nat) (gap : ReclaimGapIterator) :
    Option (ReclaimSet V × ReclaimGapIterator) := do
  let n := s.nodes a
  let pi := n.parentIndex
  let sn := s.nodes sib
  let pn := s.nodes p
  let s := s.modify a fun m => { m with
    keys := Function.update (copySlice m.keys 1 (maxDegree - 1) m.keys 0 m.nrSegments) 0 (pn.keys (pi - 1))
    values := Function.update (copySlice m.values 1 (maxDegree - 1) m.values 0 m.nrSegments) 0 (pn.values (pi - 1)) }
  let s := s.modify p fun m => { m with
    keys := Function.update m.keys (pi - 1) (sn.keys (sn.nrSegments - 1))
    values := Function.update m.values (pi - 1) (sn.values (sn.nrSegments - 1)) }
  let s := s.modify sib fun m => { m with values := clearAt fns m.values (m.nrSegments - 1) }
  let s ← if n.hasChildren then do
      let s := s.modify a fun m => { m with
        children := Function.update (copySlice m.children 1 maxDegree m.children 0 (m.nrSegments + 1)) 0
          (sn.children sn.nrSegments) }
      let s := s.modify sib fun m => { m with children := Function.update m.children m.nrSegments none }
      let s ← s.adopt a 0
      s.renumberChildren a 1 ((s.nodes a).nrSegments + 2)
    else pure s
  let s := s.modify a fun m => { m with nrSegments := m.nrSegments + 1 }
  let s := s.modify sib fun m => { m with nrSegments := m.nrSegments - 1 }
  pure (s, if gap.node = some sib ∧ gap.index = (s.nodes sib).nrSegments then ⟨some a, 0⟩
    else if gap.node = some a then ⟨some a, gap.index + 1⟩ else gap)

/-- The second case of `rebalanceAfterRemove`: the short node `a` takes the separator after
it from its parent `p`, and the parent takes the first segment (and child) of the next
sibling `sib`. -/
def borrowFromNext (s : ReclaimSet V) (a sib p : Nat) (gap : ReclaimGapIterator) :
    Option (ReclaimSet V × ReclaimGapIterator) := do
  let n := s.nodes a
  let pi := n.parentIndex
  let sn := s.nodes sib
  let pn := s.nodes p
  let s := s.modify a fun m => { m with
    keys := Function.update m.keys m.nrSegments (pn.keys pi)
    values := Function.update m.values m.nrSegments (pn.values pi) }
  let s := s.modify p fun m => { m with
    keys := Function.update m.keys pi (sn.keys 0)
    values := Function.update m.values pi (sn.values 0) }
  let s := s.modify sib fun m => { m with
    keys := copySlice m.keys 0 (m.nrSegments - 1) m.keys 1 (maxDegree - 1)
    values := clearAt fns (copySlice m.values 0 (m.nrSegments - 1) m.values 1 (maxDegree - 1)) (m.nrSegments - 1) }
  let s ← if n.hasChildren then do
      let s := s.modify a fun m => { m with children := Function.update m.children (m.nrSegments + 1) (sn.children 0) }
      let s := s.modify sib fun m => { m with
        children := Function.update (copySlice m.children 0 m.nrSegments m.children 1 maxDegree) m.nrSegments none }
      let s ← s.adopt a ((s.nodes a).nrSegments + 1)
      s.renumberChildren sib 0 (s.nodes sib).nrSegments
    else pure s
  let s := s.modify a fun m => { m with nrSegments := m.nrSegments + 1 }
  let s := s.modify sib fun m => { m with nrSegments := m.nrSegments - 1 }
  pure (s, if gap.node = some sib then
      (if gap.index = 0 then ⟨some a, (s.nodes a).nrSegments⟩ else ⟨some sib, gap.index - 1⟩)
    else gap)

/-- The third case of `rebalanceAfterRemove`: the parent `p` has one segment, and takes in
both its children with it. -/
def collapseRoot (s : ReclaimSet V) (p : Nat) (gap : ReclaimGapIterator) : Option (ReclaimSet V × ReclaimGapIterator) := do
  let pn := s.nodes p
  let l ← pn.children 0
  let r ← pn.children 1
  let ln := s.nodes l
  let rn := s.nodes r
  let s := s.modify p fun m => { m with
    nrSegments := ln.nrSegments + rn.nrSegments + 1, hasChildren := ln.hasChildren
    keys := copySlice (copySlice (Function.update m.keys ln.nrSegments (m.keys 0)) 0 ln.nrSegments ln.keys 0 ln.nrSegments)
      (ln.nrSegments + 1) (maxDegree - 1) rn.keys 0 rn.nrSegments
    values := copySlice (copySlice (Function.update m.values ln.nrSegments (m.values 0)) 0 ln.nrSegments ln.values 0
      ln.nrSegments) (ln.nrSegments + 1) (maxDegree - 1) rn.values 0 rn.nrSegments }
  let s ← if ln.hasChildren then
      (s.modify p fun m => { m with
        children := copySlice (copySlice m.children 0 (ln.nrSegments + 1) ln.children 0 (ln.nrSegments + 1))
          (ln.nrSegments + 1) maxDegree rn.children 0 (rn.nrSegments + 1) }).adoptChildren p 0
        ((s.nodes p).nrSegments + 1)
    else pure (s.modify p fun m => { m with children := Function.update (Function.update m.children 0 none) 1 none })
  pure (s, if gap.node = some l then ⟨some p, gap.index⟩
    else if gap.node = some r then ⟨some p, gap.index + ln.nrSegments + 1⟩ else gap)

/-- The last case of `rebalanceAfterRemove`: the short node `a` and a sibling, with the
separator between them, become one node, the first of the two; the parent `p` loses the
separator and the second node. -/
def mergeSiblings (s : ReclaimSet V) (a p : Nat) (gap : ReclaimGapIterator) : Option (ReclaimSet V × ReclaimGapIterator) := do
  let (l, r) ← if (s.nodes a).parentIndex > 0 then (s.prevSibling a).map (·, a) else (s.nextSibling a).map (a, ·)
  let ln := s.nodes l
  let rn := s.nodes r
  let gap : ReclaimGapIterator := if gap.node = some r then ⟨some l, gap.index + ln.nrSegments + 1⟩ else gap
  let pn := s.nodes p
  let s := s.modify l fun m => { m with
    keys := copySlice (Function.update m.keys m.nrSegments (pn.keys m.parentIndex)) (m.nrSegments + 1) (maxDegree - 1)
      rn.keys 0 rn.nrSegments
    values := copySlice (Function.update m.values m.nrSegments (pn.values m.parentIndex)) (m.nrSegments + 1)
      (maxDegree - 1) rn.values 0 rn.nrSegments }
  let s ← if ln.hasChildren then
      (s.modify l fun m => { m with
        children := copySlice m.children (m.nrSegments + 1) maxDegree rn.children 0 (rn.nrSegments + 1) }).adoptChildren
        l (ln.nrSegments + 1) (ln.nrSegments + rn.nrSegments + 2)
    else pure s
  let s := s.modify l fun m => { m with nrSegments := m.nrSegments + rn.nrSegments + 1 }
  let lpi := (s.nodes l).parentIndex
  let s := s.modify p fun m => { m with
    keys := copySlice m.keys lpi (maxDegree - 1) m.keys (lpi + 1) m.nrSegments
    values := clearAt fns (copySlice m.values lpi (maxDegree - 1) m.values (lpi + 1) m.nrSegments) (m.nrSegments - 1)
    children := copySlice m.children (lpi + 1) maxDegree m.children (lpi + 2) (m.nrSegments + 1) }
  let s ← s.renumberChildren p 0 (s.nodes p).nrSegments
  let s := s.modify p fun m => { m with
    children := Function.update m.children m.nrSegments none, nrSegments := m.nrSegments - 1 }
  pure (s, gap)

/-- `n.rebalanceAfterRemove(gap)`: the loop that borrows or merges up from the short node. -/
def rebalanceAfterRemove : Nat → ReclaimSet V → Nat → ReclaimGapIterator → Option (ReclaimSet V × ReclaimGapIterator)
  | 0, _, _, _ => none
  | fuel + 1, s, a, gap =>
    if (s.nodes a).nrSegments ≥ minDegree - 1 then some (s, gap) else
    match (s.nodes a).parent with
    | none => some (s, gap)
    | some p =>
      match (s.prevSibling a).filter (fun sib => (s.nodes sib).nrSegments ≥ minDegree),
        (s.nextSibling a).filter (fun sib => (s.nodes sib).nrSegments ≥ minDegree) with
      | some sib, _ => s.borrowFromPrev fns a sib p gap
      | none, some sib => s.borrowFromNext fns a sib p gap
      | none, none =>
        if (s.nodes p).nrSegments = 1 then s.collapseRoot p gap
        else do
          let (s, gap) ← s.mergeSiblings fns a p gap
          rebalanceAfterRemove fuel s p gap

/-! ### Removal -/

/-- The branch of `Remove` for a segment of a node without children. -/
def removeLeaf (s : ReclaimSet V) (seg : ReclaimIterator) : Option (ReclaimSet V × ReclaimGapIterator) := do
  let a ← seg.node
  let s := s.modify a fun m => { m with
    keys := copySlice m.keys seg.index (maxDegree - 1) m.keys (seg.index + 1) m.nrSegments
    values := clearAt fns (copySlice m.values seg.index (maxDegree - 1) m.values (seg.index + 1) m.nrSegments)
      (m.nrSegments - 1)
    nrSegments := m.nrSegments - 1 }
  rebalanceAfterRemove fns s.fresh s a ⟨some a, seg.index⟩

/-- `Remove`: a segment of an internal node takes the range and value of its predecessor,
which is removed from its leaf instead. -/
def remove (s : ReclaimSet V) (seg : ReclaimIterator) : Option (ReclaimSet V × ReclaimGapIterator) := do
  let a ← seg.node
  if (s.nodes a).hasChildren then
    let victim ← seg.prevSegment s
    let r ← victim.range s
    let v ← victim.value s
    let s ← seg.setRangeUnchecked s r
    let s ← seg.setValue s v
    let _ ← seg.nextSegment s
    let (s, gap) ← s.removeLeaf fns victim
    pure (s, ← gap.nextGap s)
  else s.removeLeaf fns seg

/-- `RemoveAll`: `s.root = reclaimnode{}`. -/
def removeAll (s : ReclaimSet V) : ReclaimSet V := s.modify 0 fun _ => .zero

end ReclaimSet

end Gvisor.Segment
