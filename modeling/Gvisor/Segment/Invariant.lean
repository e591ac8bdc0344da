import Gvisor.Segment.Nav

/-!
# The B-tree invariant, and iterators by position

`Inv s t`: the heap of `s` stores, from address 0, a B-tree `t` whose leaves are all at one
depth, whose nodes below the root are filled, whose addresses are distinct and below
`fresh`, and whose segments are sorted, disjoint and non-empty (`Ordered`).

`Shape s t` is `Inv` without the order of the keys, which the code that moves segments
between nodes never reads; the iterator steps need only it. Under it the set's iterators are
positions in `seq t`: `segAt t j` is the iterator of the `j`th segment and `gapAt t j` of the
`j`th gap, the one before segment `j`, both terminal past the end. `Shape.seg_steps` and
`Shape.gap_steps` say that every step of an iterator moves one position.
-/

set_option autoImplicit false

namespace Gvisor.Segment

variable {V : Type}

/-- Sorted, disjoint and non-empty ranges: each ends at or before the next one starts. -/
def Ordered (l : List (FileRange × V)) : Prop :=
  l.Pairwise (fun x y => x.1.end ≤ y.1.start) ∧ ∀ e ∈ l, e.1.start < e.1.end

namespace Tree

/-- The B-tree invariant of a reclaim set that stores the tree `t`. -/
structure Inv (s : ReclaimSet V) (t : Tree V) : Prop where
  rep : Rep s t none
  root : t.id = 0
  height : ∃ h, HasHeight h t ∧ h < s.fresh
  rootSize : t.segs.length ≤ maxDegree - 1
  rootEmpty : t.segs = [] → t.kids = []
  filled : ∀ k ∈ t.kids, Filled k
  nodup : (ids t).Nodup
  fresh : ∀ b ∈ ids t, b < s.fresh
  ordered : Ordered (seq t)

/-- The shape of the B-tree a reclaim set stores: `Inv` without the order of the keys. -/
structure Shape (s : ReclaimSet V) (t : Tree V) : Prop where
  rep : Rep s t none
  root : t.id = 0
  height : ∃ h, HasHeight h t ∧ h < s.fresh
  rootSize : t.segs.length ≤ maxDegree - 1
  rootEmpty : t.segs = [] → t.kids = []
  filled : ∀ k ∈ t.kids, Filled k
  nodup : (ids t).Nodup
  fresh : ∀ b ∈ ids t, b < s.fresh

theorem Inv.shape {s : ReclaimSet V} {t : Tree V} (hi : Inv s t) : Shape s t :=
  ⟨hi.rep, hi.root, hi.height, hi.rootSize, hi.rootEmpty, hi.filled, hi.nodup, hi.fresh⟩

theorem Shape.inv {s : ReclaimSet V} {t : Tree V} (hs : Shape s t) (ho : Ordered (seq t)) : Inv s t :=
  ⟨hs.rep, hs.root, hs.height, hs.rootSize, hs.rootEmpty, hs.filled, hs.nodup, hs.fresh, ho⟩

/-- The zero set stores the empty tree. -/
theorem Inv.empty [Inhabited V] : Inv (ReclaimSet.empty : ReclaimSet V) (.node 0 [] []) where
  rep := rep_node.mpr ⟨⟨rfl, fun _ h => by simp at h, fun _ h => by simp at h, rfl, fun _ => rfl, rfl⟩, trivial⟩
  root := rfl
  height := ⟨0, by simp [HasHeight], Nat.one_pos⟩
  rootSize := by simp
  rootEmpty _ := rfl
  filled := by simp
  nodup := by simp [ids, idsList]
  fresh := by simp [ids, idsList, ReclaimSet.empty]
  ordered := by simp [Ordered, seq, entries, walk, leafWalk]

/-- The iterator of the `j`th segment of `t`, terminal past the last. -/
def segAt (t : Tree V) (j : Nat) : ReclaimIterator :=
  match (segIters t)[j]? with
  | some x => ⟨some x.1, x.2⟩
  | none => ⟨none, 0⟩

/-- The iterator of the segment before the `j`th, terminal before the first. -/
def segBefore (t : Tree V) (j : Nat) : ReclaimIterator := if j = 0 then ⟨none, 0⟩ else segAt t (j - 1)

/-- The iterator of the `j`th gap of `t`, the one before segment `j`; terminal past the last. -/
def gapAt (t : Tree V) (j : Nat) : ReclaimGapIterator :=
  match (gapIters t)[j]? with
  | some g => ⟨some g.1, g.2⟩
  | none => ⟨none, 0⟩

/-- The iterator of the gap before the `j`th, terminal before the first. -/
def gapBefore (t : Tree V) (j : Nat) : ReclaimGapIterator := if j = 0 then ⟨none, 0⟩ else gapAt t (j - 1)

/-! ### Positions -/

section Positions

variable {s : ReclaimSet V} {t : Tree V}

theorem segAt_of_getElem? {j a i : Nat} (h : (segIters t)[j]? = some (a, i)) : segAt t j = ⟨some a, i⟩ := by
  simp [segAt, h]

theorem gapAt_of_getElem? {j a i : Nat} (h : (gapIters t)[j]? = some (a, i)) : gapAt t j = ⟨some a, i⟩ := by
  simp [gapAt, h]

theorem segAt_of_le {j : Nat} (h : (seq t).length ≤ j) : segAt t j = ⟨none, 0⟩ := by
  simp [segAt, segIters, List.getElem?_eq_none (by simpa [seq] using h)]

theorem Shape.alternates (hi : Shape s t) : Alternates (walk t) := by
  obtain ⟨h, ht, -⟩ := hi.height
  exact alternates_walk h t ht

theorem Shape.chain (hi : Shape s t) : (walk t).Chain' (Steps s) := by
  obtain ⟨h, ht, hf⟩ := hi.height
  exact chain_steps h t none hi.rep ht hi.filled hf

theorem Shape.length_gapIters (hi : Shape s t) : (gapIters t).length = (seq t).length + 1 := by
  simpa [gapIters, seq, entries] using hi.alternates.length_gaps

theorem gapAt_of_lt (hi : Shape s t) {j : Nat} (hj : j > (seq t).length) : gapAt t j = ⟨none, 0⟩ := by
  simp [gapAt, List.getElem?_eq_none (by rw [hi.length_gapIters]; omega : (gapIters t).length ≤ j)]

/-- The `j`th segment sits between the `j`th gap and the next: each step between them moves
one position. -/
theorem Shape.steps_at (hi : Shape s t) {j : Nat} (hj : j < (seq t).length) :
    (gapAt t j).nextSegment s = some (segAt t j) ∧ (segAt t j).prevGap s = some (gapAt t j) ∧
      (segAt t j).nextGap s = some (gapAt t (j + 1)) ∧ (gapAt t (j + 1)).prevSegment s = some (segAt t j) := by
  have hlen := hi.length_gapIters
  obtain ⟨⟨⟨b, k⟩, e⟩, he⟩ : ∃ x, (entries t)[j]? = some x :=
    ⟨_, List.getElem?_eq_getElem (by simpa [seq] using hj)⟩
  obtain ⟨⟨a, i⟩, hg⟩ : ∃ g, (gapIters t)[j]? = some g := ⟨_, List.getElem?_eq_getElem (by omega)⟩
  obtain ⟨⟨a', i'⟩, hg'⟩ : ∃ g, (gapIters t)[j + 1]? = some g := ⟨_, List.getElem?_eq_getElem (by omega)⟩
  obtain ⟨⟨h1, h2⟩, h3, h4⟩ := hi.alternates.steps hi.chain hg he hg'
  have hs : segAt t j = ⟨some b, k⟩ := segAt_of_getElem? (by simp [segIters, he])
  rw [hs, gapAt_of_getElem? hg, gapAt_of_getElem? hg']
  exact ⟨h1, h2, h3, h4⟩

theorem Shape.first_prevSegment (hi : Shape s t) : (gapAt t 0).prevSegment s = some ⟨none, 0⟩ := by
  obtain ⟨a, i, hh, hg⟩ := hi.alternates.first_gap
  obtain ⟨h, ht, hf⟩ := hi.height
  rw [gapAt_of_getElem? hg]
  exact first_gap_prevSegment hi.rep ht hf hh

theorem Shape.last_nextSegment (hi : Shape s t) : (gapAt t (seq t).length).nextSegment s = some ⟨none, 0⟩ := by
  obtain ⟨a, i, hl, hg⟩ := hi.alternates.last_gap
  obtain ⟨h, ht, hf⟩ := hi.height
  rw [gapAt_of_getElem? (by simpa [seq, entries] using hg)]
  exact last_gap_nextSegment hi.rep ht hf hl

theorem Shape.gapAt_mem (hi : Shape s t) {j : Nat} (hj : j ≤ (seq t).length) :
    ∃ l i, gapAt t j = ⟨some l, i⟩ ∧ .gap l i ∈ walk t := by
  obtain ⟨⟨l, i⟩, hg⟩ : ∃ g, (gapIters t)[j]? = some g :=
    ⟨_, List.getElem?_eq_getElem (by rw [hi.length_gapIters]; omega)⟩
  refine ⟨l, i, gapAt_of_getElem? hg, ?_⟩
  obtain ⟨x, hx, hxg⟩ := List.mem_filterMap.mp (List.getElem?_mem hg)
  cases x <;> simp at hxg
  obtain ⟨rfl, rfl⟩ := hxg
  exact hx

/-- The `j`th segment is what its iterator reads. -/
theorem Shape.reads (hi : Shape s t) {j : Nat} (hj : j < (seq t).length) :
    ∃ b k, segAt t j = ⟨some b, k⟩ ∧ .seg b k (seq t)[j] ∈ walk t ∧ k < (s.nodes b).nrSegments ∧
      (segAt t j).range s = some (seq t)[j].1 ∧ (segAt t j).value s = some (seq t)[j].2 := by
  have hj' : j < (entries t).length := by simpa [seq] using hj
  generalize hx : (entries t)[j] = x
  obtain ⟨⟨b, k⟩, e⟩ := x
  have hm : .seg b k e ∈ walk t := by
    obtain ⟨x, hx', hxe⟩ := List.mem_filterMap.mp (hx ▸ List.getElem_mem hj')
    cases x <;> simp at hxe
    obtain ⟨⟨rfl, rfl⟩, rfl⟩ := hxe
    exact hx'
  have hseq : (seq t)[j] = e := by simp [seq, hx]
  have hs : segAt t j = ⟨some b, k⟩ := segAt_of_getElem? (by simp [segIters, List.getElem?_eq_getElem hj', hx])
  obtain ⟨h, ht, -⟩ := hi.height
  obtain ⟨hk, hkey, hval⟩ := Rep.reads h t none hi.rep ht hm
  rw [hseq, hs]
  exact ⟨b, k, rfl, hm, hk, by simp [ReclaimIterator.range, hkey], by simp [ReclaimIterator.value, hval]⟩

theorem Shape.leaf_of_seg (hi : Shape s t) (hk : t.kids = []) {b k : Nat} {e : FileRange × V}
    (hm : .seg b k e ∈ walk t) : (s.nodes b).hasChildren = false := by
  obtain ⟨a, g, kids⟩ := t
  cases (hk : kids = [])
  rw [walk_leaf] at hm
  rcases mem_leafWalk hm with ⟨_, _, h⟩ | ⟨_, _, _, h⟩
  · cases h
  · cases h
    exact hi.rep.hasChildren_leaf

theorem Shape.gap_pos (hi : Shape s t) (hk : t.kids ≠ []) {l n : Nat} (hm : .gap l n ∈ walk t) :
    0 < (s.nodes l).nrSegments := by
  obtain ⟨a, g, kids⟩ := t
  obtain ⟨k, ks, rfl⟩ := List.exists_cons_of_ne_nil hk
  obtain ⟨h, ht, -⟩ := hi.height
  cases h with
  | zero => simp [HasHeight] at ht
  | succ h =>
    rcases mem_walk_node hm with ⟨k', hk', hm'⟩ | ⟨_, _, _, h'⟩
    · obtain ⟨j, hj, rfl⟩ := List.getElem_of_mem hk'
      have := (Rep.gap_mem h _ _ (hi.rep.child hj).2 ((hasHeight_succ.mp ht).2 _ hk') hm').2.2 (hi.filled _ hk')
      simp [minDegree] at this
      omega
    · cases h'

theorem Shape.gap_steps_seg (hi : Shape s t) {j : Nat} (hj : j ≤ (seq t).length) :
    (gapAt t j).nextSegment s = some (segAt t j) ∧ (gapAt t j).prevSegment s = some (segBefore t j) := by
  constructor
  · rcases Nat.lt_or_ge j (seq t).length with hlt | hge
    · exact (hi.steps_at hlt).1
    · obtain rfl : j = (seq t).length := by omega
      rw [segAt_of_le le_rfl]
      exact hi.last_nextSegment
  · cases j with
    | zero => simpa [segBefore] using hi.first_prevSegment
    | succ j => simpa [segBefore] using (hi.steps_at (by omega : j < (seq t).length)).2.2.2

/-- Every step of a segment iterator moves one position, or past either end. -/
theorem Shape.seg_steps (hi : Shape s t) {j : Nat} (hj : j < (seq t).length) :
    (segAt t j).nextSegment s = some (segAt t (j + 1)) ∧ (segAt t j).prevSegment s = some (segBefore t j) ∧
      (segAt t j).nextGap s = some (gapAt t (j + 1)) ∧ (segAt t j).prevGap s = some (gapAt t j) := by
  obtain ⟨-, h2, h3, -⟩ := hi.steps_at hj
  obtain ⟨b, k, hs, hm, hk, -⟩ := hi.reads hj
  refine ⟨?_, ?_, h3, h2⟩
  · rw [hs] at h3 ⊢
    refine ReclaimSet.nextSegment_of_nextGap hk h3 (hi.gap_steps_seg (by omega)).1 fun hc l hl => ?_
    obtain ⟨l', i', hg, hgm⟩ := hi.gapAt_mem (j := j + 1) (by omega)
    rw [hg] at hl
    cases hl
    by_cases hkids : t.kids = []
    · rw [hi.leaf_of_seg hkids hm] at hc
      cases hc
    · exact Nat.pos_iff_ne_zero.mp (hi.gap_pos hkids hgm)
  · rw [hs] at h2 ⊢
    exact ReclaimSet.prevSegment_of_prevGap h2 (hi.gap_steps_seg hj.le).2

/-- Every step of a gap iterator moves one position, or past either end. -/
theorem Shape.gap_steps (hi : Shape s t) {j : Nat} (hj : j ≤ (seq t).length) :
    (gapAt t j).nextSegment s = some (segAt t j) ∧ (gapAt t j).prevSegment s = some (segBefore t j) ∧
      (gapAt t j).nextGap s = some (gapAt t (j + 1)) ∧ (gapAt t j).prevGap s = some (gapBefore t j) := by
  obtain ⟨h1, h2⟩ := hi.gap_steps_seg hj
  refine ⟨h1, h2, ?_, ?_⟩
  · rcases Nat.lt_or_ge j (seq t).length with hlt | hge
    · obtain ⟨b, k, hs, -⟩ := hi.reads hlt
      have := (hi.seg_steps hlt).2.2.1
      simp [ReclaimGapIterator.nextGap, h1, hs, ReclaimIterator.ok] at this ⊢
      exact this
    · rw [segAt_of_le hge] at h1
      simp [ReclaimGapIterator.nextGap, h1, ReclaimIterator.ok, gapAt_of_lt hi (by omega : j + 1 > (seq t).length)]
  · cases j with
    | zero => simp [ReclaimGapIterator.prevGap, h2, segBefore, gapBefore, ReclaimIterator.ok]
    | succ j =>
      obtain ⟨b, k, hs, -⟩ := hi.reads (by omega : j < (seq t).length)
      have := (hi.seg_steps (by omega : j < (seq t).length)).2.2.2
      simp [segBefore] at h2
      simp [ReclaimGapIterator.prevGap, h2, hs, gapBefore, ReclaimIterator.ok] at this ⊢
      exact this

end Positions

end Tree

end Gvisor.Segment
