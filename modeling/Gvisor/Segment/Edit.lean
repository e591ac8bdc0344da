import Gvisor.Segment.Remove
import Gvisor.Segment.Ops
import Gvisor.Segment.Lookup

/-!
# Writing, splitting and merging segments

The operations that edit one or two neighbouring segments, stated on `seq` for every stored
tree. `Shape.updateAt`: the key setters (`SetRangeUnchecked`, `SetStartUnchecked`,
`SetEndUnchecked`) followed by `SetValue` replace segment `j` in place, and every iterator
keeps its place. `splitUnchecked_spec`: `SplitUnchecked` replaces segment `j` by its two
halves, through a write and an `InsertWithoutMergingUnchecked` at the gap after it.
`absorbNext_spec` and `mergeUnchecked_spec`: `MergeUnchecked` replaces segments `j` and
`j + 1` by one when they are adjacent and `Merge` joins their values, through a write and a
`Remove`, and otherwise changes nothing.

These results hold under `Shape`, whatever the keys. `Inv` asks `seq` to be `Ordered` as well,
and three list facts keep it so: an insertion into a free range (`Ordered.insert`), a cut
inside a segment (`Ordered.cut`) and the join of two neighbours (`Ordered.join`).
-/

set_option autoImplicit false

namespace Gvisor.Segment

variable {V : Type}

namespace ReclaimSet

/-- A write of node `a` depends only on what it makes of the node. -/
theorem modify_congr (s : ReclaimSet V) (a : Nat) {f g : ReclaimNode V → ReclaimNode V}
    (h : f (s.nodes a) = g (s.nodes a)) : s.modify a f = s.modify a g := by
  simp only [modify, h]

end ReclaimSet

theorem take_set_succ {α : Type} (l : List α) {j : Nat} (hj : j < l.length) (y : α) :
    (l.set j y).take (j + 1) = l.take j ++ [y] := by
  rw [List.set_eq_take_append_cons_drop, if_pos hj]
  simp [List.take_append_eq_append_take, List.take_of_length_le, Nat.min_eq_left hj.le]

/-- What merging two neighbouring segments makes of them: one segment over both ranges with
the value `Merge` gives, when the first ends where the second starts and `Merge` joins the
values. -/
def mergeResult (fns : SetFunctions V) (x y : FileRange × V) : Option (FileRange × V) :=
  if x.1.end = y.1.start then (fns.merge x.1 x.2 y.1 y.2).map fun m => (⟨x.1.start, y.1.end⟩, m) else none

theorem mergeResult_range {fns : SetFunctions V} {x y e : FileRange × V} (h : mergeResult fns x y = some e) :
    e = (⟨x.1.start, y.1.end⟩, e.2) := by
  simp only [mergeResult] at h
  split_ifs at h
  obtain ⟨m, -, rfl⟩ := Option.map_eq_some'.mp h
  rfl

/-! ### Sorted lists -/

section Ordered

variable {L R : List (FileRange × V)}

theorem Ordered.insert (h : Ordered (L ++ R)) {r : FileRange} (v : V) (hL : ∀ e ∈ L, e.1.end ≤ r.start)
    (hR : ∀ e ∈ R, r.end ≤ e.1.start) (hr : r.start < r.end) : Ordered (L ++ (r, v) :: R) := by
  obtain ⟨hp, hpos⟩ := h
  rw [List.pairwise_append] at hp
  refine ⟨List.pairwise_append.mpr ⟨hp.1, List.pairwise_cons.mpr ⟨hR, hp.2.1⟩, fun a ha b hb => ?_⟩, fun e he => ?_⟩
  · rcases List.mem_cons.mp hb with rfl | hb
    exacts [hL a ha, hp.2.2 a ha b hb]
  · simp only [List.mem_append, List.mem_cons] at he
    rcases he with he | rfl | he
    exacts [hpos e (List.mem_append_left _ he), hr, hpos e (List.mem_append_right _ he)]

/-- Cutting a segment at a key strictly inside it keeps the list sorted. -/
theorem Ordered.cut {e : FileRange × V} (h : Ordered (L ++ e :: R)) {k : Nat} (h1 : e.1.start < k)
    (h2 : k < e.1.end) (v1 v2 : V) : Ordered (L ++ (⟨e.1.start, k⟩, v1) :: (⟨k, e.1.end⟩, v2) :: R) := by
  have hL := h.before
  have hR := h.after
  have h' : Ordered (L ++ (⟨k, e.1.end⟩, v2) :: R) :=
    (h.sublist (by simp)).insert v2 (fun x hx => by have := hL x hx; simp only; omega) hR h2
  exact h'.insert v1 (fun x hx => hL x hx) (fun x hx => by
    rcases List.mem_cons.mp hx with rfl | hx
    · exact le_rfl
    · have := hR x hx; simp only; omega) h1

/-- Joining two neighbours into one segment over both keeps the list sorted. -/
theorem Ordered.join {x y : FileRange × V} (h : Ordered (L ++ x :: y :: R)) (m : V) :
    Ordered (L ++ (⟨x.1.start, y.1.end⟩, m) :: R) := by
  have hxy := h.after y (List.mem_cons_self _ _)
  have hR : ∀ e ∈ R, y.1.end ≤ e.1.start := (show Ordered ((L ++ [x]) ++ y :: R) by simpa using h).after
  have hx := h.2 x (by simp)
  have hy := h.2 y (by simp)
  exact (h.sublist (by simp)).insert m h.before hR (by simp only; omega)

end Ordered

namespace Tree

variable {s : ReclaimSet V}

theorem segAt_congr {t t' : Tree V} (h : segIters t' = segIters t) (j : Nat) : segAt t' j = segAt t j := by
  unfold segAt
  rw [h]

/-- A key setter (`updateKey` with `f`) and then `SetValue` on segment `j`: the stored tree has
segment `j` replaced by `(f r, v)`, where `r` was its range, and every iterator keeps its
place. -/
theorem Shape.updateAt {t : Tree V} {j : Nat} (h : Shape s t) (hj : j < (seq t).length) (f : FileRange → FileRange)
    (v : V) :
    ∃ s' t', ((segAt t j).updateKey s f).bind (fun s => (segAt t j).setValue s v) = some s' ∧ Shape s' t' ∧
      gapIters t' = gapIters t ∧ segIters t' = segIters t ∧ seq t' = (seq t).set j (f (seq t)[j].1, v) := by
  obtain ⟨a, k, t', hseg, hS, hgi, hsi, hseq⟩ := h.setAt hj (f (seq t)[j].1, v)
  obtain ⟨-, -, -, -, -, hrange, -⟩ := h.reads hj
  rw [hseg] at hrange
  have hkey : (s.nodes a).keys k = (seq t)[j].1 := by simpa [ReclaimIterator.range] using hrange
  refine ⟨_, t', ?_, hS, hgi, hsi, hseq⟩
  rw [hseg]
  simp only [ReclaimIterator.updateKey, ReclaimIterator.setValue, Option.map_some', Option.some_bind]
  rw [ReclaimSet.modify_congr s a (g := fun m => { m with keys := Function.update m.keys k (f (seq t)[j].1) })
    (by rw [hkey])]

section Edit

variable (fns : SetFunctions V)

/-- `SplitUnchecked` of segment `j` at `split`: the segment, of range `r` and value `v`, is
replaced by `[r.Start, split)` and `[split, r.End)` with the two values `Split` gives, and the
iterators returned point to the two. -/
theorem splitUnchecked_spec [Inhabited V] {t : Tree V} {j : Nat} (h : Shape s t) (hj : j < (seq t).length) (split : Nat) :
    ∃ s' t', s.splitUnchecked fns (segAt t j) split = some (s', segAt t' j, segAt t' (j + 1)) ∧ Shape s' t' ∧
      seq t' = (seq t).take j ++
        (⟨(seq t)[j].1.start, split⟩, (fns.split (seq t)[j].1 (seq t)[j].2 split).1) ::
        (⟨split, (seq t)[j].1.end⟩, (fns.split (seq t)[j].1 (seq t)[j].2 split).2) :: (seq t).drop (j + 1) := by
  obtain ⟨-, -, -, -, -, hrange, hvalue⟩ := h.reads hj
  obtain ⟨s2, t2, hset, hS2, hgi, hsi, hseq2⟩ :=
    h.updateAt hj (fun r => { r with «end» := split }) (fns.split (seq t)[j].1 (seq t)[j].2 split).1
  have hlen2 : (seq t2).length = (seq t).length := by rw [hseq2, List.length_set]
  have hng := (hS2.seg_steps (j := j) (by omega)).2.2.1
  rw [segAt_congr hsi] at hng
  obtain ⟨s3, t3, hins, hS3, hseq3⟩ := insertWithoutMergingUnchecked_spec fns hS2 (j := j + 1) (by omega)
    ⟨split, (seq t)[j].1.end⟩ (fns.split (seq t)[j].1 (seq t)[j].2 split).2
  have hlen3 : (seq t3).length = (seq t).length + 1 := by
    rw [hseq3, List.length_append, List.length_cons, List.length_take, List.length_drop, hlen2]
    omega
  have hps := (hS3.seg_steps (j := j + 1) (by omega)).2.1
  simp only [segBefore, Nat.add_one_ne_zero, ↓reduceIte, Nat.add_sub_cancel] at hps
  obtain ⟨s1, hupd, hval⟩ := Option.bind_eq_some.mp hset
  refine ⟨s3, t3, ?_, hS3, ?_⟩
  · simp only [ReclaimSet.splitUnchecked, Option.bind_eq_bind, hrange, hvalue, ReclaimIterator.end, Option.map_some',
      Option.some_bind, ReclaimIterator.setEndUnchecked, hupd, hval, hng, hins, hps]
    rfl
  · rw [hseq3, hseq2, take_set_succ _ hj, List.drop_set_of_lt _ _ (Nat.lt_succ_self j)]
    simp

/-- `absorbNext`: segment `j` takes over the end of segment `j + 1` and the value `mval`, and
segment `j + 1` is removed; the iterator returned points to the merged segment. -/
theorem absorbNext_spec {t : Tree V} {j : Nat} (h : Shape s t) (hj : j + 1 < (seq t).length) (mval : V) :
    ∃ s' t', s.absorbNext fns (segAt t j) (segAt t (j + 1)) mval = some (s', segAt t' j) ∧ Shape s' t' ∧
      seq t' = (seq t).take j ++ (⟨(seq t)[j].1.start, (seq t)[j + 1].1.end⟩, mval) :: (seq t).drop (j + 2) := by
  obtain ⟨-, -, -, -, -, hrange2, -⟩ := h.reads hj
  obtain ⟨s2, t2, hset, hS2, -, hsi, hseq2⟩ :=
    h.updateAt (j := j) (by omega) (fun r => { r with «end» := (seq t)[j + 1].1.end }) mval
  have hlen2 : (seq t2).length = (seq t).length := by rw [hseq2, List.length_set]
  obtain ⟨s3, t3, hrem, hS3, hseq3⟩ := remove_spec fns hS2 (j := j + 1) (by omega)
  rw [segAt_congr hsi] at hrem
  have hlen3 : (seq t3).length + 1 = (seq t).length := by
    rw [hseq3, List.length_eraseIdx, if_pos (by omega), hlen2]
    omega
  have hps := (hS3.gap_steps (j := j + 1) (by omega)).2.1
  simp only [segBefore, Nat.add_one_ne_zero, ↓reduceIte, Nat.add_sub_cancel] at hps
  obtain ⟨s1, hupd, hval⟩ := Option.bind_eq_some.mp hset
  refine ⟨s3, t3, ?_, hS3, ?_⟩
  · simp only [ReclaimSet.absorbNext, Option.bind_eq_bind, hrange2, ReclaimIterator.end, Option.map_some',
      Option.some_bind, ReclaimIterator.setEndUnchecked, hupd, hval, hrem, hps]
    rfl
  · rw [hseq3, hseq2, List.eraseIdx_eq_take_drop_succ, take_set_succ _ (by omega),
      List.drop_set_of_lt _ _ (by omega)]
    simp

/-- `MergeUnchecked` of segments `j` and `j + 1`: when the first ends where the second starts
and `Merge` joins their values, the two are replaced by `mergeResult`, and the iterator returned
points to it; otherwise the set is unchanged and the iterator is terminal. -/
theorem mergeUnchecked_spec {t : Tree V} {j : Nat} (h : Shape s t) (hj : j + 1 < (seq t).length) :
    ∃ s' t' it, s.mergeUnchecked fns (segAt t j) (segAt t (j + 1)) = some (s', it) ∧ Shape s' t' ∧
      match mergeResult fns (seq t)[j] (seq t)[j + 1] with
      | some e => it = segAt t' j ∧ seq t' = (seq t).take j ++ e :: (seq t).drop (j + 2)
      | none => it = ⟨none, 0⟩ ∧ s' = s ∧ t' = t := by
  obtain ⟨-, -, -, -, -, hr1, hv1⟩ := h.reads (j := j) (by omega)
  obtain ⟨-, -, -, -, -, hr2, hv2⟩ := h.reads hj
  have hcode : s.mergeUnchecked fns (segAt t j) (segAt t (j + 1)) =
      match mergeResult fns (seq t)[j] (seq t)[j + 1] with
      | some e => s.absorbNext fns (segAt t j) (segAt t (j + 1)) e.2
      | none => some (s, ⟨none, 0⟩) := by
    simp only [ReclaimSet.mergeUnchecked, mergeResult, Option.bind_eq_bind, ReclaimIterator.end,
      ReclaimIterator.start, hr1, hr2, hv1, hv2, Option.map_some', Option.some_bind]
    split_ifs
    · cases fns.merge (seq t)[j].1 (seq t)[j].2 (seq t)[j + 1].1 (seq t)[j + 1].2 <;> simp
    · rfl
  cases hm : mergeResult fns (seq t)[j] (seq t)[j + 1] with
  | none => exact ⟨s, t, _, by rw [hcode, hm], h, rfl, rfl, rfl⟩
  | some e =>
    obtain ⟨s', t', habs, hS', hseq⟩ := absorbNext_spec fns h hj e.2
    refine ⟨s', t', _, by rw [hcode, hm]; exact habs, hS', rfl, ?_⟩
    rw [hseq, ← mergeResult_range hm]

end Edit

end Tree

end Gvisor.Segment
