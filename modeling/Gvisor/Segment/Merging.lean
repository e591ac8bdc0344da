import Gvisor.Segment.Edit
import Gvisor.Segment.Span

/-!
# The merge loops

`MergeAll` and `MergeRange` walk the segments with a pair `seg, next` of neighbours: while
`next` is a segment (whose start is below `r.End`, for `MergeRange`), `MergeUnchecked(seg, next)`
either joins the two, and the loop goes on from the joined segment, or fails, and the loop moves
one segment on. On the sorted list `seq` that loop is `mergeRun`, a left-to-right pass that
replaces each neighbour by `mergeResult` while that is some.

`Inv.mergeUnchecked` states one pass of the loop with the invariant: the join keeps `seq`
sorted; `Inv.merge` is the same for `Merge`, whose check that the two are neighbours passes.
`mergeLoop_spec` follows the loop to its end, by induction on the segments still ahead of it,
each of which costs one unit of fuel; `Inv.mergeAll` and `Inv.mergeRange` start it at the first
segment and at `LowerBoundSegment(r.Start)`, where `loopFuel` exceeds the number of segments.

Scope. `Merge` is an arbitrary function of the two ranges and values; the loops are stated for
every set that satisfies the invariant.
-/

set_option autoImplicit false

namespace Gvisor.Segment

variable {V : Type}

namespace SegList

variable (fns : SetFunctions V) (cont : FileRange → Bool)

/-- The loop of `MergeAll` and `MergeRange` on the list, from the segment `x` on: while the
next segment passes `cont`, the two are replaced by `mergeResult` when that is some and the
loop goes on from it, and otherwise the loop moves on to the next segment. -/
def mergeRun : FileRange × V → List (FileRange × V) → List (FileRange × V)
  | x, [] => [x]
  | x, y :: l =>
    if cont y.1 then
      match mergeResult fns x y with
      | some e => mergeRun e l
      | none => x :: mergeRun y l
    else x :: y :: l

/-- `mergeRun` from the first segment of the list. -/
def mergeFrom : List (FileRange × V) → List (FileRange × V)
  | [] => []
  | x :: l => mergeRun fns cont x l

end SegList

open SegList

namespace Tree

variable (fns : SetFunctions V) {s : ReclaimSet V} {t : Tree V}

/-- `MergeUnchecked` of two neighbours `x` and `y` keeps the invariant: they are replaced by
`mergeResult` when it is some, and the iterator returned points to it; otherwise nothing
changes. -/
theorem Inv.mergeUnchecked {L R : List (FileRange × V)} {x y : FileRange × V} (hi : Inv s t)
    (hseq : seq t = L ++ x :: y :: R) :
    ∃ s' t' it, s.mergeUnchecked fns (segAt t L.length) (segAt t (L.length + 1)) = some (s', it) ∧ Inv s' t' ∧
      match mergeResult fns x y with
      | some e => it = segAt t' L.length ∧ seq t' = L ++ e :: R
      | none => it = ⟨none, 0⟩ ∧ s' = s ∧ t' = t := by
  have hj : L.length + 1 < (seq t).length := by simp [hseq]
  have hx : (seq t)[L.length] = x := by simp [hseq, List.getElem_append_right]
  have hy : (seq t)[L.length + 1] = y := by simp [hseq, List.getElem_append_right]
  obtain ⟨s', t', it, hm, hS', hres⟩ := mergeUnchecked_spec fns hi.shape hj
  rw [hx, hy] at hres
  refine ⟨s', t', it, hm, ?_⟩
  revert hres
  cases hr : mergeResult fns x y with
  | none =>
    rintro ⟨hit, rfl, rfl⟩
    exact ⟨hi, hit, rfl, rfl⟩
  | some e =>
    rintro ⟨hit, hseq'⟩
    rw [hseq, List.take_left, List.drop_append, List.drop_succ_cons, List.drop_succ_cons, List.drop_zero] at hseq'
    have ho := hi.ordered
    rw [hseq] at ho
    refine ⟨hS'.inv ?_, hit, hseq'⟩
    rw [hseq', mergeResult_range hr]
    exact ho.join e.2

/-- `Merge` of two neighbours `x` and `y` keeps the invariant, and replaces them by
`mergeResult` when it is some. -/
theorem Inv.merge {L R : List (FileRange × V)} {x y : FileRange × V} (hi : Inv s t) (hseq : seq t = L ++ x :: y :: R) :
    ∃ s' t' it, s.merge fns (segAt t L.length) (segAt t (L.length + 1)) = some (s', it) ∧ Inv s' t' ∧
      seq t' = L ++ match mergeResult fns x y with
        | some e => e :: R
        | none => x :: y :: R := by
  obtain ⟨s', t', it, hm, hi', hres⟩ := hi.mergeUnchecked fns hseq
  have hnext := (hi.shape.seg_steps (j := L.length) (by simp [hseq])).1
  refine ⟨s', t', it, by simp [ReclaimSet.merge, hnext, hm], hi', ?_⟩
  revert hres
  cases mergeResult fns x y with
  | none =>
    rintro ⟨-, -, rfl⟩
    exact hseq
  | some e => exact fun h => h.2

/-- The loop of `MergeAll` and `MergeRange` from segment `x`, after the segments `L`, with the
segments `rest` after it: it ends with `L` followed by `mergeRun` of `x` and `rest`, as long as
the fuel exceeds the number of segments in `rest`. -/
theorem mergeLoop_spec (cont : FileRange → Bool) :
    ∀ (rest L : List (FileRange × V)) (x : FileRange × V) (fuel : Nat) (s : ReclaimSet V) (t : Tree V),
      Inv s t → seq t = L ++ x :: rest → rest.length < fuel →
      ∃ s' t', s.mergeLoop fns cont fuel (segAt t L.length) (segAt t (L.length + 1)) = some s' ∧ Inv s' t' ∧
        seq t' = L ++ mergeRun fns cont x rest
  | _, _, _, 0, _, _, _, _, hfuel => absurd hfuel (Nat.not_lt_zero _)
  | [], L, x, f + 1, s, t, hi, hseq, _ => by
    refine ⟨s, t, ?_, hi, by rw [mergeRun, hseq]⟩
    rw [segAt_of_le (j := L.length + 1) (by simp [hseq])]
    simp [ReclaimSet.mergeLoop, ReclaimIterator.ok]
  | y :: rest, L, x, f + 1, s, t, hi, hseq, hfuel => by
    have hj1 : L.length + 1 < (seq t).length := by simp [hseq]
    have hy : (seq t)[L.length + 1] = y := by simp [hseq, List.getElem_append_right]
    obtain ⟨b', i', hs', -, -, hr', -⟩ := hi.shape.reads hj1
    rw [hy, hs'] at hr'
    by_cases hc : cont y.1 = true
    · obtain ⟨s1, t1, it, hm, hi1, hres⟩ := hi.mergeUnchecked fns hseq
      rw [mergeRun, if_pos hc]
      revert hres
      cases hr : mergeResult fns x y with
      | none =>
        -- the loop moves on to `y`
        rintro ⟨rfl, hs1, -⟩
        rw [hs1] at hm
        obtain ⟨s', t', hloop, hi', hseq'⟩ :=
          mergeLoop_spec cont rest (L ++ [x]) y f s t hi (by simp [hseq]) (by simpa using hfuel)
        have hn := (hi.shape.seg_steps hj1).1
        simp only [List.length_append, List.length_singleton] at hloop
        refine ⟨s', t', ?_, hi', by simp [hseq']⟩
        rw [hs'] at hm hn hloop ⊢
        simp [ReclaimSet.mergeLoop, ReclaimIterator.ok, hr', hc, hm, hn, hloop]
      | some e =>
        -- the loop goes on from the joined segment `e`
        rintro ⟨rfl, hseq1⟩
        obtain ⟨s', t', hloop, hi', hseq'⟩ := mergeLoop_spec cont rest L e f s1 t1 hi1 hseq1 (by simpa using hfuel)
        have hj' : L.length < (seq t1).length := by simp [hseq1]
        obtain ⟨b1, i1, hs1, -⟩ := hi1.shape.reads hj'
        have hn := (hi1.shape.seg_steps hj').1
        refine ⟨s', t', ?_, hi', hseq'⟩
        rw [hs1] at hn hloop hm
        rw [hs'] at hm ⊢
        simp [ReclaimSet.mergeLoop, ReclaimIterator.ok, hr', hc, hm, hn, hloop]
    · -- `y` does not pass `cont`: the loop stops
      refine ⟨s, t, ?_, hi, by rw [mergeRun, if_neg hc, hseq]⟩
      rw [hs']
      simp [ReclaimSet.mergeLoop, ReclaimIterator.ok, hr', hc]

/-- `MergeAll` runs the merge loop over the whole list. -/
theorem Inv.mergeAll (hi : Inv s t) :
    ∃ s' t', s.mergeAll fns = some s' ∧ Inv s' t' ∧ seq t' = mergeFrom fns (fun _ => true) (seq t) := by
  have hfirst := hi.firstSegmentOfSet
  cases hseq : seq t with
  | nil =>
    refine ⟨s, t, ?_, hi, hseq⟩
    rw [segAt_of_le (j := 0) (by simp [hseq])] at hfirst
    simp [ReclaimSet.mergeAll, hfirst, ReclaimIterator.ok]
  | cons x rest =>
    have hfuel := hi.length_seq_lt_loopFuel
    rw [hseq, List.length_cons] at hfuel
    obtain ⟨s', t', hloop, hi', hseq'⟩ :=
      mergeLoop_spec fns (fun _ => true) rest [] x s.loopFuel s t hi hseq (by omega)
    have hj : 0 < (seq t).length := by simp [hseq]
    obtain ⟨b, i, hs, -⟩ := hi.shape.reads hj
    have hn := (hi.shape.seg_steps hj).1
    refine ⟨s', t', ?_, hi', hseq'⟩
    simp only [List.length_nil, Nat.zero_add] at hloop
    rw [hs] at hfirst hn hloop
    simp [ReclaimSet.mergeAll, hfirst, ReclaimIterator.ok, hn, hloop]

/-- `MergeRange(r)` runs the merge loop from `LowerBoundSegment(r.Start)`, the first segment
that ends after `r.Start`, while the next segment starts below `r.End`. -/
theorem Inv.mergeRange (hi : Inv s t) (r : FileRange) :
    ∃ s' t', s.mergeRange fns r = some s' ∧ Inv s' t' ∧
      seq t' = (seq t).take (firstEndAfter (seq t) r.start) ++
        mergeFrom fns (·.start < r.end) ((seq t).drop (firstEndAfter (seq t) r.start)) := by
  have hlb := (hi.bounds r.start).1
  generalize firstEndAfter (seq t) r.start = j at hlb ⊢
  by_cases hj : j < (seq t).length
  · have hL : ((seq t).take j).length = j := by simp [Nat.min_eq_left hj.le]
    have hfuel := hi.length_seq_lt_loopFuel
    have hsplit : seq t = (seq t).take j ++ (seq t)[j] :: (seq t).drop (j + 1) := by
      rw [← List.drop_eq_getElem_cons hj, List.take_append_drop]
    obtain ⟨s', t', hloop, hi', hseq'⟩ := mergeLoop_spec fns (·.start < r.end) _ _ _ s.loopFuel s t hi hsplit
      (by rw [List.length_drop]; omega)
    obtain ⟨b, i, hs, -⟩ := hi.shape.reads hj
    have hn := (hi.shape.seg_steps hj).1
    refine ⟨s', t', ?_, hi', by rw [hseq', List.drop_eq_getElem_cons hj, mergeFrom]⟩
    rw [hL] at hloop
    rw [hs] at hlb hn hloop
    simp [ReclaimSet.mergeRange, hlb, ReclaimIterator.ok, hn, hloop]
  · refine ⟨s, t, ?_, hi, ?_⟩
    · rw [segAt_of_le (Nat.le_of_not_lt hj)] at hlb
      simp [ReclaimSet.mergeRange, hlb, ReclaimIterator.ok]
    · rw [List.take_of_length_le (Nat.le_of_not_lt hj), List.drop_of_length_le (Nat.le_of_not_lt hj), mergeFrom,
        List.append_nil]

end Tree

end Gvisor.Segment
