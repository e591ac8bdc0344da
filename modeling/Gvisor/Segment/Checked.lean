import Gvisor.Segment.Client

/-!
# The checked operations

`InsertWithoutMerging` and `Split` check their arguments and panic when the check fails;
`Isolate` checks where to split. On every set that satisfies the invariant each check is exactly
the precondition of the unchecked operation it guards. `insertWithoutMerging_checks_gap`: the
insertion of a well-formed range panics unless the range is non-empty and lies within the gap,
and otherwise inserts it there. `split_checks_range`: the split panics unless the key lies strictly inside the segment,
and otherwise cuts it in two. `isolate_spec`: `Isolate` cuts the segment at `r.Start` and at
`r.End` where they lie inside it, and returns the piece that lies within `r`, whose range is
`Intersect` of the segment's range and `r`.

Scope. The ranges given to `InsertWithoutMerging` and `Isolate` are well formed,
`r.Start <= r.End`, as `FileRange`'s methods require. An ill-formed range has a non-zero
wrapped `Length`, so with its bounds inside a gap it passes both checks of
`InsertWithoutMerging`, which then inserts it out of order, though the function's comment says
it panics on an invalid range (`insertWithoutMerging_inserts_ill_formed`).
-/

set_option autoImplicit false

namespace Gvisor.Segment

variable {V : Type}

/-- Two well-formed ranges that overlap intersect in the range from the later start to the
earlier end. -/
theorem FileRange.intersect_of_overlap {r r2 : FileRange} (h : r.start < r2.end) (h' : r2.start < r.end)
    (hr : r.start ≤ r.end) (hr2 : r2.start ≤ r2.end) :
    r.intersect r2 = ⟨max r.start r2.start, min r.end r2.end⟩ := by
  simp only [FileRange.intersect, FileRange.mk.injEq]
  split_ifs <;> omega

/-- A non-empty range within the gap between `L` and `R` can be inserted there: the list stays
sorted. -/
theorem Ordered.insert_gap {L R : List (FileRange × V)} (h : Ordered (L ++ R)) {fns : SetFunctions V}
    {r : FileRange} (hr : (gapRange fns (L ++ R) L.length).isSupersetOf r) (hpos : r.start < r.end) (v : V) :
    Ordered (L ++ (r, v) :: R) := by
  rw [gapRange_split] at hr
  simp only [FileRange.isSupersetOf, Bool.and_eq_true, decide_eq_true_eq] at hr
  refine h.insert v (fun e he => ?_) (fun e he => ?_) hpos
  · rcases L.eq_nil_or_concat' with rfl | ⟨L, w, rfl⟩
    · exact absurd he (List.not_mem_nil e)
    · have hw := h.2 w (by simp)
      simp only [List.getLast?_concat, Option.map_some', Option.getD_some] at hr
      rcases List.mem_append.mp he with he | he
      · have := (show Ordered (L ++ w :: R) by simpa using h).before e he
        omega
      · rw [List.mem_singleton.mp he]
        exact hr.1
  · cases R with
    | nil => exact absurd he (List.not_mem_nil e)
    | cons y R =>
      have hy := h.2 y (by simp)
      simp only [List.head?_cons, Option.map_some', Option.getD_some] at hr
      rcases List.mem_cons.mp he with rfl | he
      · exact hr.2
      · have := h.after e he
        omega

open SegList

namespace Tree

variable [Inhabited V] (fns : SetFunctions V) {s : ReclaimSet V} {t : Tree V}

/-- `InsertWithoutMerging(gap, r, v)` of a well-formed `r` at the gap between `L` and `R` panics
unless `r` is non-empty and lies within the gap's range; otherwise it inserts `(r, v)` between
`L` and `R`, keeps the invariant, and returns the inserted segment. -/
theorem insertWithoutMerging_checks_gap {L R : List (FileRange × V)} (hi : Inv s t) (hseq : seq t = L ++ R)
    (r : FileRange) (hwf : r.start ≤ r.end) (v : V) :
    (r.start < r.end → (gapRange fns (seq t) L.length).isSupersetOf r →
      ∃ s' t', s.insertWithoutMerging fns (gapAt t L.length) r v = some (s', segAt t' L.length) ∧ Inv s' t' ∧
        seq t' = L ++ (r, v) :: R) ∧
    (¬(r.start < r.end ∧ (gapRange fns (seq t) L.length).isSupersetOf r) →
      s.insertWithoutMerging fns (gapAt t L.length) r v = none) := by
  have hj : L.length ≤ (seq t).length := by simp [hseq]
  have hrange := hi.gap_range fns hj
  refine ⟨fun hpos hsup => ?_, fun hbad => ?_⟩
  · obtain ⟨s', t', hins, hS', hseq'⟩ := insertWithoutMergingUnchecked_spec fns hi.shape hj r v
    rw [hseq, List.take_left, List.drop_left] at hseq'
    have ho := hi.ordered
    rw [hseq] at ho
    have hlen : r.length ≠ 0 := by rw [FileRange.length_of_le hwf]; omega
    refine ⟨s', t', ?_, hS'.inv (hseq' ▸ ho.insert_gap (hseq ▸ hsup) hpos v), hseq'⟩
    simp [ReclaimSet.insertWithoutMerging, hlen, hrange, hsup, hins]
  · by_cases hpos : r.start < r.end
    · have hlen : r.length ≠ 0 := by rw [FileRange.length_of_le hwf]; omega
      have hsup : (gapRange fns (seq t) L.length).isSupersetOf r = false := by simpa [hpos] using hbad
      simp [ReclaimSet.insertWithoutMerging, hlen, hrange, hsup]
    · have hlen : r.length = 0 := (FileRange.length_eq_zero_iff hwf).2 (Nat.le_of_not_lt hpos)
      simp [ReclaimSet.insertWithoutMerging, hlen]

/-- The gap between the two segments `[0, 8)` and `[16, 24)` takes `[10, 14)`. -/
theorem insertWithoutMerging_checks_gap_two_segments :
    ∃ (s : ReclaimSet Nat) (t : Tree Nat), Inv s t ∧ seq t = [(⟨0, 8⟩, 1), (⟨16, 24⟩, 2)] ∧
      ((10 < 14 → (gapRange ⟨0, 2 ^ 64 - 1, fun v => v, fun _ v _ _ => some v, fun _ v _ => (v, v)⟩ (seq t) 1).isSupersetOf ⟨10, 14⟩ →
        ∃ s' t', s.insertWithoutMerging ⟨0, 2 ^ 64 - 1, fun v => v, fun _ v _ _ => some v, fun _ v _ => (v, v)⟩ (gapAt t 1) ⟨10, 14⟩ 3 = some (s', segAt t' 1) ∧ Inv s' t' ∧
          seq t' = [(⟨0, 8⟩, 1)] ++ (⟨10, 14⟩, 3) :: [(⟨16, 24⟩, 2)]) ∧
      (¬(10 < 14 ∧ (gapRange ⟨0, 2 ^ 64 - 1, fun v => v, fun _ v _ _ => some v, fun _ v _ => (v, v)⟩ (seq t) 1).isSupersetOf ⟨10, 14⟩) →
        s.insertWithoutMerging ⟨0, 2 ^ 64 - 1, fun v => v, fun _ v _ _ => some v, fun _ v _ => (v, v)⟩ (gapAt t 1) ⟨10, 14⟩ 3 = none)) :=
  let ⟨s, t, hi, hseq⟩ := exists_two_segments
  ⟨s, t, hi, hseq, insertWithoutMerging_checks_gap _ (L := [(⟨0, 8⟩, 1)]) (R := [(⟨16, 24⟩, 2)]) hi hseq ⟨10, 14⟩
    (by decide) 3⟩

/-- An ill-formed `r`, `Start > End`, with its bounds within the gap's range passes both checks
of `InsertWithoutMerging`, whose comment says it panics on an invalid range: its `uint64`
`Length` wraps to a non-zero value. The range is inserted, and the segments are out of order. -/
theorem insertWithoutMerging_inserts_ill_formed {L R : List (FileRange × V)} (hi : Inv s t) (hseq : seq t = L ++ R)
    {r : FileRange} (hbad : r.end < r.start) (hr : r.start < 2 ^ 64)
    (hsup : (gapRange fns (seq t) L.length).isSupersetOf r) (v : V) :
    ∃ s' t', s.insertWithoutMerging fns (gapAt t L.length) r v = some (s', segAt t' L.length) ∧ Shape s' t' ∧
      seq t' = L ++ (r, v) :: R ∧ ¬Ordered (seq t') := by
  have hj : L.length ≤ (seq t).length := by simp [hseq]
  obtain ⟨s', t', hins, hS', hseq'⟩ := insertWithoutMergingUnchecked_spec fns hi.shape hj r v
  rw [hseq, List.take_left, List.drop_left] at hseq'
  have hlen : r.length ≠ 0 := by
    rw [FileRange.length, if_neg (Nat.not_le.2 hbad)]
    omega
  refine ⟨s', t', ?_, hS', hseq', fun ho => ?_⟩
  · simp [ReclaimSet.insertWithoutMerging, hlen, hi.gap_range fns hj, hsup, hins]
  · have : r.start < r.end := ho.2 (r, v) (by simp [hseq'])
    omega

/-- The range `[12, 10)` lies within the bounds of the gap `[8, 16)` between the two segments
`[0, 8)` and `[16, 24)`, and is inserted there. -/
theorem insertWithoutMerging_inserts_ill_formed_two_segments :
    ∃ (s : ReclaimSet Nat) (t : Tree Nat), Inv s t ∧ seq t = [(⟨0, 8⟩, 1), (⟨16, 24⟩, 2)] ∧
      (gapRange ⟨0, 2 ^ 64 - 1, fun v => v, fun _ v _ _ => some v, fun _ v _ => (v, v)⟩ (seq t) 1).isSupersetOf ⟨12, 10⟩ ∧
      ∃ s' t', s.insertWithoutMerging ⟨0, 2 ^ 64 - 1, fun v => v, fun _ v _ _ => some v, fun _ v _ => (v, v)⟩ (gapAt t 1) ⟨12, 10⟩ 3 = some (s', segAt t' 1) ∧ Shape s' t' ∧
        seq t' = [(⟨0, 8⟩, 1)] ++ (⟨12, 10⟩, 3) :: [(⟨16, 24⟩, 2)] ∧ ¬Ordered (seq t') :=
  let ⟨s, t, hi, hseq⟩ := exists_two_segments
  have hsup : (gapRange ⟨0, 2 ^ 64 - 1, fun v => v, fun _ v _ _ => some v, fun _ v _ => (v, v)⟩ (seq t) 1).isSupersetOf ⟨12, 10⟩ := by rw [hseq]; decide
  ⟨s, t, hi, hseq, hsup, insertWithoutMerging_inserts_ill_formed _ (L := [(⟨0, 8⟩, 1)]) (R := [(⟨16, 24⟩, 2)]) hi hseq
    (by decide) (by decide) hsup 3⟩

/-- `Split(seg, k)` of a segment `e` between `L` and `R` panics unless `k` lies strictly inside
`e`; otherwise it cuts `e` in two, keeps the invariant, and returns the two halves. -/
theorem split_checks_range {L R : List (FileRange × V)} {e : FileRange × V} (hi : Inv s t)
    (hseq : seq t = L ++ e :: R) (k : Nat) :
    (e.1.start < k → k < e.1.end →
      ∃ s' t', s.split fns (segAt t L.length) k = some (s', segAt t' L.length, segAt t' (L.length + 1)) ∧
        Inv s' t' ∧ seq t' = L ++ cutAt fns k e ++ R) ∧
    (¬(e.1.start < k ∧ k < e.1.end) → s.split fns (segAt t L.length) k = none) := by
  have hj : L.length < (seq t).length := by simp [hseq]
  obtain ⟨-, -, -, -, -, hrange, -⟩ := hi.shape.reads hj
  rw [show (seq t)[L.length] = e by simp [hseq, List.getElem_append_right]] at hrange
  refine ⟨fun h1 h2 => ?_, fun hbad => ?_⟩
  · obtain ⟨s', t', hsplit, hi', hseq'⟩ := hi.splitUnchecked fns hseq h1 h2
    exact ⟨s', t', by simp [ReclaimSet.split, hrange, FileRange.canSplitAt, FileRange.contains, h1.le, h1, h2, hsplit],
      hi', hseq'⟩
  · have hcan : e.1.canSplitAt k = false := by
      simp only [FileRange.canSplitAt, FileRange.contains, Bool.and_eq_false_iff, decide_eq_false_iff_not]
      omega
    simp [ReclaimSet.split, hrange, hcan]

/-- The one segment `[0, 8)` that `AddWithoutMerging` puts in the zero set is split at `4`. -/
theorem split_checks_range_one_segment :
    ∃ s t, (ReclaimSet.empty : ReclaimSet Nat).addWithoutMerging ⟨0, 2 ^ 64 - 1, fun v => v, fun _ v _ _ => some v, fun _ v _ => (v, v)⟩ ⟨0, 8⟩ 1 = some (s, true) ∧ Inv s t ∧
      seq t = [] ++ (⟨0, 8⟩, 1) :: [] ∧
      ((0 < 4 → 4 < 8 →
        ∃ s' t', s.split ⟨0, 2 ^ 64 - 1, fun v => v, fun _ v _ _ => some v, fun _ v _ => (v, v)⟩ (segAt t 0) 4 = some (s', segAt t' 0, segAt t' 1) ∧ Inv s' t' ∧
          seq t' = [] ++ cutAt ⟨0, 2 ^ 64 - 1, fun v => v, fun _ v _ _ => some v, fun _ v _ => (v, v)⟩ 4 (⟨0, 8⟩, 1) ++ []) ∧
      (¬(0 < 4 ∧ 4 < 8) → s.split ⟨0, 2 ^ 64 - 1, fun v => v, fun _ v _ _ => some v, fun _ v _ => (v, v)⟩ (segAt t 0) 4 = none)) := by
  obtain ⟨s, t, hadd, hi, hseq⟩ := (Inv.empty (V := Nat)).addWithoutMerging ⟨0, 2 ^ 64 - 1, fun v => v, fun _ v _ _ => some v, fun _ v _ => (v, v)⟩ (r := ⟨0, 8⟩) (by decide) 1
  have hfree : Free ⟨0, 2 ^ 64 - 1, fun v => v, fun _ v _ _ => some v, fun _ v _ => (v, v)⟩ (seq (.node 0 [] [] : Tree Nat)) ⟨0, 8⟩ := by simp [Free]
  rw [if_pos hfree] at hseq
  exact ⟨s, t, by rw [hadd, decide_eq_true hfree], hi, hseq, split_checks_range _ hi hseq 4⟩

/-- `Isolate(seg, r)` of a segment `e` between `L` and `R` cuts `e` at `r.Start` and then at
`r.End` where they lie strictly inside it, keeps the invariant, and returns the piece after the
first cut and before the second; when `r` is non-empty and overlaps `e`, that piece's range is
`Intersect` of `e`'s range and `r`. -/
theorem isolate_spec {L R : List (FileRange × V)} {e : FileRange × V} (hi : Inv s t) (hseq : seq t = L ++ e :: R)
    (r : FileRange) (hr : r.start ≤ r.end) :
    ∃ s' t', s.isolate fns (segAt t L.length) r =
        some (s', segAt t' (L.length + if e.1.start < r.start ∧ r.start < e.1.end then 1 else 0)) ∧ Inv s' t' ∧
      seq t' = L ++ (cutAt fns r.start e).flatMap (cutAt fns r.end) ++ R ∧
      (r.start < r.end → e.1.start < r.end → r.start < e.1.end →
        ((seq t')[L.length + if e.1.start < r.start ∧ r.start < e.1.end then 1 else 0]?).map (·.1) =
          some (e.1.intersect r)) := by
  have hj : L.length < (seq t).length := by simp [hseq]
  have he : e.1.start < e.1.end := hi.ordered.2 e (by simp [hseq])
  obtain ⟨-, -, -, -, -, hrange, -⟩ := hi.shape.reads hj
  rw [show (seq t)[L.length] = e by simp [hseq, List.getElem_append_right]] at hrange
  by_cases h1 : e.1.start < r.start ∧ r.start < e.1.end
  · -- `r.Start` lies inside `e`: the piece `a2` after it goes on
    rw [if_pos h1]
    have hc1 : e.1.canSplitAt r.start = true := by rw [FileRange.canSplitAt_eq]; exact decide_eq_true h1
    obtain ⟨s1, t1, hsplit1, hi1, hseq1⟩ := hi.splitUnchecked fns hseq h1.1 h1.2
    obtain ⟨a1, a2, hcut1, ha1, ha2⟩ : ∃ a1 a2 : FileRange × V, cutAt fns r.start e = [a1, a2] ∧
        a1.1 = ⟨e.1.start, r.start⟩ ∧ a2.1 = ⟨r.start, e.1.end⟩ := ⟨_, _, by rw [cutAt, if_pos h1], rfl, rfl⟩
    rw [hcut1] at hseq1
    have hseq1' : seq t1 = (L ++ [a1]) ++ a2 :: R := by simp [hseq1]
    have hj1 : L.length + 1 < (seq t1).length := by simp [hseq1]
    obtain ⟨-, -, -, -, -, hrange2, -⟩ := hi1.shape.reads hj1
    rw [show (seq t1)[L.length + 1] = a2 by simp [hseq1, List.getElem_append_right]] at hrange2
    have hfirst : cutAt fns r.end a1 = [a1] := by rw [cutAt, if_neg (by simp only [ha1]; omega)]
    by_cases h2 : r.start < r.end ∧ r.end < e.1.end
    · -- so does `r.End`: the piece `b1` before it is returned
      have h2' : a2.1.start < r.end ∧ r.end < a2.1.end := by rw [ha2]; exact h2
      have hc2 : a2.1.canSplitAt r.end = true := by rw [FileRange.canSplitAt_eq]; exact decide_eq_true h2'
      obtain ⟨s2, t2, hsplit2, hi2, hseq2⟩ := hi1.splitUnchecked fns hseq1' h2'.1 h2'.2
      obtain ⟨b1, b2, hcut2, hb1⟩ : ∃ b1 b2 : FileRange × V, cutAt fns r.end a2 = [b1, b2] ∧
          b1.1 = ⟨r.start, r.end⟩ := ⟨_, _, by rw [cutAt, if_pos h2'], by rw [ha2]⟩
      simp only [List.length_append, List.length_singleton] at hsplit2
      have hcode : s.isolate fns (segAt t L.length) r = some (s2, segAt t2 (L.length + 1)) := by
        simp only [ReclaimSet.isolate, hrange, hc1, hsplit1, hrange2, hc2, hsplit2, Option.bind_eq_bind, Option.pure_def,
          Option.some_bind, if_true, Bool.false_eq_true, if_false]
      refine ⟨s2, t2, hcode, hi2, ?_, fun _ _ _ => ?_⟩
      · rw [hseq2, hcut1, List.flatMap_cons, List.flatMap_singleton, hfirst]
        simp
      · rw [show seq t2 = L ++ a1 :: b1 :: b2 :: R by rw [hseq2, hcut2]; simp,
          List.getElem?_append_right (by omega), Nat.add_sub_cancel_left,
          FileRange.intersect_of_overlap (by omega) (by omega) he.le hr]
        simp only [List.getElem?_cons_succ, List.getElem?_cons_zero, Option.map_some', hb1, Option.some.injEq,
          FileRange.mk.injEq]
        omega
    · -- `r.End` does not lie inside `a2`, which is returned
      have hc2 : a2.1.canSplitAt r.end = false := by rw [FileRange.canSplitAt_eq, ha2]; exact decide_eq_false h2
      have hcode : s.isolate fns (segAt t L.length) r = some (s1, segAt t1 (L.length + 1)) := by
        simp only [ReclaimSet.isolate, hrange, hc1, hsplit1, hrange2, hc2, Option.bind_eq_bind, Option.pure_def,
          Option.some_bind, if_true, Bool.false_eq_true, if_false]
      refine ⟨s1, t1, hcode, hi1, ?_, fun hpos _ _ => ?_⟩
      · rw [hseq1, hcut1, List.flatMap_cons, List.flatMap_singleton, hfirst, cutAt, if_neg (by rw [ha2]; exact h2)]
        simp
      · rw [show seq t1 = L ++ a1 :: a2 :: R by simp [hseq1], List.getElem?_append_right (by omega),
          Nat.add_sub_cancel_left, FileRange.intersect_of_overlap (by omega) (by omega) he.le hr]
        simp only [List.getElem?_cons_succ, List.getElem?_cons_zero, Option.map_some', ha2, Option.some.injEq,
          FileRange.mk.injEq]
        omega
  · -- `r.Start` does not lie inside `e`
    rw [if_neg h1, Nat.add_zero]
    have hc1 : e.1.canSplitAt r.start = false := by rw [FileRange.canSplitAt_eq]; exact decide_eq_false h1
    have hnil : cutAt fns r.start e = [e] := by rw [cutAt, if_neg h1]
    by_cases h2 : e.1.start < r.end ∧ r.end < e.1.end
    · -- `r.End` lies inside `e`: the piece `b1` before it is returned
      have hc2 : e.1.canSplitAt r.end = true := by rw [FileRange.canSplitAt_eq]; exact decide_eq_true h2
      obtain ⟨s2, t2, hsplit2, hi2, hseq2⟩ := hi.splitUnchecked fns hseq h2.1 h2.2
      obtain ⟨b1, b2, hcut2, hb1⟩ : ∃ b1 b2 : FileRange × V, cutAt fns r.end e = [b1, b2] ∧
          b1.1 = ⟨e.1.start, r.end⟩ := ⟨_, _, by rw [cutAt, if_pos h2], rfl⟩
      have hcode : s.isolate fns (segAt t L.length) r = some (s2, segAt t2 L.length) := by
        simp only [ReclaimSet.isolate, hrange, hc1, hc2, hsplit2, Option.bind_eq_bind, Option.pure_def, Option.some_bind,
          if_true, Bool.false_eq_true, if_false]
      refine ⟨s2, t2, hcode, hi2, by rw [hseq2, hnil, List.flatMap_singleton], fun _ _ h3 => ?_⟩
      rw [show seq t2 = L ++ b1 :: b2 :: R by rw [hseq2, hcut2]; simp, List.getElem?_append_right le_rfl,
        Nat.sub_self, FileRange.intersect_of_overlap (by omega) (by omega) he.le hr]
      simp only [List.getElem?_cons_zero, Option.map_some', hb1, Option.some.injEq, FileRange.mk.injEq]
      omega
    · -- neither lies inside `e`, which is returned as it is
      have hc2 : e.1.canSplitAt r.end = false := by rw [FileRange.canSplitAt_eq]; exact decide_eq_false h2
      have hcode : s.isolate fns (segAt t L.length) r = some (s, segAt t L.length) := by
        simp only [ReclaimSet.isolate, hrange, hc1, hc2, Option.bind_eq_bind, Option.pure_def, Option.some_bind,
          Bool.false_eq_true, if_false]
      refine ⟨s, t, hcode, hi, ?_, fun _ h4 h3 => ?_⟩
      · rw [hnil, List.flatMap_singleton, cutAt, if_neg h2, hseq]
        simp
      · rw [hseq, List.getElem?_append_right le_rfl, Nat.sub_self, FileRange.intersect_of_overlap (by omega) (by omega)
          he.le hr]
        simp only [List.getElem?_cons_zero, Option.map_some', Option.some.injEq]
        show FileRange.mk e.1.start e.1.end = _
        rw [FileRange.mk.injEq]
        omega

/-- `Isolate` of the one segment `[0, 8)` with `[2, 5)` returns the piece `[2, 5)`. -/
theorem isolate_spec_one_segment :
    ∃ s t, (ReclaimSet.empty : ReclaimSet Nat).addWithoutMerging ⟨0, 2 ^ 64 - 1, fun v => v, fun _ v _ _ => some v, fun _ v _ => (v, v)⟩ ⟨0, 8⟩ 1 = some (s, true) ∧ Inv s t ∧
      seq t = [] ++ (⟨0, 8⟩, 1) :: [] ∧ 2 ≤ 5 ∧
      ∃ s' t', s.isolate ⟨0, 2 ^ 64 - 1, fun v => v, fun _ v _ _ => some v, fun _ v _ => (v, v)⟩ (segAt t 0) ⟨2, 5⟩ = some (s', segAt t' (0 + if 0 < 2 ∧ 2 < 8 then 1 else 0)) ∧
        Inv s' t' ∧
        seq t' = [] ++ (cutAt ⟨0, 2 ^ 64 - 1, fun v => v, fun _ v _ _ => some v, fun _ v _ => (v, v)⟩ 2 (⟨0, 8⟩, 1)).flatMap (cutAt ⟨0, 2 ^ 64 - 1, fun v => v, fun _ v _ _ => some v, fun _ v _ => (v, v)⟩ 5) ++ [] ∧
        (2 < 5 → 0 < 5 → 2 < 8 →
          ((seq t')[0 + if 0 < 2 ∧ 2 < 8 then 1 else 0]?).map (·.1) = some (FileRange.intersect ⟨0, 8⟩ ⟨2, 5⟩)) := by
  obtain ⟨s, t, hadd, hi, hseq⟩ := (Inv.empty (V := Nat)).addWithoutMerging ⟨0, 2 ^ 64 - 1, fun v => v, fun _ v _ _ => some v, fun _ v _ => (v, v)⟩ (r := ⟨0, 8⟩) (by decide) 1
  have hfree : Free ⟨0, 2 ^ 64 - 1, fun v => v, fun _ v _ _ => some v, fun _ v _ => (v, v)⟩ (seq (.node 0 [] [] : Tree Nat)) ⟨0, 8⟩ := by simp [Free]
  rw [if_pos hfree] at hseq
  exact ⟨s, t, by rw [hadd, decide_eq_true hfree], hi, hseq, by decide, isolate_spec _ hi hseq ⟨2, 5⟩ (by decide)⟩

end Tree

end Gvisor.Segment
