import Mathlib
import Gvisor.Segment.Lookup
import Gvisor.Segment.Ops

/-!
# The span queries count covered keys

`IsEmptyRange` answers with one `Find` and a comparison against the end of the gap it stops
at, `SpanRange` walks the segments from `LowerBoundSegment` and adds up their intersections
with the range, and `Span` walks all segments and adds up their lengths, both sums in
`uint64`. For every set that holds the B-tree invariant, with keys below `MaxKey < 2^64`,
the three agree, for every well-formed range `r`, with the keys the segments cover
(`span_queries_agree`): `SpanRange(r)` is
the number of keys of `r` that some segment contains, `IsEmptyRange(r)` holds exactly when
that number is zero, and `Span()` is the number of all covered keys, which stays below `2^64`,
so neither sum wraps.

The loops run on `loopFuel`, which the segments never exhaust: a node holds at most
`maxDegree - 1` segments and the nodes have distinct addresses below `fresh`
(`Inv.length_seq_lt_loopFuel`). On the sorted list `seq t` the loops are `spanList`
(`Inv.spanLoop_segAt`), which adds up the measures while no sum reaches `2^64`
(`spanList_eq_sum`).

Scope. A range's covered keys are counted as a `Finset`, `coveredKeys`: this is the measure the
queries are compared with, not a translation of the source. An ill-formed range, `Start > End`,
has a wrapped non-zero `Length`: `SpanRange` counts no key of it, while `IsEmptyRange` looks up
its start and answers false when a segment holds it, so the two agree only on well-formed ranges.
-/

set_option autoImplicit false

namespace Gvisor.Segment

variable {V : Type}

/-! ### Covered keys -/

/-- The keys that some segment of `l` contains. -/
def coveredKeys (l : List (FileRange × V)) : Finset Nat :=
  l.foldr (fun e acc => Finset.Ico e.1.start e.1.end ∪ acc) ∅

@[simp] theorem coveredKeys_nil : coveredKeys ([] : List (FileRange × V)) = ∅ := rfl

@[simp] theorem coveredKeys_cons (e : FileRange × V) (l : List (FileRange × V)) :
    coveredKeys (e :: l) = Finset.Ico e.1.start e.1.end ∪ coveredKeys l := rfl

theorem mem_coveredKeys {l : List (FileRange × V)} {k : Nat} :
    k ∈ coveredKeys l ↔ ∃ e ∈ l, e.1.start ≤ k ∧ k < e.1.end := by
  induction l with
  | nil => simp
  | cons e l ih => simp [ih]

theorem FileRange.length_intersect (e r : FileRange) :
    (e.intersect r).length = min e.end r.end - max e.start r.start := by
  simp only [FileRange.intersect]
  rw [FileRange.length_of_le (by dsimp only; split_ifs <;> omega)]
  dsimp only
  split_ifs <;> omega

/-- The keys a range shares with another: those of their intersection. -/
theorem card_Ico_inter_Ico (r e : FileRange) :
    (Finset.Ico r.start r.end ∩ Finset.Ico e.start e.end).card = (e.intersect r).length := by
  rw [Finset.Ico_inter_Ico, Nat.card_Ico, FileRange.length_intersect, Nat.max_comm, Nat.min_comm]

theorem Ordered.tail {e : FileRange × V} {l : List (FileRange × V)} (h : Ordered (e :: l)) : Ordered l :=
  h.sublist (List.sublist_cons_self e l)

theorem Ordered.starts {l : List (FileRange × V)} (h : Ordered l) :
    l.Pairwise fun x y => x.1.start ≤ y.1.start :=
  h.1.imp_of_mem fun hx _ hxy => Nat.le_trans (Nat.le_of_lt (h.2 _ hx)) hxy

theorem Ordered.disjoint_coveredKeys {e : FileRange × V} {l : List (FileRange × V)} (h : Ordered (e :: l)) :
    Disjoint (Finset.Ico e.1.start e.1.end) (coveredKeys l) :=
  Finset.disjoint_left.2 fun k hk hk' => by
    obtain ⟨x, hx, hx1, -⟩ := mem_coveredKeys.1 hk'
    have := (List.pairwise_cons.1 h.1).1 x hx
    rw [Finset.mem_Ico] at hk
    omega

/-- Disjoint segments cover as many keys as their lengths add up to. -/
theorem Ordered.card_coveredKeys : ∀ {l : List (FileRange × V)}, Ordered l →
    (coveredKeys l).card = (l.map fun e => e.1.length).sum
  | [], _ => rfl
  | e :: l, h => by
    rw [coveredKeys_cons, Finset.card_union_of_disjoint h.disjoint_coveredKeys, Nat.card_Ico,
      h.tail.card_coveredKeys, List.map_cons, List.sum_cons, FileRange.length_of_le (h.2 e (List.mem_cons_self _ _)).le]

/-- Disjoint segments cover as many keys of `r` as their intersections with `r` hold. -/
theorem Ordered.card_inter_coveredKeys (r : FileRange) : ∀ {l : List (FileRange × V)}, Ordered l →
    (Finset.Ico r.start r.end ∩ coveredKeys l).card = (l.map fun e => (e.1.intersect r).length).sum
  | [], _ => by simp
  | e :: l, h => by
    rw [coveredKeys_cons, Finset.inter_union_distrib_left,
      Finset.card_union_of_disjoint
        (h.disjoint_coveredKeys.mono Finset.inter_subset_right Finset.inter_subset_right),
      card_Ico_inter_Ico, h.tail.card_inter_coveredKeys r, List.map_cons, List.sum_cons]

/-- Segments that end at or below `bound` cover at most `bound` keys. -/
theorem card_coveredKeys_le {l : List (FileRange × V)} {bound : Nat} (h : ∀ e ∈ l, e.1.end ≤ bound) :
    (coveredKeys l).card ≤ bound := by
  have hsub : coveredKeys l ⊆ Finset.range bound := fun k hk => by
    obtain ⟨e, he, -, hk⟩ := mem_coveredKeys.1 hk
    exact Finset.mem_range.2 (Nat.lt_of_lt_of_le hk (h e he))
  simpa using Finset.card_le_card hsub

/-! ### The span loops on the sorted list -/

/-- The loop of `Span` and `SpanRange` over a list of segments in key order. -/
def spanList (cont : Nat → Bool) (measure : FileRange → Nat) : List (FileRange × V) → Nat → Nat
  | [], sz => sz
  | e :: l, sz => if cont e.1.start then spanList cont measure l ((sz + measure e.1) % 2 ^ 64) else sz

/-- Over segments sorted by start, where `cont` fails from some start on and every segment it
fails at measures zero, the loop adds up all measures, as long as the sum stays below `2^64`. -/
theorem spanList_eq_sum {cont : Nat → Bool} {measure : FileRange → Nat}
    (hmono : ∀ x y, x ≤ y → cont y = true → cont x = true) :
    ∀ (l : List (FileRange × V)) (sz : Nat), l.Pairwise (fun x y => x.1.start ≤ y.1.start) →
      (∀ e ∈ l, cont e.1.start = false → measure e.1 = 0) → sz + (l.map fun e => measure e.1).sum < 2 ^ 64 →
      spanList cont measure l sz = sz + (l.map fun e => measure e.1).sum
  | [], sz, _, _, _ => by simp [spanList]
  | e :: l, sz, hp, hz, hfit => by
    rw [List.pairwise_cons] at hp
    simp only [List.map_cons, List.sum_cons] at hfit ⊢
    rw [spanList]
    cases hc : cont e.1.start
    · have hrest : (l.map fun e => measure e.1).sum = 0 := List.sum_eq_zero fun m hm => by
        obtain ⟨x, hx, rfl⟩ := List.mem_map.1 hm
        refine hz x (List.mem_cons_of_mem _ hx) (Bool.eq_false_iff.2 fun hx' => ?_)
        rw [hmono _ _ (hp.1 x hx) hx'] at hc
        cases hc
      simp [hz e (List.mem_cons_self _ _) hc, hrest]
    · rw [if_pos rfl, Nat.mod_eq_of_lt (by omega),
        spanList_eq_sum hmono l _ hp.2 (fun x hx => hz x (List.mem_cons_of_mem _ hx)) (by omega)]
      omega

namespace Tree

/-! ### The loops' fuel -/

theorem Filled.segs_le {t : Tree V} (h : Filled t) : t.segs.length ≤ maxDegree - 1 := by
  obtain ⟨a, g, ks⟩ := t
  exact (filled_node.mp h).2.1

theorem Filled.segs_pos {t : Tree V} (h : Filled t) : t.segs ≠ [] := by
  obtain ⟨a, g, ks⟩ := t
  have := (filled_node.mp h).1
  simp only [minDegree] at this
  exact List.ne_nil_of_length_pos (show 0 < g.length by omega)

theorem length_segsOf_weave_le (a : Nat) : ∀ (i : Nat) (g : List (FileRange × V)) (ks : List (Tree V)),
    (∀ k ∈ ks, (seq k).length ≤ (maxDegree - 1) * (ids k).length) →
      (segsOf (weave a i g ks)).length ≤ g.length + (maxDegree - 1) * (idsList ks).length
  | i, x :: g, k :: ks, h => by
    have hk := h k (List.mem_cons_self _ _)
    have := length_segsOf_weave_le a (i + 1) g ks fun k' hk' => h k' (List.mem_cons_of_mem _ hk')
    simp only [weave, segsOf_seg, segsOf_append, List.length_cons, List.length_append, idsList,
      ← seq_eq_segsOf, Nat.mul_add]
    omega
  | _, [], _, _ => by simp [weave]
  | _, _ :: _, [], _ => by simp [weave]

/-- A tree whose nodes hold at most `maxDegree - 1` segments holds at most `maxDegree - 1` per
node address. -/
theorem length_seq_le : ∀ (h : Nat) (t : Tree V), HasHeight h t → t.segs.length ≤ maxDegree - 1 →
    (∀ k ∈ t.kids, Filled k) → (seq t).length ≤ (maxDegree - 1) * (ids t).length
  | 0, node a g kids, ht, hg, _ => by
    cases (ht : kids = [])
    simpa [seq_eq_segsOf, ids, idsList] using hg
  | h + 1, node a g [], ht, _, _ => by simp [HasHeight] at ht
  | h + 1, node a g (k :: ks), ht, hg, hf => by
    have hks := (hasHeight_succ.mp ht).2
    have hsub : ∀ k' ∈ k :: ks, (seq k').length ≤ (maxDegree - 1) * (ids k').length := fun k' hk' =>
      length_seq_le h k' (hks k' hk') (hf k' hk').segs_le fun _ hc => (hf k' hk').kid hc
    have hw := length_segsOf_weave_le a 0 g ks fun k' hk' => hsub k' (List.mem_cons_of_mem _ hk')
    have hk := hsub k (List.mem_cons_self _ _)
    rw [seq_eq_segsOf, walk, segsOf_append, List.length_append, ← seq_eq_segsOf]
    simp only [ids, idsList, List.length_cons, List.length_append, Nat.mul_add] at hw hk ⊢
    simp only [segs_node] at hg
    omega

variable {s : ReclaimSet V} {t : Tree V}

/-- The segments never exhaust the fuel of the loops over them. -/
theorem Inv.length_seq_lt_loopFuel (hi : Inv s t) : (seq t).length < s.loopFuel := by
  obtain ⟨h, ht, -⟩ := hi.height
  have hseq := length_seq_le h t ht hi.rootSize hi.filled
  have hids : (ids t).length ≤ s.fresh := by
    simpa using (hi.nodup.subperm fun b hb => List.mem_range.2 (hi.fresh b hb)).length_le
  rw [show maxDegree - 1 = 19 from rfl] at hseq
  simp only [ReclaimSet.loopFuel, maxDegree, minDegree]
  omega

/-! ### The loops on the tree -/

/-- A tree whose first leaf holds a segment starts with that leaf's first gap and segment. -/
theorem walk_eq_gap_seg : ∀ (h : Nat) (t : Tree V), HasHeight h t → t.segs ≠ [] → (∀ k ∈ t.kids, Filled k) →
    ∃ b e rest, walk t = .gap b 0 :: .seg b 0 e :: rest
  | 0, node a g kids, ht, hg, _ => by
    cases (ht : kids = [])
    obtain ⟨x, g, rfl⟩ := List.exists_cons_of_ne_nil hg
    exact ⟨a, x, leafWalk a 1 g, by rw [walk_leaf]; rfl⟩
  | h + 1, node a g [], ht, _, _ => by simp [HasHeight] at ht
  | h + 1, node a g (k :: ks), ht, _, hf => by
    have hk := hf k (List.mem_cons_self _ _)
    obtain ⟨b, e, rest, hw⟩ := walk_eq_gap_seg h k ((hasHeight_succ.mp ht).2 k (List.mem_cons_self _ _))
      hk.segs_pos fun _ hc => hk.kid hc
    exact ⟨b, e, rest ++ weave a 0 g ks, by rw [walk, hw]; rfl⟩

/-- `FirstSegment` returns the iterator of the first segment. -/
theorem Inv.firstSegmentOfSet (hi : Inv s t) : s.firstSegmentOfSet = some (segAt t 0) := by
  have hnr : (s.nodes 0).nrSegments = t.segs.length := by rw [← hi.root]; exact hi.rep.nrSegments
  by_cases hg : t.segs = []
  · have hseq : seq t = [] := by
      obtain ⟨a, g, kids⟩ := t
      cases (hg : g = [])
      cases (hi.rootEmpty rfl : kids = [])
      rfl
    simp [ReclaimSet.firstSegmentOfSet, hnr, hg, segAt_of_le (by simp [hseq] : (seq t).length ≤ 0)]
  · obtain ⟨h, ht, hf⟩ := hi.height
    obtain ⟨b, e, rest, hw⟩ := walk_eq_gap_seg h t ht hg hi.filled
    obtain ⟨F, hF⟩ : ∃ F, s.fresh = F + h + 1 := ⟨s.fresh - h - 1, by omega⟩
    have hd := (descend_first h t none hi.rep ht F b 0 (by rw [hw]; rfl)).1
    rw [hi.root, ← hF] at hd
    have hs : segAt t 0 = ⟨some b, 0⟩ := segAt_of_getElem? (by simp [segIters, entries, hw])
    simp [ReclaimSet.firstSegmentOfSet, ReclaimSet.firstSegment, hnr, hg, hd, hs]

/-- The span loop from the `j`th segment, with fuel left for the segments from there on, runs
`spanList` over them. -/
theorem Inv.spanLoop_segAt (hi : Inv s t) (cont : Nat → Bool) (measure : FileRange → Nat) :
    ∀ (n j sz fuel : Nat), j + n = (seq t).length → n < fuel →
      ReclaimSet.spanLoop cont measure fuel s (segAt t j) sz = some (spanList cont measure ((seq t).drop j) sz)
  | 0, j, sz, fuel + 1, hj, _ => by
    rw [Nat.add_zero] at hj
    subst hj
    simp [ReclaimSet.spanLoop, segAt_of_le le_rfl, ReclaimIterator.ok, spanList]
  | n + 1, j, sz, fuel + 1, hj, hn => by
    have hjl : j < (seq t).length := by omega
    obtain ⟨b, k, hs, -, -, hr, -⟩ := hi.shape.reads hjl
    have hnext := (hi.shape.seg_steps hjl).1
    have ih := hi.spanLoop_segAt cont measure n (j + 1) ((sz + measure (seq t)[j].1) % 2 ^ 64) fuel
      (by omega) (by omega)
    rw [hs] at hr hnext
    rw [List.drop_eq_getElem_cons hjl, spanList, hs]
    cases hc : cont (seq t)[j].1.start
    · simp [ReclaimSet.spanLoop, ReclaimIterator.ok, ReclaimIterator.start, hr, hc]
    · simpa [ReclaimSet.spanLoop, ReclaimIterator.ok, ReclaimIterator.start, hr, hnext, hc] using ih
  | _, _, _, 0, _, h => absurd h (Nat.not_lt_zero _)

/-! ### The queries -/

theorem ReclaimGapIterator.end_of_range {gap : ReclaimGapIterator} {fns : SetFunctions V} {R : FileRange}
    (h : gap.range fns s = some R) : gap.end fns s = some R.end := by
  simp only [ReclaimGapIterator.range] at h
  cases hs : gap.start fns s <;> cases he : gap.end fns s <;> simp [hs, he] at h
  rw [← h]

theorem Inv.span_eq (hi : Inv s t) : s.span = some (spanList (fun _ => true) FileRange.length (seq t) 0) := by
  simp [ReclaimSet.span, hi.firstSegmentOfSet,
    hi.spanLoop_segAt _ _ (seq t).length 0 0 s.loopFuel (Nat.zero_add _) hi.length_seq_lt_loopFuel]

/-- With the segments split at the first that ends after `r.start`, `SpanRange(r)` runs its loop
over the segments from there on. -/
theorem Inv.spanRange_eq (hi : Inv s t) {r : FileRange} (hr : r.length ≠ 0) {L R : List (FileRange × V)}
    (hseq : seq t = L ++ R) (hL : ∀ e ∈ L, e.1.end ≤ r.start) (hR : ∀ e ∈ R, r.start < e.1.end) :
    s.spanRange r = some (spanList (· < r.end) (fun k => (k.intersect r).length) R 0) := by
  have hE : firstEndAfter (seq t) r.start = L.length := by
    rw [firstEndAfter, hseq]
    exact findIdx_split (fun x hx => by simpa using hL x hx)
      (fun x hx => by simpa using hR x (List.mem_of_mem_head? hx))
  have hloop := hi.spanLoop_segAt (· < r.end) (fun k => (k.intersect r).length) R.length L.length 0
    s.loopFuel (by rw [hseq, List.length_append]) (Nat.lt_of_le_of_lt (by simp [hseq]) hi.length_seq_lt_loopFuel)
  rw [hseq, List.drop_left] at hloop
  simp [ReclaimSet.spanRange, hr, (hi.bounds r.start).1, hE, hloop]

/-- `Span()` counts the covered keys, when they are fewer than `2^64`. -/
theorem Inv.span_count (hi : Inv s t) (hfit : (coveredKeys (seq t)).card < 2 ^ 64) :
    s.span = some (coveredKeys (seq t)).card := by
  rw [hi.ordered.card_coveredKeys] at hfit ⊢
  rw [hi.span_eq, spanList_eq_sum (fun _ _ _ _ => rfl) _ _ hi.ordered.starts (fun _ _ h => by cases h)
    (by rwa [Nat.zero_add]), Nat.zero_add]

/-- Segments that each end at or before `r.start` or start at or after `r.end` share no key
with `r`. -/
theorem sum_intersect_eq_zero {r : FileRange} {L : List (FileRange × V)}
    (hL : ∀ e ∈ L, e.1.end ≤ r.start ∨ r.end ≤ e.1.start) : (L.map fun e => (e.1.intersect r).length).sum = 0 :=
  List.sum_eq_zero fun m hm => by
    obtain ⟨e, he, rfl⟩ := List.mem_map.1 hm
    have := hL e he
    rw [FileRange.length_intersect]
    omega

/-- With the segments split after the last that ends at or before `r.start`, the keys of `r`
covered are those the later segments share with it. -/
theorem Inv.card_inter_coveredKeys_of_split (hi : Inv s t) {r : FileRange} {L R : List (FileRange × V)}
    (hseq : seq t = L ++ R) (hL : ∀ e ∈ L, e.1.end ≤ r.start) :
    (Finset.Ico r.start r.end ∩ coveredKeys (seq t)).card = (R.map fun e => (e.1.intersect r).length).sum := by
  rw [hi.ordered.card_inter_coveredKeys r, hseq, List.map_append, List.sum_append,
    sum_intersect_eq_zero fun e he => .inl (hL e he), Nat.zero_add]

/-- `SpanRange(r)` counts the covered keys of `r`, for `r` below `2^64`. -/
theorem Inv.spanRange_count (hi : Inv s t) {r : FileRange} (hr : r.end < 2 ^ 64) :
    s.spanRange r = some (Finset.Ico r.start r.end ∩ coveredKeys (seq t)).card := by
  by_cases h0 : r.length = 0
  · rw [Finset.Ico_eq_empty_of_le (FileRange.end_le_of_length_eq_zero h0)]
    simp [ReclaimSet.spanRange, h0]
  obtain ⟨L, R, hseq, hL, hR, -⟩ := hi.find_at r.start
  have hle : (Finset.Ico r.start r.end ∩ coveredKeys (seq t)).card ≤ r.end - r.start :=
    Nat.le_trans (Finset.card_le_card Finset.inter_subset_left) (Nat.card_Ico _ _).le
  have hcount := hi.card_inter_coveredKeys_of_split hseq hL
  have hoR : Ordered R := (hseq ▸ hi.ordered).sublist (List.sublist_append_right L R)
  rw [hcount, hi.spanRange_eq h0 hseq hL hR,
    spanList_eq_sum (fun x y hxy h => by simp only [decide_eq_true_eq] at h ⊢; omega) R 0 hoR.starts
      (fun e _ h => by simp only [decide_eq_false_iff_not, Nat.not_lt] at h; rw [FileRange.length_intersect]; omega)
      (by omega), Nat.zero_add]

/-- `IsEmptyRange(r)` holds exactly when no key of `r` is covered, for `r` ending at or below
`MaxKey`. -/
theorem Inv.isEmptyRange_count (hi : Inv s t) (fns : SetFunctions V) {r : FileRange} (hwf : r.start ≤ r.end)
    (hr : r.end ≤ fns.maxKey) :
    s.isEmptyRange fns r = some (decide ((Finset.Ico r.start r.end ∩ coveredKeys (seq t)).card = 0)) := by
  by_cases h0 : r.length = 0
  · rw [Finset.Ico_eq_empty_of_le (FileRange.end_le_of_length_eq_zero h0)]
    simp [ReclaimSet.isEmptyRange, h0]
  have hlt : r.start < r.end := Nat.lt_of_not_le (mt (FileRange.length_eq_zero_iff hwf).2 h0)
  obtain ⟨L, R, hseq, hL, hR, hcase⟩ := hi.find_at r.start
  have hcount := hi.card_inter_coveredKeys_of_split hseq hL
  rw [hcount]
  rcases hcase with ⟨e, R', rfl, he, hfind⟩ | ⟨hR', hfind⟩
  · -- `Find` stops at the segment containing `r.start`, which `r` shares a key with
    have hpos : 0 < (e.1.intersect r).length := by
      have := hR e (List.mem_cons_self _ _)
      rw [FileRange.length_intersect]
      omega
    simp [ReclaimSet.isEmptyRange, h0, hfind, ReclaimGapIterator.ok]
    omega
  · -- `Find` stops at the gap before the first segment that starts after `r.start`
    have hj : L.length ≤ (seq t).length := by simp [hseq]
    obtain ⟨l, i, hg, -⟩ := hi.shape.gapAt_mem hj
    have hend := ReclaimGapIterator.end_of_range (hi.gap_range fns hj)
    rw [hseq, gapRange_split, hg] at hend
    simp [ReclaimSet.isEmptyRange, h0, hfind, hg, ReclaimGapIterator.ok]
    rw [hend]
    cases R with
    | nil => simp [hr]
    | cons e R' =>
      have ho : Ordered (e :: R') := (hseq ▸ hi.ordered).sublist (List.sublist_append_right L _)
      have hs := hR' e (List.mem_cons_self _ _)
      have he := ho.2 e (List.mem_cons_self _ _)
      have hstart : ∀ x ∈ e :: R', e.1.start ≤ x.1.start := fun x hx =>
        (List.mem_cons.1 hx).elim (fun h => h ▸ Nat.le_refl _) ((List.pairwise_cons.1 ho.starts).1 x)
      simp only [Option.some_bind, List.head?_cons, Option.map_some', Option.getD_some]
      refine congrArg some (decide_eq_decide.2 ⟨fun h => sum_intersect_eq_zero fun x hx =>
        .inr (Nat.le_trans h (hstart x hx)), fun h => ?_⟩)
      rw [List.map_cons, List.sum_cons, FileRange.length_intersect] at h
      omega

/-- The three span queries agree with the keys the segments cover, for keys below `MaxKey`
and `MaxKey` below `2^64`: `IsEmptyRange(r)` holds exactly when `SpanRange(r)` is zero, which
is when no key of `r` is covered, and the sums of `SpanRange` and `Span` count covered keys
without wrapping. -/
theorem span_queries_agree (hi : Inv s t) (fns : SetFunctions V) (hmax : fns.maxKey < 2 ^ 64)
    (hseg : ∀ e ∈ seq t, e.1.end ≤ fns.maxKey) (r : FileRange) (hwf : r.start ≤ r.end) (hr : r.end ≤ fns.maxKey) :
    s.isEmptyRange fns r = some (decide ((Finset.Ico r.start r.end ∩ coveredKeys (seq t)).card = 0)) ∧
      s.spanRange r = some (Finset.Ico r.start r.end ∩ coveredKeys (seq t)).card ∧
      s.span = some (coveredKeys (seq t)).card ∧ (coveredKeys (seq t)).card < 2 ^ 64 :=
  have htotal := Nat.lt_of_le_of_lt (card_coveredKeys_le hseg) hmax
  ⟨hi.isEmptyRange_count fns hwf hr, hi.spanRange_count (Nat.lt_of_le_of_lt hr hmax), hi.span_count htotal, htotal⟩

/-- On the set of the two segments `[0, 8)` and `[16, 24)`, the range `[4, 20)` shares keys with
both, and the queries count them. -/
theorem span_queries_agree_two_segments :
    ∃ (s : ReclaimSet Nat) (t : Tree Nat), Inv s t ∧ seq t = [(⟨0, 8⟩, 1), (⟨16, 24⟩, 2)] ∧
      s.isEmptyRange ⟨0, 2 ^ 64 - 1, fun v => v, fun _ v _ _ => some v, fun _ v _ => (v, v)⟩ ⟨4, 20⟩ = some (decide ((Finset.Ico 4 20 ∩ coveredKeys (seq t)).card = 0)) ∧
      s.spanRange ⟨4, 20⟩ = some (Finset.Ico 4 20 ∩ coveredKeys (seq t)).card ∧
      s.span = some (coveredKeys (seq t)).card ∧ (coveredKeys (seq t)).card < 2 ^ 64 :=
  let ⟨s, t, hi, hseq⟩ := exists_two_segments
  ⟨s, t, hi, hseq, span_queries_agree hi _ (by decide) (by simp [hseq]) ⟨4, 20⟩ (by decide) (by decide)⟩

end Tree

end Gvisor.Segment
