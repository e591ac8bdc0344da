import Gvisor.Segment.Merging

/-!
# Client runs of the reclaim set

The operations a client runs on the set by key, and what they do to the sorted list of its
segments.

`Op.apply` is the sorted-list model of a client: `AddWithoutMerging(r, v)` inserts `r` where it
belongs when it overlaps no segment and ends at or below the next segment or `MaxKey`
(`Free`); `Remove` of the segment `FindSegment(k)` finds drops the segment that contains `k`;
`SplitAt(k)` cuts it at `k`; `Merge` of that segment and the next replaces the two by
`mergeResult`; `MergeAll` and `MergeRange` run the merge loop `mergeRun`; `MergeAdjacent(r)`
merges the segment that contains `r.Start` with the one before it (`mergeBefore`) and then the
segment that contains `r.End - 1` with the one after it; and `RemoveAll` empties the list.
`Op.run` is the same client on the heap, through the code's own lookups and operations, and
`run_refines` follows a whole run of it: from every set that satisfies the invariant, every
sequence of operations whose ranges are non-empty runs without a panic, keeps the invariant,
and leaves the list the model gives. `Inv.run` is one step, one lemma per operation.
-/

set_option autoImplicit false

namespace Gvisor.Segment

variable {V : Type}

/-- `CanSplitAt(x)`: `x` lies strictly inside the range. -/
theorem FileRange.canSplitAt_eq (r : FileRange) (x : Nat) : r.canSplitAt x = decide (r.start < x ∧ x < r.end) := by
  rw [Bool.eq_iff_iff]
  simp only [FileRange.canSplitAt, FileRange.contains, Bool.and_eq_true, decide_eq_true_eq]
  omega

/-! ### The sorted-list model -/

namespace SegList

/-- `r` overlaps no segment of `l`, and ends at or below a later segment or `MaxKey`: what
`AddWithoutMerging` asks before it inserts. -/
def Free (fns : SetFunctions V) (l : List (FileRange × V)) (r : FileRange) : Prop :=
  (∀ e ∈ l, e.1.end ≤ r.start ∨ r.end ≤ e.1.start) ∧ ((∃ e ∈ l, r.end ≤ e.1.start) ∨ r.end ≤ fns.maxKey)

instance (fns : SetFunctions V) (l : List (FileRange × V)) (r : FileRange) : Decidable (Free fns l r) := by
  unfold Free
  infer_instance

/-- `(r, v)` inserted after the segments that end at or before `r.Start`. -/
def insertSorted (l : List (FileRange × V)) (r : FileRange) (v : V) : List (FileRange × V) :=
  l.filter (fun e => e.1.end ≤ r.start) ++ (r, v) :: l.filter (fun e => ¬e.1.end ≤ r.start)

/-- The segment that contains `k` and the one after it replaced by `mergeResult`, when it
is some. -/
def mergeAt (fns : SetFunctions V) (k : Nat) : List (FileRange × V) → List (FileRange × V)
  | x :: y :: l =>
    if x.1.start ≤ k ∧ k < x.1.end then
      match mergeResult fns x y with
      | some e => e :: l
      | none => x :: y :: l
    else x :: mergeAt fns k (y :: l)
  | l => l

/-- The segment that contains `k` and the one before it replaced by `mergeResult`, when it
is some. -/
def mergeBefore (fns : SetFunctions V) (k : Nat) : List (FileRange × V) → List (FileRange × V)
  | x :: y :: l =>
    if y.1.start ≤ k ∧ k < y.1.end then
      match mergeResult fns x y with
      | some e => e :: l
      | none => x :: y :: l
    else x :: mergeBefore fns k (y :: l)
  | l => l

/-- The two halves of a segment cut at `k`, with the values of `Split`, if `k` lies strictly
inside it. -/
def cutAt (fns : SetFunctions V) (k : Nat) (e : FileRange × V) : List (FileRange × V) :=
  if e.1.start < k ∧ k < e.1.end then
    [(⟨e.1.start, k⟩, (fns.split e.1 e.2 k).1), (⟨k, e.1.end⟩, (fns.split e.1 e.2 k).2)]
  else [e]

/-- A client's operation on the set, by key. -/
inductive Op (V : Type) where
  /-- `AddWithoutMerging(r, v)`. -/
  | addWithoutMerging (r : FileRange) (v : V)
  /-- `Remove(FindSegment(k))`, if it finds one. -/
  | remove (k : Nat)
  /-- `SplitAt(k)`. -/
  | splitAt (k : Nat)
  /-- `Merge(seg, seg.NextSegment())` for `seg = FindSegment(k)`, if both are segments. -/
  | merge (k : Nat)
  /-- `MergeAll()`. -/
  | mergeAll
  /-- `MergeRange(r)`. -/
  | mergeRange (r : FileRange)
  /-- `MergeAdjacent(r)`. -/
  | mergeAdjacent (r : FileRange)
  /-- `RemoveAll()`. -/
  | removeAll

/-- The operations that do not panic: `AddWithoutMerging` of an empty range does. -/
def Op.Valid : Op V → Prop
  | .addWithoutMerging r _ => r.start < r.end
  | _ => True

/-- What an operation does to the sorted list of segments. -/
def Op.apply (fns : SetFunctions V) : Op V → List (FileRange × V) → List (FileRange × V)
  | .addWithoutMerging r v, l => if Free fns l r then insertSorted l r v else l
  | .remove k, l => l.filter fun e => ¬(e.1.start ≤ k ∧ k < e.1.end)
  | .splitAt k, l => l.flatMap (cutAt fns k)
  | .merge k, l => mergeAt fns k l
  | .mergeAll, l => mergeFrom fns (fun _ => true) l
  | .mergeRange r, l =>
    l.take (firstEndAfter l r.start) ++ mergeFrom fns (·.start < r.end) (l.drop (firstEndAfter l r.start))
  | .mergeAdjacent r, l => mergeAt fns ((r.end + 2 ^ 64 - 1) % 2 ^ 64) (mergeBefore fns r.start l)
  | .removeAll, _ => []

section Model

variable (fns : SetFunctions V) {k : Nat}

/-- No segment that ends at or before `k`, or starts after it, is cut at `k`. -/
theorem flatMap_cutAt_of_not {l : List (FileRange × V)} (h : ∀ e ∈ l, ¬(e.1.start < k ∧ k < e.1.end)) :
    l.flatMap (cutAt fns k) = l := by
  induction l with
  | nil => rfl
  | cons e l ih =>
    rw [List.flatMap_cons, ih fun x hx => h x (List.mem_cons_of_mem _ hx), cutAt, if_neg (h e (List.mem_cons_self _ _))]
    rfl

/-- `mergeAt` passes over segments that do not contain `k`. -/
theorem mergeAt_append {L : List (FileRange × V)} (hL : ∀ e ∈ L, ¬(e.1.start ≤ k ∧ k < e.1.end))
    (l : List (FileRange × V)) : mergeAt fns k (L ++ l) = L ++ mergeAt fns k l := by
  induction L with
  | nil => rfl
  | cons a L ih =>
    rw [List.cons_append, List.cons_append, ← ih fun e he => hL e (List.mem_cons_of_mem _ he)]
    rcases L ++ l with _ | ⟨y, m⟩
    · rfl
    · simp only [mergeAt, if_neg (hL a (List.mem_cons_self _ _))]

/-- `mergeBefore` changes nothing when no segment after the first contains `k`. -/
theorem mergeBefore_of_not {l : List (FileRange × V)} (h : ∀ e ∈ l.tail, ¬(e.1.start ≤ k ∧ k < e.1.end)) :
    mergeBefore fns k l = l := by
  induction l with
  | nil => rfl
  | cons a l ih =>
    rcases l with _ | ⟨y, m⟩
    · rfl
    · rw [mergeBefore, if_neg (h y (List.mem_cons_self _ _)), ih fun e he => h e (List.mem_of_mem_tail he)]

/-- `mergeBefore` passes over segments up to one that does not contain `k`. -/
theorem mergeBefore_append {L : List (FileRange × V)} {x : FileRange × V} (hL : ∀ e ∈ L, ¬(e.1.start ≤ k ∧ k < e.1.end))
    (hx : ¬(x.1.start ≤ k ∧ k < x.1.end)) (l : List (FileRange × V)) :
    mergeBefore fns k (L ++ x :: l) = L ++ mergeBefore fns k (x :: l) := by
  induction L with
  | nil => rfl
  | cons a L ih =>
    rw [List.cons_append, List.cons_append, ← ih fun e he => hL e (List.mem_cons_of_mem _ he)]
    rcases L with _ | ⟨b, L⟩
    · rw [List.nil_append, mergeBefore, if_neg hx]
    · rw [List.cons_append, mergeBefore, if_neg (hL b (List.mem_cons_of_mem _ (List.mem_cons_self _ _)))]

end Model

section Run

variable [Inhabited V] (fns : SetFunctions V)

/-- A client operation run on the heap through the set's own lookups and operations. -/
def Op.run : Op V → ReclaimSet V → Option (ReclaimSet V)
  | .addWithoutMerging r v, s => (s.addWithoutMerging fns r v).map (·.1)
  | .remove k, s => do
    let seg ← s.findSegment k
    if seg.ok then return (← s.remove fns seg).1
    pure s
  | .splitAt k, s => (s.splitAt fns k).map (·.1)
  | .merge k, s => do
    let first ← s.findSegment k
    if first.ok then
      let second ← first.nextSegment s
      if second.ok then return (← s.merge fns first second).1
    pure s
  | .mergeAll, s => s.mergeAll fns
  | .mergeRange r, s => s.mergeRange fns r
  | .mergeAdjacent r, s => s.mergeAdjacent fns r
  | .removeAll, s => pure s.removeAll

/-- The operations run in order on the heap. -/
def runAll (ops : List (Op V)) (s : ReclaimSet V) : Option (ReclaimSet V) := ops.foldlM (fun s o => o.run fns s) s

/-- The operations applied in order to the sorted list. -/
def applyAll (ops : List (Op V)) (l : List (FileRange × V)) : List (FileRange × V) :=
  ops.foldl (fun l o => o.apply fns l) l

end Run

end SegList

open SegList

namespace Tree

section Lookup

variable {s : ReclaimSet V} {t : Tree V}

/-- The segment `FindSegment(k)` finds: the one that contains `k`, after the segments that end
at or before `k` and before those that start after it; or, if no segment contains `k`, the
terminal iterator. -/
theorem Inv.findSegment (hi : Inv s t) (k : Nat) : ∃ L R, seq t = L ++ R ∧ (∀ e ∈ L, e.1.end ≤ k) ∧
    ((∃ e R', R = e :: R' ∧ e.1.start ≤ k ∧ k < e.1.end ∧ (∀ e ∈ R', k < e.1.start) ∧
        s.findSegment k = some (segAt t L.length)) ∨
      ((∀ e ∈ R, k < e.1.start) ∧ s.findSegment k = some ⟨none, 0⟩)) := by
  obtain ⟨L, R, hseq, hL, hR, hcase⟩ := hi.find_at k
  refine ⟨L, R, hseq, hL, ?_⟩
  rcases hcase with ⟨e, R', rfl, hk, hfind⟩ | ⟨hR', hfind⟩
  · have ho := hi.ordered
    rw [hseq] at ho
    have he := hR e (List.mem_cons_self _ _)
    exact .inl ⟨e, R', rfl, hk, he, fun x hx => by have := ho.after x hx; omega,
      by simp [ReclaimSet.findSegment, hfind]⟩
  · exact .inr ⟨hR', by simp [ReclaimSet.findSegment, hfind]⟩

theorem Inv.fresh_pos (hi : Inv s t) : 0 < s.fresh :=
  hi.fresh 0 (by rw [← hi.root]; cases t; simp [ids, idsList])

end Lookup

section Client

variable [Inhabited V] (fns : SetFunctions V) {s : ReclaimSet V} {t : Tree V}

/-- `AddWithoutMerging(r, v)` of a non-empty range returns whether `r` is `Free`, and then
inserts it where it belongs; otherwise it leaves the set as it was. -/
theorem Inv.addWithoutMerging {r : FileRange} (hi : Inv s t) (hr : r.start < r.end) (v : V) :
    ∃ s' t', s.addWithoutMerging fns r v = some (s', decide (Free fns (seq t) r)) ∧ Inv s' t' ∧
      seq t' = if Free fns (seq t) r then insertSorted (seq t) r v else seq t := by
  have hlen : r.length ≠ 0 := by rw [FileRange.length_of_le hr.le]; omega
  obtain ⟨L, R, hseq, hL, hR, hcase⟩ := hi.find_at r.start
  have ho := hi.ordered
  rw [hseq] at ho
  rcases hcase with ⟨e, R', rfl, hk, hfind⟩ | ⟨hR', hfind⟩
  · -- `r.Start` lies in a segment
    have hnf : ¬Free fns (seq t) r := fun hf => by
      have := hR e (List.mem_cons_self _ _)
      rcases hf.1 e (by rw [hseq]; simp) with h | h <;> omega
    refine ⟨s, t, ?_, hi, by simp [hnf]⟩
    simp [ReclaimSet.addWithoutMerging, hlen, ReclaimSet.findGap, hfind, ReclaimGapIterator.ok, hnf]
  -- `r.Start` lies in the gap before `R`
  have hj : L.length ≤ (seq t).length := by simp [hseq]
  have hend := ReclaimGapIterator.end_of_range (hi.gap_range fns hj)
  obtain ⟨l, i, hg, -⟩ := hi.shape.gapAt_mem hj
  rw [hseq, gapRange_split, hg] at hend
  -- `r` is free iff it ends at or below the start of `R`, or `MaxKey`; and then before all of `R`
  have hfree : (Free fns (seq t) r ↔ r.end ≤ (R.head?.map (·.1.start)).getD fns.maxKey) ∧
      (r.end ≤ (R.head?.map (·.1.start)).getD fns.maxKey → ∀ e ∈ R, r.end ≤ e.1.start) := by
    have hLpos : ∀ e ∈ L, ¬r.end ≤ e.1.start := fun e he => by
      have := hL e he; have := ho.2 e (by simp [he]); omega
    rw [hseq]
    cases R with
    | nil =>
      rw [List.append_nil]
      refine ⟨⟨fun hf => ?_, fun hm => ⟨fun e he => .inl (hL e he), .inr (by simpa using hm)⟩⟩,
        fun _ e he => absurd he (List.not_mem_nil e)⟩
      simpa using hf.2.resolve_left fun ⟨e, he, h⟩ => hLpos e he h
    | cons h0 R =>
      have hsort : ∀ e ∈ R, h0.1.start ≤ e.1.start := fun e he => by
        have := ho.after e he; have := ho.2 h0 (by simp); omega
      have h0s := hR' h0 (List.mem_cons_self _ _)
      refine ⟨⟨fun hf => ?_, fun hfit => ⟨fun e he => ?_, .inl ⟨h0, by simp, hfit⟩⟩⟩,
        fun hfit e he => ?_⟩
      · rcases hf.1 h0 (by simp) with h | h
        · have := ho.2 h0 (by simp); simp only at h0s h; omega
        · exact h
      · simp only [List.mem_append, List.mem_cons] at he
        rcases he with he | rfl | he
        · exact .inl (hL e he)
        · exact .inr hfit
        · exact .inr (by have := hsort e he; simp only [List.head?_cons, Option.map_some', Option.getD_some] at hfit; omega)
      · rcases List.mem_cons.mp he with rfl | he
        · simpa using hfit
        · have := hsort e he; simp only [List.head?_cons, Option.map_some', Option.getD_some] at hfit; omega
  by_cases hfit : r.end ≤ (R.head?.map (·.1.start)).getD fns.maxKey
  · -- `r` is inserted in the gap
    have hf := hfree.1.mpr hfit
    obtain ⟨s', t', hins, hS', hseq'⟩ := insertWithoutMergingUnchecked_spec fns hi.shape hj r v
    rw [hseq, List.take_left, List.drop_left] at hseq'
    rw [hg] at hins
    refine ⟨s', t', ?_, hS'.inv (hseq' ▸ ho.insert v hL (hfree.2 hfit) hr), ?_⟩
    · simp [ReclaimSet.addWithoutMerging, hlen, ReclaimSet.findGap, hfind, hg, ReclaimGapIterator.ok, hend,
        Nat.not_lt.mpr hfit, hins, hf]
    · rw [if_pos hf, hseq', insertSorted, hseq, List.filter_append, List.filter_append,
        List.filter_eq_self.mpr (fun e he => by simpa using hL e he),
        List.filter_eq_nil_iff.mpr (fun e he => by simpa using hR e he),
        List.filter_eq_nil_iff.mpr (fun e he => by simpa using hL e he),
        List.filter_eq_self.mpr (fun e he => by simpa using hR e he)]
      simp
  · -- `r` runs past the next segment, or `MaxKey`
    have hnf := mt hfree.1.mp hfit
    refine ⟨s, t, ?_, hi, by simp [hnf]⟩
    simp [ReclaimSet.addWithoutMerging, hlen, ReclaimSet.findGap, hfind, hg, ReclaimGapIterator.ok, hend,
      Nat.lt_of_not_le hfit, hnf]

/-- `Remove(FindSegment(k))`, when it finds a segment, drops the segment that contains `k`. -/
theorem Inv.removeAt (hi : Inv s t) (k : Nat) :
    ∃ s' t', (Op.remove k).run fns s = some s' ∧ Inv s' t' ∧
      seq t' = (seq t).filter fun e => ¬(e.1.start ≤ k ∧ k < e.1.end) := by
  obtain ⟨L, R, hseq, hL, hcase⟩ := hi.findSegment k
  have hLk : ∀ e ∈ L, ¬(e.1.start ≤ k ∧ k < e.1.end) := fun e he h => by have := hL e he; omega
  rcases hcase with ⟨e, R', rfl, hk1, hk2, hR', hfind⟩ | ⟨hR, hfind⟩
  · -- the segment that contains `k` is removed
    have hj : L.length < (seq t).length := by simp [hseq]
    obtain ⟨s', t', hrem, hS', hseq'⟩ := remove_spec fns hi.shape hj
    obtain ⟨b, i, hs, -⟩ := hi.shape.reads hj
    rw [hseq, List.eraseIdx_append_of_length_le le_rfl, Nat.sub_self, List.eraseIdx_cons_zero] at hseq'
    rw [hs] at hrem hfind
    have ho := hi.ordered
    rw [hseq] at ho
    refine ⟨s', t', by simp [Op.run, hfind, ReclaimIterator.ok, hrem], hS'.inv (hseq' ▸ ho.sublist (by simp)), ?_⟩
    have hRk : ∀ e ∈ R', ¬(e.1.start ≤ k ∧ k < e.1.end) := fun e he h => by have := hR' e he; omega
    rw [hseq', hseq, List.filter_append, List.filter_cons, List.filter_eq_self.mpr fun e he => decide_eq_true (hLk e he),
      List.filter_eq_self.mpr fun e he => decide_eq_true (hRk e he)]
    simp [hk1, hk2]
  · -- no segment contains `k`
    refine ⟨s, t, by simp [Op.run, hfind, ReclaimIterator.ok], hi, (List.filter_eq_self.mpr fun e he => ?_).symm⟩
    rw [hseq, List.mem_append] at he
    rcases he with he | he
    exacts [decide_eq_true (hLk e he), decide_eq_true (show ¬(e.1.start ≤ k ∧ k < e.1.end) by have := hR e he; omega)]

/-- `SplitUnchecked` of a segment `e` at a key strictly inside it keeps the invariant and cuts
`e` in two; the iterators returned point to the halves. -/
theorem Inv.splitUnchecked {L R : List (FileRange × V)} {e : FileRange × V} (hi : Inv s t)
    (hseq : seq t = L ++ e :: R) {k : Nat} (h1 : e.1.start < k) (h2 : k < e.1.end) :
    ∃ s' t', s.splitUnchecked fns (segAt t L.length) k = some (s', segAt t' L.length, segAt t' (L.length + 1)) ∧
      Inv s' t' ∧ seq t' = L ++ cutAt fns k e ++ R := by
  have hj : L.length < (seq t).length := by simp [hseq]
  have he : (seq t)[L.length] = e := by simp [hseq, List.getElem_append_right]
  obtain ⟨s', t', hsplit, hS', hseq'⟩ := splitUnchecked_spec fns hi.shape hj k
  rw [he, hseq, List.take_left, List.drop_append, List.drop_one, List.tail_cons] at hseq'
  have ho := hi.ordered
  rw [hseq] at ho
  refine ⟨s', t', hsplit, hS'.inv (hseq' ▸ ho.cut h1 h2 _ _), ?_⟩
  rw [hseq', cutAt, if_pos ⟨h1, h2⟩]
  simp

/-- `SplitAt(k)` returns whether `k` lies strictly inside a segment, and then cuts that segment
at `k`; otherwise it leaves the set as it was. -/
theorem Inv.splitAt (hi : Inv s t) (k : Nat) :
    ∃ s' t', s.splitAt fns k = some (s', decide (∃ e ∈ seq t, e.1.start < k ∧ k < e.1.end)) ∧ Inv s' t' ∧
      seq t' = (seq t).flatMap (cutAt fns k) := by
  obtain ⟨L, R, hseq, hL, hcase⟩ := hi.findSegment k
  have hLk : ∀ e ∈ L, ¬(e.1.start < k ∧ k < e.1.end) := fun e he h => by have := hL e he; omega
  rcases hcase with ⟨e, R', rfl, hk1, hk2, hR', hfind⟩ | ⟨hR, hfind⟩
  · have hj : L.length < (seq t).length := by simp [hseq]
    have he : (seq t)[L.length] = e := by simp [hseq, List.getElem_append_right]
    have hRk : ∀ x ∈ R', ¬(x.1.start < k ∧ k < x.1.end) := fun x hx h => by have := hR' x hx; omega
    obtain ⟨b, i, hs, -, -, hrange, -⟩ := hi.shape.reads hj
    rw [he] at hrange
    rcases Nat.lt_or_eq_of_le hk1 with hlt | heq
    · -- `k` lies strictly inside `e`: it is cut
      obtain ⟨s', t', hsplit, hi', hseq'⟩ := hi.splitUnchecked fns hseq hlt hk2
      refine ⟨s', t', ?_, hi', ?_⟩
      · have hex : ∃ x ∈ seq t, x.1.start < k ∧ k < x.1.end := ⟨e, by simp [hseq], hlt, hk2⟩
        rw [hs] at hrange hfind hsplit
        simp only [ReclaimSet.splitAt, hfind, ReclaimIterator.ok, Option.isSome_some, if_true, Option.bind_eq_bind,
          Option.some_bind, hrange, FileRange.canSplitAt_eq, decide_eq_true (And.intro hlt hk2), hsplit, decide_eq_true hex]
        rfl
      · rw [hseq', hseq, List.flatMap_append, flatMap_cutAt_of_not fns hLk, List.flatMap_cons,
          flatMap_cutAt_of_not fns hRk, List.append_assoc]
    · -- `e` starts at `k`: nothing is cut
      have hnone : ∀ x ∈ seq t, ¬(x.1.start < k ∧ k < x.1.end) := fun x hx => by
        rw [hseq] at hx
        simp only [List.mem_append, List.mem_cons] at hx
        rcases hx with hx | rfl | hx
        exacts [hLk x hx, fun h => by omega, hRk x hx]
      have hnex : ¬∃ x ∈ seq t, x.1.start < k ∧ k < x.1.end := fun ⟨x, hx, h⟩ => hnone x hx h
      refine ⟨s, t, ?_, hi, (flatMap_cutAt_of_not fns hnone).symm⟩
      rw [hs] at hrange hfind
      simp only [ReclaimSet.splitAt, hfind, ReclaimIterator.ok, Option.isSome_some, if_true, Option.bind_eq_bind,
        Option.some_bind, hrange, FileRange.canSplitAt_eq, heq, lt_irrefl, false_and, decide_False, decide_eq_false hnex,
        Bool.false_eq_true, if_false]
      rfl
  · -- no segment contains `k`
    have hnone : ∀ x ∈ seq t, ¬(x.1.start < k ∧ k < x.1.end) := fun x hx => by
      rw [hseq, List.mem_append] at hx
      rcases hx with hx | hx
      exacts [hLk x hx, fun h => by have := hR x hx; omega]
    have hnex : ¬∃ x ∈ seq t, x.1.start < k ∧ k < x.1.end := fun ⟨x, hx, h⟩ => hnone x hx h
    refine ⟨s, t, ?_, hi, (flatMap_cutAt_of_not fns hnone).symm⟩
    simp only [ReclaimSet.splitAt, hfind, ReclaimIterator.ok, Option.isSome_none, Bool.false_eq_true, if_false,
      Option.bind_eq_bind, Option.some_bind, decide_eq_false hnex]
    rfl

/-- `Merge(FindSegment(k), NextSegment)`, when both are segments, replaces the segment that
contains `k` and the next by `mergeResult` when that is some. -/
theorem Inv.mergeAt (hi : Inv s t) (k : Nat) :
    ∃ s' t', (Op.merge k).run fns s = some s' ∧ Inv s' t' ∧ seq t' = mergeAt fns k (seq t) := by
  obtain ⟨L, R, hseq, hL, hcase⟩ := hi.findSegment k
  have hLk : ∀ e ∈ L, ¬(e.1.start ≤ k ∧ k < e.1.end) := fun e he h => by have := hL e he; omega
  rcases hcase with ⟨x, R', rfl, hk1, hk2, -, hfind⟩ | ⟨hR, hfind⟩
  · have hj : L.length < (seq t).length := by simp [hseq]
    obtain ⟨b, i, hs, -⟩ := hi.shape.reads hj
    have hnext := (hi.shape.seg_steps hj).1
    rw [hs] at hfind
    cases R' with
    | nil =>
      -- `x` is the last segment: there is nothing to merge it with
      rw [hs, segAt_of_le (j := L.length + 1) (by simp [hseq])] at hnext
      refine ⟨s, t, by simp [Op.run, hfind, ReclaimIterator.ok, hnext], hi, ?_⟩
      rw [hseq, mergeAt_append fns hLk]
      rfl
    | cons y R'' =>
      obtain ⟨s', t', it, hmerge, hi', hseq'⟩ := hi.merge fns hseq
      obtain ⟨b', i', hs', -⟩ := hi.shape.reads (j := L.length + 1) (by simp [hseq])
      rw [hs, hs'] at hmerge hnext
      refine ⟨s', t', by simp [Op.run, hfind, ReclaimIterator.ok, hnext, hmerge], hi', ?_⟩
      rw [hseq', hseq, mergeAt_append fns hLk]
      cases hr : mergeResult fns x y <;> simp [SegList.mergeAt, hk1, hk2, hr]
  · -- no segment contains `k`
    have hnone : ∀ e ∈ seq t, ¬(e.1.start ≤ k ∧ k < e.1.end) := fun e he => by
      rw [hseq, List.mem_append] at he
      rcases he with he | he
      exacts [hLk e he, fun h => by have := hR e he; omega]
    refine ⟨s, t, by simp [Op.run, hfind, ReclaimIterator.ok], hi, ?_⟩
    rw [← List.append_nil (seq t), mergeAt_append fns hnone]
    rfl

/-- `MergeAdjacent(r)` merges the segment that contains `r.Start` with the one before it, and
then the segment that contains `r.End - 1` with the one after it. -/
theorem Inv.mergeAdjacent (hi : Inv s t) (r : FileRange) :
    ∃ s' t', s.mergeAdjacent fns r = some s' ∧ Inv s' t' ∧
      seq t' = SegList.mergeAt fns ((r.end + 2 ^ 64 - 1) % 2 ^ 64) (mergeBefore fns r.start (seq t)) := by
  -- the second merge is `Op.merge` of `r.End - 1` after the first
  suffices h : ∃ s1 t1, Inv s1 t1 ∧ seq t1 = mergeBefore fns r.start (seq t) ∧
      s.mergeAdjacent fns r = (Op.merge ((r.end + 2 ^ 64 - 1) % 2 ^ 64)).run fns s1 by
    obtain ⟨s1, t1, hi1, hseq1, hrun⟩ := h
    obtain ⟨s', t', h2, hi', hseq'⟩ := hi1.mergeAt fns ((r.end + 2 ^ 64 - 1) % 2 ^ 64)
    exact ⟨s', t', hrun.trans h2, hi', hseq1 ▸ hseq'⟩
  obtain ⟨L, R, hseq, hL, hcase⟩ := hi.findSegment r.start
  have hLk : ∀ e ∈ L, ¬(e.1.start ≤ r.start ∧ r.start < e.1.end) := fun e he h => by have := hL e he; omega
  rcases hcase with ⟨x, R', rfl, hk1, hk2, hR', hfind⟩ | ⟨hR, hfind⟩
  · have hRk : ∀ e ∈ R', ¬(e.1.start ≤ r.start ∧ r.start < e.1.end) := fun e he h => by have := hR' e he; omega
    have hj : L.length < (seq t).length := by simp [hseq]
    obtain ⟨b, i, hs, -⟩ := hi.shape.reads hj
    have hprev := (hi.shape.seg_steps hj).2.1
    rw [hs] at hfind hprev
    rcases L.eq_nil_or_concat' with rfl | ⟨L', w, rfl⟩
    · -- the segment that contains `r.Start` is the first: nothing comes before it
      refine ⟨s, t, hi, ?_, ?_⟩
      · rw [hseq, List.nil_append, mergeBefore_of_not fns (l := x :: R') hRk]
      · simp only [segBefore, List.length_nil, if_true] at hprev
        simp only [ReclaimSet.mergeAdjacent, hfind, hprev, ReclaimIterator.ok, Option.bind_eq_bind, Option.some_bind,
          Option.isSome_some, Option.isSome_none, if_true, Bool.false_eq_true, if_false]
        rfl
    · -- it is merged with the segment `w` before it
      have hseq2 : seq t = L' ++ w :: x :: R' := by simp [hseq]
      obtain ⟨s1, t1, it, hmerge, hi1, hseq1⟩ := hi.merge fns hseq2
      obtain ⟨b', i', hs', -⟩ := hi.shape.reads (j := L'.length) (by simp [hseq2])
      have hw : ¬(w.1.start ≤ r.start ∧ r.start < w.1.end) := hLk w (by simp)
      simp only [List.length_append, List.length_singleton] at hs hfind hprev
      simp only [segBefore, Nat.add_one_ne_zero, if_false, Nat.add_sub_cancel] at hprev
      rw [hs, hs'] at hmerge
      rw [hs'] at hprev
      refine ⟨s1, t1, hi1, ?_, ?_⟩
      · rw [hseq1, hseq2, mergeBefore_append fns (fun e he => hLk e (by simp [he])) hw]
        cases hr : mergeResult fns w x <;> simp [mergeBefore, hk1, hk2, hr]
      · simp only [ReclaimSet.mergeAdjacent, hfind, hprev, ReclaimIterator.ok, hmerge, Option.bind_eq_bind,
          Option.some_bind, Option.isSome_some, if_true]
        rfl
  · -- no segment contains `r.Start`
    have hnone : ∀ e ∈ (seq t).tail, ¬(e.1.start ≤ r.start ∧ r.start < e.1.end) := fun e he => by
      rw [hseq] at he
      rcases List.mem_append.mp (List.mem_of_mem_tail he) with he | he
      exacts [hLk e he, fun h => by have := hR e he; omega]
    refine ⟨s, t, hi, (mergeBefore_of_not fns hnone).symm, ?_⟩
    simp only [ReclaimSet.mergeAdjacent, hfind, ReclaimIterator.ok, Option.bind_eq_bind, Option.some_bind,
      Option.isSome_none, Bool.false_eq_true, if_false]
    rfl

/-- `RemoveAll` leaves the empty tree at the root. -/
theorem Inv.removeAll (hi : Inv s t) : Inv s.removeAll (node 0 [] []) where
  rep := rep_node.mpr ⟨⟨rfl, fun _ h => by simp at h, fun _ h => by simp at h, rfl, fun _ => rfl, rfl⟩, trivial⟩
  root := rfl
  height := ⟨0, by simp [HasHeight], hi.fresh_pos⟩
  rootSize := by simp
  rootEmpty _ := rfl
  filled := by simp
  nodup := by simp [ids, idsList]
  fresh := by simpa [ids, idsList, ReclaimSet.removeAll] using hi.fresh_pos
  ordered := by simp [Ordered]

/-- One operation on the heap is `Op.apply` on the list: `Op.run` never panics on a valid
operation, and keeps the invariant. -/
theorem Inv.run (hi : Inv s t) {o : Op V} (ho : o.Valid) :
    ∃ s' t', o.run fns s = some s' ∧ Inv s' t' ∧ seq t' = o.apply fns (seq t) := by
  cases o with
  | addWithoutMerging r v =>
    obtain ⟨s', t', h, hi', hseq⟩ := hi.addWithoutMerging fns ho v
    exact ⟨s', t', by simp [Op.run, h], hi', hseq⟩
  | remove k => exact hi.removeAt fns k
  | splitAt k =>
    obtain ⟨s', t', h, hi', hseq⟩ := hi.splitAt fns k
    exact ⟨s', t', by simp [Op.run, h], hi', hseq⟩
  | merge k => exact hi.mergeAt fns k
  | mergeAll => exact hi.mergeAll fns
  | mergeRange r => exact hi.mergeRange fns r
  | mergeAdjacent r => exact hi.mergeAdjacent fns r
  | removeAll => exact ⟨_, _, rfl, hi.removeAll, rfl⟩

/-- Every run of client operations whose ranges are non-empty, from a set that satisfies the
invariant, completes without a panic, keeps the invariant, and leaves the list the sorted-list
model gives. -/
theorem run_refines (hi : Inv s t) (ops : List (Op V)) (hops : ∀ o ∈ ops, o.Valid) :
    ∃ s' t', runAll fns ops s = some s' ∧ Inv s' t' ∧ seq t' = applyAll fns ops (seq t) := by
  induction ops generalizing s t with
  | nil => exact ⟨s, t, rfl, hi, rfl⟩
  | cons o ops ih =>
    obtain ⟨s1, t1, h1, hi1, hseq1⟩ := hi.run fns (hops o (List.mem_cons_self _ _))
    obtain ⟨s', t', h', hi', hseq'⟩ := ih hi1 fun o' ho' => hops o' (List.mem_cons_of_mem _ ho')
    refine ⟨s', t', ?_, hi', ?_⟩
    · rw [runAll, List.foldlM_cons, h1]
      exact h'
    · rw [hseq', hseq1]
      rfl

end Client

/-- A run from the zero set: an insertion, splits inside it, merges of the pieces, a removal and
a `RemoveAll`. -/
theorem run_refines_from_empty :
    Inv (ReclaimSet.empty : ReclaimSet Nat) (.node 0 [] []) ∧
      (∀ o ∈ [Op.addWithoutMerging ⟨0, 8⟩ 1, .splitAt 4, .mergeAdjacent ⟨4, 6⟩, .splitAt 2, .mergeAll, .remove 5,
          .removeAll], Op.Valid o) ∧
      ∃ s' t', runAll ⟨0, 2 ^ 64 - 1, fun v => v, fun _ v _ _ => some v, fun _ v _ => (v, v)⟩
          [Op.addWithoutMerging ⟨0, 8⟩ 1, .splitAt 4, .mergeAdjacent ⟨4, 6⟩, .splitAt 2, .mergeAll, .remove 5,
          .removeAll] ReclaimSet.empty = some s' ∧
        Inv s' t' ∧
        seq t' = applyAll ⟨0, 2 ^ 64 - 1, fun v => v, fun _ v _ _ => some v, fun _ v _ => (v, v)⟩
          [Op.addWithoutMerging ⟨0, 8⟩ 1, .splitAt 4, .mergeAdjacent ⟨4, 6⟩, .splitAt 2, .mergeAll, .remove 5,
          .removeAll] [] :=
  ⟨Inv.empty, by simp [Op.Valid], run_refines _ Inv.empty _ (by simp [Op.Valid])⟩

end Tree

end Gvisor.Segment
