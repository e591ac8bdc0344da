import Gvisor.Segment.Merge

/-!
# The borrows of `rebalanceAfterRemove`

When a short node has a sibling that can spare a segment, `rebalanceAfterRemove` rotates one
segment through the parent instead of merging: from the previous sibling (`borrowFromPrev`) the
separator comes down in front of the short node's segments and the sibling's last segment goes
up, with the sibling's last child; from the next sibling (`borrowFromNext`) the other way round.
`borrowFromPrev_spec` and `borrowFromNext_spec` say what each writes, node by node, and
`Around.borrowFromPrev` and `Around.borrowFromNext` turn this into the tree after the borrow,
whose traversal is the one before it with its places renamed (`walk_borrowPrev`,
`walk_borrowNext`).

The gap iterator `borrowFromPrev` returns is the renamed gap only when the gap was not in the
previous sibling; the loop of `rebalanceAfterRemove` calls it with the gap in the short node's
subtree, where it is.
-/

set_option autoImplicit false

namespace Gvisor.Segment

variable {V : Type}

namespace ReclaimNode

section Borrow

variable {n : ReclaimNode V} {up : Option (Nat × Nat)}

/-- The parent after a borrow: its separator `i` becomes `z`. -/
theorem Holds.setSeg {segs : List (FileRange × V)} {kids : List Nat} (h : n.Holds segs kids up) {i : Nat}
    (hi : i < segs.length) (z : FileRange × V) :
    ({ n with keys := Function.update n.keys i z.1, values := Function.update n.values i z.2 } : ReclaimNode V).Holds
      (segs.set i z) kids up := by
  refine ⟨by simp [h.nrSegments], ?_, ?_, h.hasChildren, h.children, h.link⟩
  · simpa [List.map_set] using agree_update h.keys (by simpa using hi) z.1
  · simpa [List.map_set] using agree_update h.values (by simpa using hi) z.2

/-- The short node after `borrowFromPrev`: the separator `x` in front of its segments, and the
previous sibling's last child `c` in front of its children. -/
theorem Holds.pushFront {gr : List (FileRange × V)} {ks0 ks2 : List Nat} (h : n.Holds gr ks2 up) (x : FileRange × V)
    (c : Option Nat) (hks : ks0 = [] ∧ ks2 = [] ∨ ∃ c0, c = some c0 ∧ ks0 = [c0] ∧ ks2.length = gr.length + 1)
    (hroom : gr.length + 1 ≤ maxDegree - 1) :
    ({ n with
        keys := Function.update (copySlice n.keys 1 (maxDegree - 1) n.keys 0 n.nrSegments) 0 x.1
        values := Function.update (copySlice n.values 1 (maxDegree - 1) n.values 0 n.nrSegments) 0 x.2
        children := if n.hasChildren then Function.update (copySlice n.children 1 maxDegree n.children 0
          (n.nrSegments + 1)) 0 c else n.children
        nrSegments := n.nrSegments + 1 } : ReclaimNode V).Holds (x :: gr) (ks0 ++ ks2) up := by
  have hn := h.nrSegments
  refine ⟨by simp [hn], ?_, ?_, ?_, ?_, h.link⟩
  · simpa [hn] using agree_insert h.keys (i := 0) (Nat.zero_le _) (by simp; omega : _ < maxDegree - 1) x.1
  · simpa [hn] using agree_insert h.values (i := 0) (Nat.zero_le _) (by simp; omega : _ < maxDegree - 1) x.2
  · show n.hasChildren = _
    rw [h.hasChildren]
    rcases hks with ⟨rfl, rfl⟩ | ⟨c0, -, rfl, h2⟩
    · rfl
    · cases ks2 with
      | nil => simp at h2
      | cons _ _ => rfl
  · rcases hks with ⟨rfl, rfl⟩ | ⟨c0, rfl, rfl, h2⟩
    · have hc : n.hasChildren = false := by simpa using h.hasChildren
      simpa [hc] using h.children
    · have hc : n.hasChildren = true := by
        rw [h.hasChildren]
        cases ks2 with
        | nil => simp at h2
        | cons _ _ => rfl
      have := agreeAll_insert h.children (i := 0) (Nat.zero_le _) (by simp [maxDegree] at hroom ⊢; omega : _ < maxDegree) c0
      simpa [hc, h2, hn] using this

/-- The previous sibling after `borrowFromPrev`: its last segment and last child go. -/
theorem Holds.popBack {gl : List (FileRange × V)} {z : FileRange × V} {ks1 ks0 : List Nat}
    (h : n.Holds (gl ++ [z]) (ks1 ++ ks0) up) (hks : ks1 = [] ∧ ks0 = [] ∨ ks1.length = gl.length + 1 ∧ ks0.length = 1)
    (fns : SetFunctions V) :
    ({ n with
        values := clearAt fns n.values (n.nrSegments - 1)
        children := if n.hasChildren then Function.update n.children n.nrSegments none else n.children
        nrSegments := n.nrSegments - 1 } : ReclaimNode V).Holds gl ks1 up := by
  have hn : n.nrSegments = gl.length + 1 := by simp [h.nrSegments]
  refine ⟨by simp [hn], ?_, ?_, ?_, ?_, h.link⟩
  · exact agree_append_left (by simpa using h.keys)
  · exact agree_clearAt (agree_append_left (by simpa using h.values)) (by simp [hn])
  · show n.hasChildren = _
    rw [h.hasChildren]
    rcases hks with ⟨rfl, rfl⟩ | ⟨h1, -⟩
    · rfl
    · cases ks1 with
      | nil => simp at h1
      | cons _ _ => rfl
  · rcases hks with ⟨rfl, rfl⟩ | ⟨h1, h0⟩
    · have hc : n.hasChildren = false := by simpa using h.hasChildren
      simpa [hc] using h.children
    · have hc : n.hasChildren = true := by
        rw [h.hasChildren]
        cases ks1 with
        | nil => simp at h1
        | cons _ _ => rfl
      obtain ⟨c0, rfl⟩ := List.length_eq_one.mp h0
      have := agreeAll_dropLast h.children
      simpa [hc, hn, h1] using this

/-- The short node after `borrowFromNext`: the separator `x` after its segments, and the next
sibling's first child `c` after its children. -/
theorem Holds.pushBack {gl : List (FileRange × V)} {ks1 ks0 : List Nat} (h : n.Holds gl ks1 up) (x : FileRange × V)
    (c : Option Nat) (hks : ks1 = [] ∧ ks0 = [] ∨ ∃ c0, c = some c0 ∧ ks0 = [c0] ∧ ks1.length = gl.length + 1) :
    ({ n with
        keys := Function.update n.keys n.nrSegments x.1
        values := Function.update n.values n.nrSegments x.2
        children := if n.hasChildren then Function.update n.children (n.nrSegments + 1) c else n.children
        nrSegments := n.nrSegments + 1 } : ReclaimNode V).Holds (gl ++ [x]) (ks1 ++ ks0) up := by
  have hn := h.nrSegments
  refine ⟨by simp [hn], ?_, ?_, ?_, ?_, h.link⟩
  · simpa [hn] using agree_concat h.keys x.1
  · simpa [hn] using agree_concat h.values x.2
  · show n.hasChildren = _
    rw [h.hasChildren]
    rcases hks with ⟨rfl, rfl⟩ | ⟨c0, -, rfl, h1⟩
    · rfl
    · cases ks1 with
      | nil => simp at h1
      | cons _ _ => rfl
  · rcases hks with ⟨rfl, rfl⟩ | ⟨c0, rfl, rfl, h1⟩
    · have hc : n.hasChildren = false := by simpa using h.hasChildren
      simpa [hc] using h.children
    · have hc : n.hasChildren = true := by
        rw [h.hasChildren]
        cases ks1 with
        | nil => simp at h1
        | cons _ _ => rfl
      simpa [hc, h1, hn] using agreeAll_concat h.children c0

/-- The next sibling after `borrowFromNext`: its first segment and first child go. -/
theorem Holds.popFront {gr : List (FileRange × V)} {z : FileRange × V} {ks0 ks2 : List Nat}
    (h : n.Holds (z :: gr) (ks0 ++ ks2) up) (hks : ks0 = [] ∧ ks2 = [] ∨ ks0.length = 1 ∧ ks2.length = gr.length + 1)
    (hroom : gr.length + 1 ≤ maxDegree - 1) (fns : SetFunctions V) :
    ({ n with
        keys := copySlice n.keys 0 (n.nrSegments - 1) n.keys 1 (maxDegree - 1)
        values := clearAt fns (copySlice n.values 0 (n.nrSegments - 1) n.values 1 (maxDegree - 1)) (n.nrSegments - 1)
        children := if n.hasChildren then Function.update (copySlice n.children 0 n.nrSegments n.children 1 maxDegree)
          n.nrSegments none else n.children
        nrSegments := n.nrSegments - 1 } : ReclaimNode V).Holds gr ks2 up := by
  have hn : n.nrSegments = gr.length + 1 := by simp [h.nrSegments]
  refine ⟨by simp [hn], ?_, ?_, ?_, ?_, h.link⟩
  · simpa [hn, List.take_of_length_le] using @agree_copy _ _ _ n.keys h.keys 1 gr.length (maxDegree - 1)
      (by simp; omega) (by omega)
  · refine agree_clearAt ?_ (by simp [hn])
    simpa [hn, List.take_of_length_le] using @agree_copy _ _ _ n.values h.values 1 gr.length (maxDegree - 1)
      (by simp; omega) (by omega)
  · show n.hasChildren = _
    rw [h.hasChildren]
    rcases hks with ⟨rfl, rfl⟩ | ⟨-, h2⟩
    · rfl
    · cases ks2 with
      | nil => simp at h2
      | cons _ _ => simp
  · rcases hks with ⟨rfl, rfl⟩ | ⟨h0, h2⟩
    · have hc : n.hasChildren = false := by simpa using h.hasChildren
      simpa [hc] using h.children
    · obtain ⟨c0, rfl⟩ := List.length_eq_one.mp h0
      have hc : n.hasChildren = true := by rw [h.hasChildren]; rfl
      have := agreeAll_tail h.children (n := n.nrSegments) (by simp [hn, h2])
        (by simp [maxDegree] at hroom ⊢; omega : n.nrSegments + 1 ≤ maxDegree)
      simpa [hc] using this

end Borrow

end ReclaimNode

namespace ReclaimSet

variable (fns : SetFunctions V)

/-- What `borrowFromPrev` writes when the short node `a` is the child `i + 1` of `p` and `sib`
the child `i`: `a` takes the separator `e` in front of its segments and `sib`'s last child in
front of its children, `p` takes `sib`'s last segment `z` as the separator, and `sib` loses
both; no other node than these and `a`'s children changes. -/
theorem borrowFromPrev_spec (gap : ReclaimGapIterator) {s : ReclaimSet V} {a sib p i : Nat}
    {gl gr S1 S2 : List (FileRange × V)} {e z : FileRange × V} {ks1 ks0 ks2 cl cr : List Nat}
    {up : Option (Nat × Nat)} (hB : (s.nodes sib).Holds (gl ++ [z]) (ks1 ++ ks0) (some (p, i)))
    (hA : (s.nodes a).Holds gr ks2 (some (p, i + 1)))
    (hP : (s.nodes p).Holds (S1 ++ e :: S2) (cl ++ sib :: a :: cr) up) (hS1 : S1.length = i)
    (hks : ks1 = [] ∧ ks0 = [] ∧ ks2 = [] ∨ ks1.length = gl.length + 1 ∧ ks0.length = 1 ∧ ks2.length = gr.length + 1)
    (hroom : gr.length + 1 ≤ maxDegree - 1) (hnd : (a :: p :: sib :: (ks0 ++ ks2)).Nodup) :
    ∃ s', s.borrowFromPrev fns a sib p gap = some (s', if gap.node = some sib ∧ gap.index = gl.length then ⟨some a, 0⟩
        else if gap.node = some a then ⟨some a, gap.index + 1⟩ else gap) ∧
      s'.fresh = s.fresh ∧
      (s'.nodes sib).Holds gl ks1 (some (p, i)) ∧
      (s'.nodes a).Holds (e :: gr) (ks0 ++ ks2) (some (p, i + 1)) ∧
      (s'.nodes p).Holds (S1 ++ z :: S2) (cl ++ sib :: a :: cr) up ∧
      (∀ j (hj : j < ks0.length), s'.nodes ks0[j] = { s.nodes ks0[j] with parent := some a, parentIndex := j }) ∧
      (∀ j (hj : j < ks2.length), s'.nodes ks2[j] = { s.nodes ks2[j] with parentIndex := ks0.length + j }) ∧
      ∀ w, w ∉ a :: p :: sib :: (ks0 ++ ks2) → s'.nodes w = s.nodes w := by
  simp only [List.nodup_cons, List.mem_cons, List.mem_append, not_or] at hnd
  obtain ⟨⟨hap, has, ha0, ha2⟩, ⟨hps, hp0, hp2⟩, ⟨hb0, hb2⟩, hnd⟩ := hnd
  have hai : (s.nodes a).parentIndex = i + 1 := (ReclaimNode.link_eq_some.mp hA.link).2
  have he := hP.reads (j := i) (e := e) (by rw [← hS1, List.getElem?_append_right le_rfl, Nat.sub_self]; simp)
  have hz := hB.reads (j := gl.length) (e := z) (by simp)
  have hnB : (s.nodes sib).nrSegments = gl.length + 1 := by simp [hB.nrSegments]
  have hhc : (s.nodes a).hasChildren = (s.nodes sib).hasChildren := by
    rw [hA.hasChildren, hB.hasChildren]
    rcases hks with ⟨rfl, rfl, rfl⟩ | ⟨h1, -, h2⟩
    · rfl
    · cases ks2 with
      | nil => simp at h2
      | cons _ _ => cases ks1 with
        | nil => simp at h1
        | cons _ _ => rfl
  -- the child that moves
  have hpush : ks0 = [] ∧ ks2 = [] ∨ ∃ c0, (s.nodes sib).children (s.nodes sib).nrSegments = some c0 ∧
      ks0 = [c0] ∧ ks2.length = gr.length + 1 := by
    rcases hks with ⟨-, rfl, rfl⟩ | ⟨h1, h0, h2⟩
    · exact .inl ⟨rfl, rfl⟩
    · obtain ⟨c0, rfl⟩ := List.length_eq_one.mp h0
      exact .inr ⟨c0, by rw [hB.children, hnB, List.getElem?_append_right (by omega), h1, Nat.sub_self]; rfl, rfl, h2⟩
  rw [borrowFromPrev]
  dsimp only
  generalize hs1 : s.modify a _ = s1
  generalize hs2 : s1.modify p _ = s2
  generalize hs3 : s2.modify sib _ = s3
  have h1a : s1.nodes a = { s.nodes a with
      keys := Function.update (copySlice (s.nodes a).keys 1 (maxDegree - 1) (s.nodes a).keys 0 (s.nodes a).nrSegments) 0
        ((s.nodes p).keys ((s.nodes a).parentIndex - 1))
      values := Function.update (copySlice (s.nodes a).values 1 (maxDegree - 1) (s.nodes a).values 0
        (s.nodes a).nrSegments) 0 ((s.nodes p).values ((s.nodes a).parentIndex - 1)) } := by
    rw [← hs1]; simp
  have h3a : s3.nodes a = s1.nodes a := by rw [← hs3, ← hs2]; simp [hap, has]
  have h3p : s3.nodes p = { s.nodes p with
      keys := Function.update (s.nodes p).keys ((s.nodes a).parentIndex - 1)
        ((s.nodes sib).keys ((s.nodes sib).nrSegments - 1))
      values := Function.update (s.nodes p).values ((s.nodes a).parentIndex - 1)
        ((s.nodes sib).values ((s.nodes sib).nrSegments - 1)) } := by
    rw [← hs3, ← hs2, ← hs1]; simp [Ne.symm hap, hps]
  have h3s : s3.nodes sib = { s.nodes sib with
      values := clearAt fns (s.nodes sib).values ((s.nodes sib).nrSegments - 1) } := by
    rw [← hs3, ← hs2, ← hs1]; simp [Ne.symm has, Ne.symm hps]
  have h3 : ∀ w, w ≠ a → w ≠ p → w ≠ sib → s3.nodes w = s.nodes w := fun w h1 h2 h3 => by
    rw [← hs3, ← hs2, ← hs1]; simp [h1, h2, h3]
  rw [← bind_assoc, ite_bind_option]
  generalize hA4 : (if (s.nodes a).hasChildren = true then _ else _ : Option (ReclaimSet V)) = o4
  -- the children of `a`, with the one it takes, are relinked
  obtain ⟨s4, rfl, h4f, h4a, h4s, h40, h42, h4⟩ : ∃ s4, o4 = some s4 ∧ s4.fresh = s.fresh ∧
      s4.nodes a = { s1.nodes a with children := (if (s.nodes a).hasChildren then Function.update (copySlice
        (s.nodes a).children 1 maxDegree (s.nodes a).children 0 ((s.nodes a).nrSegments + 1)) 0
        ((s.nodes sib).children (s.nodes sib).nrSegments) else (s.nodes a).children) } ∧
      s4.nodes sib = { s3.nodes sib with children := (if (s.nodes a).hasChildren then
        Function.update (s.nodes sib).children (s.nodes sib).nrSegments none else (s.nodes sib).children) } ∧
      (∀ j (hj : j < ks0.length), s4.nodes ks0[j] = { s.nodes ks0[j] with parent := some a, parentIndex := j }) ∧
      (∀ j (hj : j < ks2.length), s4.nodes ks2[j] = { s.nodes ks2[j] with parentIndex := ks0.length + j }) ∧
      ∀ w, w ≠ a → w ≠ sib → w ∉ ks0 ++ ks2 → s4.nodes w = s3.nodes w := by
    rw [← hA4]
    cases hc : (s.nodes a).hasChildren
    · obtain ⟨rfl, rfl⟩ : ks0 = [] ∧ ks2 = [] := by
        rcases hpush with h | ⟨c0, -, -, h2⟩
        · exact h
        · have := hA.hasChildren; rw [hc] at this
          cases ks2 with
          | nil => simp at h2
          | cons _ _ => simp at this
      refine ⟨s3, rfl, by rw [← hs3, ← hs2, ← hs1]; rfl, ?_, ?_, fun j hj => by simp at hj, fun j hj => by simp at hj,
        fun w _ _ _ => rfl⟩
      · rw [h3a, h1a]; rfl
      · rw [h3s]; rfl
    · obtain ⟨c0, hc0, rfl, h2l⟩ : ∃ c0, (s.nodes sib).children (s.nodes sib).nrSegments = some c0 ∧
          ks0 = [c0] ∧ ks2.length = gr.length + 1 := by
        rcases hpush with ⟨-, rfl⟩ | h
        · have := hA.hasChildren; rw [hc] at this; simp at this
        · exact h
      simp only [List.singleton_append, List.nodup_cons, List.mem_singleton] at hnd ha0 hp0 hb0
      simp only [↓reduceIte, hc0]
      generalize hs4a : s3.modify a _ = s4a
      generalize hs4b : s4a.modify sib _ = s4b
      have h4a : s4b.nodes a = { s1.nodes a with children := Function.update (copySlice (s.nodes a).children 1
          maxDegree (s.nodes a).children 0 ((s.nodes a).nrSegments + 1)) 0 (some c0) } := by
        rw [← hs4b, ← hs4a]; simp [has, h3a, h1a]
      have h4s : s4b.nodes sib = { s3.nodes sib with
          children := Function.update (s.nodes sib).children (s.nodes sib).nrSegments none } := by
        rw [← hs4b, ← hs4a]; simp [Ne.symm has, h3s]
      have h4 : ∀ w, w ≠ a → w ≠ sib → s4b.nodes w = s3.nodes w := fun w h1 h2 => by
        rw [← hs4b, ← hs4a]; simp [h1, h2]
      rw [adopt_of_child (by rw [h4a]; simp : (s4b.nodes a).children 0 = some c0)]
      simp only [Option.some_bind, Option.bind_eq_bind]
      generalize hs4c : s4b.modify c0 _ = s4c
      have h4ca : s4c.nodes a = s4b.nodes a := by rw [← hs4c]; simp [ha0]
      have hins := agreeAll_insert hA.children (i := 0) (Nat.zero_le _)
        (by simp [maxDegree] at hroom ⊢; omega : ks2.length < maxDegree) c0
      have hch : ∀ j (hj : j < ks2.length), (s4c.nodes a).children (1 + j) = some ks2[j] := fun j hj => by
        have := hins (1 + j)
        rw [h4ca, h4a]
        simp only [hA.nrSegments, Nat.zero_add, List.take_zero, List.drop_zero, List.nil_append] at this ⊢
        rw [← h2l, this, Nat.add_comm, List.getElem?_cons_succ, List.getElem?_eq_getElem hj]
      obtain ⟨s5, h5, h5f, h5in, h5out⟩ := renumberChildren_spec a ks2 s4c 1 hnd.2 hch
      have hnr : (s4c.nodes a).nrSegments + 2 = 1 + ks2.length := by rw [h4ca, h4a, h1a]; simp [hA.nrSegments, h2l]; omega
      rw [hnr, h5]
      have h5c : ∀ w, w ∉ ks2 → s5.nodes w = s4c.nodes w := h5out
      have h5f' : s5.fresh = s.fresh := by
        rw [h5f, ← hs4c, modify_fresh, ← hs4b, modify_fresh, ← hs4a, modify_fresh, ← hs3, ← hs2, ← hs1]; rfl
      refine ⟨s5, rfl, h5f', ?_, ?_, fun j hj => ?_, fun j hj => ?_, fun w hwa hws hw => ?_⟩
      · rw [h5c a ha2, h4ca, h4a]
      · rw [h5c sib hb2, ← hs4c, modify_nodes, if_neg hb0, h4s]
      · obtain rfl : j = 0 := by simpa using hj
        rw [List.getElem_singleton, h5c c0 hnd.1, ← hs4c, modify_nodes, if_pos rfl, h4 c0 (Ne.symm ha0) (Ne.symm hb0),
          h3 c0 (Ne.symm ha0) (Ne.symm hp0) (Ne.symm hb0)]
      · have hm := List.getElem_mem hj
        have hwa : ks2[j] ≠ a := fun h => ha2 (h ▸ hm)
        have hwp : ks2[j] ≠ p := fun h => hp2 (h ▸ hm)
        have hws : ks2[j] ≠ sib := fun h => hb2 (h ▸ hm)
        have hwc : ks2[j] ≠ c0 := fun h => hnd.1 (h ▸ hm)
        rw [h5in j hj, ← hs4c, modify_nodes, if_neg hwc, h4 _ hwa hws, h3 _ hwa hwp hws]
        rfl
      · simp only [List.singleton_append, List.mem_cons, not_or] at hw
        rw [h5c w hw.2, ← hs4c, modify_nodes, if_neg hw.1, h4 w hwa hws]
  simp only [Option.some_bind, Option.bind_eq_bind, Option.pure_def]
  have hpe : ((s.nodes p).keys ((s.nodes a).parentIndex - 1), (s.nodes p).values ((s.nodes a).parentIndex - 1)) = e := by
    rw [hai, Nat.add_sub_cancel, he.2.1, he.2.2]
  rw [hhc] at h4s
  generalize hs5 : s4.modify a _ = s5
  generalize hs6 : s5.modify sib _ = s6
  have h6s : s6.nodes sib = { s5.nodes sib with nrSegments := (s5.nodes sib).nrSegments - 1 } := by rw [← hs6]; simp
  have h5s : s5.nodes sib = s4.nodes sib := by rw [← hs5]; simp [Ne.symm has]
  have h6a : s6.nodes a = { s4.nodes a with nrSegments := (s4.nodes a).nrSegments + 1 } := by
    rw [← hs6, ← hs5]; simp [has]
  have h6 : ∀ w, w ≠ a → w ≠ sib → s6.nodes w = s4.nodes w := fun w h1 h2 => by rw [← hs6, ← hs5]; simp [h1, h2]
  have h6n : (s6.nodes sib).nrSegments = gl.length := by rw [h6s, h5s, h4s, h3s]; simp [hnB]
  rw [h6n]
  refine ⟨s6, rfl, by rw [← hs6, ← hs5, modify_fresh, modify_fresh, h4f], ?_, ?_, ?_, fun j hj => ?_, fun j hj => ?_,
    fun w hw => ?_⟩
  · rw [h6s, h5s, h4s, h3s]
    exact hB.popBack (hks.imp (fun h => ⟨h.1, h.2.1⟩) fun h => ⟨h.1, h.2.1⟩) fns
  · rw [h6a, h4a, h1a, ← hpe]
    exact hA.pushFront ((s.nodes p).keys ((s.nodes a).parentIndex - 1), (s.nodes p).values ((s.nodes a).parentIndex - 1))
      _ hpush hroom
  · have hpi : (s.nodes a).parentIndex - 1 = i := by rw [hai, Nat.add_sub_cancel]
    have hset : (S1 ++ e :: S2).set i z = S1 ++ z :: S2 := by rw [← hS1]; simp
    rw [h6 p (Ne.symm hap) hps, h4 p (Ne.symm hap) hps (by simp [hp0, hp2]), h3p, hpi, hnB,
      Nat.add_sub_cancel, hz.2.1, hz.2.2, ← hset]
    exact hP.setSeg (by simp; omega) z
  · have hm := List.getElem_mem hj
    rw [h6 _ (fun h => ha0 (h ▸ hm)) (fun h => hb0 (h ▸ hm)), h40 j hj]
  · have hm := List.getElem_mem hj
    rw [h6 _ (fun h => ha2 (h ▸ hm)) (fun h => hb2 (h ▸ hm)), h42 j hj]
  · simp only [List.mem_cons, List.mem_append, not_or] at hw
    obtain ⟨hwa, hwp, hws, hw0, hw2⟩ := hw
    rw [h6 w hwa hws, h4 w hwa hws (by simp [hw0, hw2]), h3 w hwa hwp hws]

/-- What `borrowFromNext` writes when the short node `a` is the child `i` of `p` and `sib` the
child `i + 1`: `a` takes the separator `e` after its segments and `sib`'s first child after its
children, `p` takes `sib`'s first segment `z` as the separator, and `sib` loses both; no other
node than these and `sib`'s children changes. -/
theorem borrowFromNext_spec (gap : ReclaimGapIterator) {s : ReclaimSet V} {a sib p i : Nat}
    {gl gr S1 S2 : List (FileRange × V)} {e z : FileRange × V} {ks1 ks0 ks2 cl cr : List Nat}
    {up : Option (Nat × Nat)} (hA : (s.nodes a).Holds gl ks1 (some (p, i)))
    (hB : (s.nodes sib).Holds (z :: gr) (ks0 ++ ks2) (some (p, i + 1)))
    (hP : (s.nodes p).Holds (S1 ++ e :: S2) (cl ++ a :: sib :: cr) up) (hS1 : S1.length = i)
    (hks : ks1 = [] ∧ ks0 = [] ∧ ks2 = [] ∨ ks1.length = gl.length + 1 ∧ ks0.length = 1 ∧ ks2.length = gr.length + 1)
    (hroom : gr.length + 1 ≤ maxDegree - 1) (hnd : (a :: p :: sib :: (ks0 ++ ks2)).Nodup) :
    ∃ s', s.borrowFromNext fns a sib p gap = some (s', if gap.node = some sib then
        (if gap.index = 0 then ⟨some a, gl.length + 1⟩ else ⟨some sib, gap.index - 1⟩) else gap) ∧
      s'.fresh = s.fresh ∧
      (s'.nodes a).Holds (gl ++ [e]) (ks1 ++ ks0) (some (p, i)) ∧
      (s'.nodes sib).Holds gr ks2 (some (p, i + 1)) ∧
      (s'.nodes p).Holds (S1 ++ z :: S2) (cl ++ a :: sib :: cr) up ∧
      (∀ j (hj : j < ks0.length),
        s'.nodes ks0[j] = { s.nodes ks0[j] with parent := some a, parentIndex := ks1.length + j }) ∧
      (∀ j (hj : j < ks2.length), s'.nodes ks2[j] = { s.nodes ks2[j] with parentIndex := j }) ∧
      ∀ w, w ∉ a :: p :: sib :: (ks0 ++ ks2) → s'.nodes w = s.nodes w := by
  simp only [List.nodup_cons, List.mem_cons, List.mem_append, not_or] at hnd
  obtain ⟨⟨hap, has, ha0, ha2⟩, ⟨hps, hp0, hp2⟩, ⟨hb0, hb2⟩, hnd⟩ := hnd
  have hai : (s.nodes a).parentIndex = i := (ReclaimNode.link_eq_some.mp hA.link).2
  have he := hP.reads (j := i) (e := e) (by rw [← hS1, List.getElem?_append_right le_rfl, Nat.sub_self]; simp)
  have hz := hB.reads (j := 0) (e := z) (by simp)
  have hnB : (s.nodes sib).nrSegments = gr.length + 1 := by simp [hB.nrSegments]
  have hhc : (s.nodes a).hasChildren = (s.nodes sib).hasChildren := by
    rw [hA.hasChildren, hB.hasChildren]
    rcases hks with ⟨rfl, rfl, rfl⟩ | ⟨h1, h0, -⟩
    · rfl
    · cases ks0 with
      | nil => simp at h0
      | cons _ _ => cases ks1 with
        | nil => simp at h1
        | cons _ _ => rfl
  -- the child that moves
  have hpush : ks1 = [] ∧ ks0 = [] ∨ ∃ c0, (s.nodes sib).children 0 = some c0 ∧
      ks0 = [c0] ∧ ks1.length = gl.length + 1 := by
    rcases hks with ⟨rfl, rfl, -⟩ | ⟨h1, h0, -⟩
    · exact .inl ⟨rfl, rfl⟩
    · obtain ⟨c0, rfl⟩ := List.length_eq_one.mp h0
      exact .inr ⟨c0, by rw [hB.children]; simp, rfl, h1⟩
  rw [borrowFromNext]
  dsimp only
  generalize hs1 : s.modify a _ = s1
  generalize hs2 : s1.modify p _ = s2
  generalize hs3 : s2.modify sib _ = s3
  have h1a : s1.nodes a = { s.nodes a with
      keys := Function.update (s.nodes a).keys (s.nodes a).nrSegments ((s.nodes p).keys (s.nodes a).parentIndex)
      values := Function.update (s.nodes a).values (s.nodes a).nrSegments
        ((s.nodes p).values (s.nodes a).parentIndex) } := by
    rw [← hs1]; simp
  have h3a : s3.nodes a = s1.nodes a := by rw [← hs3, ← hs2]; simp [hap, has]
  have h3p : s3.nodes p = { s.nodes p with
      keys := Function.update (s.nodes p).keys (s.nodes a).parentIndex ((s.nodes sib).keys 0)
      values := Function.update (s.nodes p).values (s.nodes a).parentIndex ((s.nodes sib).values 0) } := by
    rw [← hs3, ← hs2, ← hs1]; simp [Ne.symm hap, hps]
  have h3s : s3.nodes sib = { s.nodes sib with
      keys := copySlice (s.nodes sib).keys 0 ((s.nodes sib).nrSegments - 1) (s.nodes sib).keys 1 (maxDegree - 1)
      values := clearAt fns (copySlice (s.nodes sib).values 0 ((s.nodes sib).nrSegments - 1) (s.nodes sib).values 1
        (maxDegree - 1)) ((s.nodes sib).nrSegments - 1) } := by
    rw [← hs3, ← hs2, ← hs1]; simp [Ne.symm has, Ne.symm hps]
  have h3 : ∀ w, w ≠ a → w ≠ p → w ≠ sib → s3.nodes w = s.nodes w := fun w h1 h2 h3 => by
    rw [← hs3, ← hs2, ← hs1]; simp [h1, h2, h3]
  rw [← bind_assoc, ite_bind_option]
  generalize hA4 : (if (s.nodes a).hasChildren = true then _ else _ : Option (ReclaimSet V)) = o4
  -- the children of `sib`, without the one `a` takes, are renumbered
  obtain ⟨s4, rfl, h4f, h4a, h4s, h40, h42, h4⟩ : ∃ s4, o4 = some s4 ∧ s4.fresh = s.fresh ∧
      s4.nodes a = { s1.nodes a with children := (if (s.nodes a).hasChildren then Function.update
        (s.nodes a).children ((s.nodes a).nrSegments + 1) ((s.nodes sib).children 0) else (s.nodes a).children) } ∧
      s4.nodes sib = { s3.nodes sib with children := (if (s.nodes a).hasChildren then Function.update (copySlice
        (s.nodes sib).children 0 (s.nodes sib).nrSegments (s.nodes sib).children 1 maxDegree)
        (s.nodes sib).nrSegments none else (s.nodes sib).children) } ∧
      (∀ j (hj : j < ks0.length),
        s4.nodes ks0[j] = { s.nodes ks0[j] with parent := some a, parentIndex := ks1.length + j }) ∧
      (∀ j (hj : j < ks2.length), s4.nodes ks2[j] = { s.nodes ks2[j] with parentIndex := j }) ∧
      ∀ w, w ≠ a → w ≠ sib → w ∉ ks0 ++ ks2 → s4.nodes w = s3.nodes w := by
    rw [← hA4]
    cases hc : (s.nodes a).hasChildren
    · obtain ⟨rfl, rfl⟩ : ks0 = [] ∧ ks2 = [] := by
        rcases hks with ⟨-, h⟩ | ⟨h1, -, -⟩
        · exact h
        · have := hA.hasChildren; rw [hc] at this
          cases ks1 with
          | nil => simp at h1
          | cons _ _ => simp at this
      refine ⟨s3, rfl, by rw [← hs3, ← hs2, ← hs1]; rfl, ?_, ?_, fun j hj => by simp at hj, fun j hj => by simp at hj,
        fun w _ _ _ => rfl⟩
      · rw [h3a, h1a]; rfl
      · rw [h3s]; rfl
    · obtain ⟨c0, hc0, rfl, h1l⟩ : ∃ c0, (s.nodes sib).children 0 = some c0 ∧ ks0 = [c0] ∧
          ks1.length = gl.length + 1 := by
        rcases hpush with ⟨rfl, -⟩ | h
        · have := hA.hasChildren; rw [hc] at this; simp at this
        · exact h
      have h2l : ks2.length = gr.length + 1 := by
        rcases hks with ⟨-, h, -⟩ | ⟨-, -, h⟩
        · simp at h
        · exact h
      simp only [List.singleton_append, List.nodup_cons, List.mem_singleton] at hnd ha0 hp0 hb0
      simp only [↓reduceIte, hc0]
      generalize hs4a : s3.modify a _ = s4a
      generalize hs4b : s4a.modify sib _ = s4b
      have h4a : s4b.nodes a = { s1.nodes a with
          children := Function.update (s.nodes a).children ((s.nodes a).nrSegments + 1) (some c0) } := by
        rw [← hs4b, ← hs4a]; simp [has, h3a, h1a]
      have h4s : s4b.nodes sib = { s3.nodes sib with children := (Function.update (copySlice
          (s.nodes sib).children 0 (s.nodes sib).nrSegments (s.nodes sib).children 1 maxDegree)
          (s.nodes sib).nrSegments none) } := by
        rw [← hs4b, ← hs4a]; simp [Ne.symm has, h3s]
      have h4 : ∀ w, w ≠ a → w ≠ sib → s4b.nodes w = s3.nodes w := fun w h1 h2 => by
        rw [← hs4b, ← hs4a]; simp [h1, h2]
      rw [adopt_of_child (by rw [h4a, h1a]; simp : (s4b.nodes a).children ((s4b.nodes a).nrSegments + 1) = some c0)]
      simp only [Option.some_bind, Option.bind_eq_bind]
      generalize hs4c : s4b.modify c0 _ = s4c
      have h4cs : s4c.nodes sib = s4b.nodes sib := by rw [← hs4c]; simp [hb0]
      have htail := agreeAll_tail hB.children (n := (s.nodes sib).nrSegments)
        (by simp [hnB, h2l]) (by simp [maxDegree] at hroom ⊢; omega : (s.nodes sib).nrSegments + 1 ≤ maxDegree)
      have hch : ∀ j (hj : j < ks2.length), (s4c.nodes sib).children (0 + j) = some ks2[j] := fun j hj => by
        have := htail j
        rw [h4cs, h4s, Nat.zero_add]
        simp only [List.singleton_append, List.drop_one, List.tail_cons] at this ⊢
        rw [this, List.getElem?_eq_getElem hj]
      obtain ⟨s5, h5, h5f, h5in, h5out⟩ := renumberChildren_spec sib ks2 s4c 0 hnd.2 hch
      have hnr : (s4c.nodes sib).nrSegments = 0 + ks2.length := by rw [h4cs, h4s, h3s]; simp [hnB, h2l]
      rw [hnr, h5]
      have h5c : ∀ w, w ∉ ks2 → s5.nodes w = s4c.nodes w := h5out
      have h5f' : s5.fresh = s.fresh := by
        rw [h5f, ← hs4c, modify_fresh, ← hs4b, modify_fresh, ← hs4a, modify_fresh, ← hs3, ← hs2, ← hs1]; rfl
      refine ⟨s5, rfl, h5f', ?_, ?_, fun j hj => ?_, fun j hj => ?_, fun w hwa hws hw => ?_⟩
      · rw [h5c a ha2, ← hs4c, modify_nodes, if_neg ha0, h4a]
      · rw [h5c sib hb2, h4cs, h4s]
      · obtain rfl : j = 0 := by simpa using hj
        rw [List.getElem_singleton, h5c c0 hnd.1, ← hs4c, modify_nodes, if_pos rfl, h4 c0 (Ne.symm ha0) (Ne.symm hb0),
          h3 c0 (Ne.symm ha0) (Ne.symm hp0) (Ne.symm hb0), h4a, h1a]
        simp [hA.nrSegments, h1l]
      · have hm := List.getElem_mem hj
        have hwa : ks2[j] ≠ a := fun h => ha2 (h ▸ hm)
        have hwp : ks2[j] ≠ p := fun h => hp2 (h ▸ hm)
        have hws : ks2[j] ≠ sib := fun h => hb2 (h ▸ hm)
        have hwc : ks2[j] ≠ c0 := fun h => hnd.1 (h ▸ hm)
        rw [h5in j hj, ← hs4c, modify_nodes, if_neg hwc, h4 _ hwa hws, h3 _ hwa hwp hws, Nat.zero_add]
      · simp only [List.singleton_append, List.mem_cons, not_or] at hw
        rw [h5c w hw.2, ← hs4c, modify_nodes, if_neg hw.1, h4 w hwa hws]
  simp only [Option.some_bind, Option.bind_eq_bind, Option.pure_def]
  have hpe : ((s.nodes p).keys (s.nodes a).parentIndex, (s.nodes p).values (s.nodes a).parentIndex) = e := by
    rw [hai, he.2.1, he.2.2]
  rw [hhc] at h4s
  generalize hs5 : s4.modify a _ = s5
  generalize hs6 : s5.modify sib _ = s6
  have h6s : s6.nodes sib = { s4.nodes sib with nrSegments := (s4.nodes sib).nrSegments - 1 } := by
    rw [← hs6, ← hs5]; simp [Ne.symm has]
  have h6a : s6.nodes a = { s4.nodes a with nrSegments := (s4.nodes a).nrSegments + 1 } := by
    rw [← hs6, ← hs5]; simp [has]
  have h6 : ∀ w, w ≠ a → w ≠ sib → s6.nodes w = s4.nodes w := fun w h1 h2 => by rw [← hs6, ← hs5]; simp [h1, h2]
  have h6n : (s6.nodes a).nrSegments = gl.length + 1 := by rw [h6a, h4a, h1a]; simp [hA.nrSegments]
  rw [h6n]
  refine ⟨s6, rfl, by rw [← hs6, ← hs5, modify_fresh, modify_fresh, h4f], ?_, ?_, ?_, fun j hj => ?_, fun j hj => ?_,
    fun w hw => ?_⟩
  · rw [h6a, h4a, h1a, ← hpe]
    exact hA.pushBack ((s.nodes p).keys (s.nodes a).parentIndex, (s.nodes p).values (s.nodes a).parentIndex) _ hpush
  · rw [h6s, h4s, h3s]
    exact hB.popFront (hks.imp (fun h => ⟨h.2.1, h.2.2⟩) fun h => ⟨h.2.1, h.2.2⟩) hroom fns
  · have hset : (S1 ++ e :: S2).set i z = S1 ++ z :: S2 := by rw [← hS1]; simp
    rw [h6 p (Ne.symm hap) hps, h4 p (Ne.symm hap) hps (by simp [hp0, hp2]), h3p, hai, hz.2.1, hz.2.2, ← hset]
    exact hP.setSeg (by simp; omega) z
  · have hm := List.getElem_mem hj
    rw [h6 _ (fun h => ha0 (h ▸ hm)) (fun h => hb0 (h ▸ hm)), h40 j hj]
  · have hm := List.getElem_mem hj
    rw [h6 _ (fun h => ha2 (h ▸ hm)) (fun h => hb2 (h ▸ hm)), h42 j hj]
  · simp only [List.mem_cons, List.mem_append, not_or] at hw
    obtain ⟨hwa, hwp, hws, hw0, hw2⟩ := hw
    rw [h6 w hwa hws, h4 w hwa hws (by simp [hw0, hw2]), h3 w hwa hwp hws]

end ReclaimSet

namespace Tree

variable {s s' : ReclaimSet V}

/-- The heap stores a node with two adjacent children `X` and `Y` when it stores the node, the
children before, the two and the children after. -/
theorem rep_window {p : Nat} {S : List (FileRange × V)} {L R : List (Tree V)} {X Y : Tree V}
    {up : Option (Nat × Nat)} :
    Rep s (node p S (L ++ X :: Y :: R)) up ↔ (s.nodes p).Holds S (L.map Tree.id ++ X.id :: Y.id :: R.map Tree.id) up ∧
      RepKids s p 0 L ∧ Rep s X (some (p, L.length)) ∧ Rep s Y (some (p, L.length + 1)) ∧
      RepKids s p (L.length + 2) R := by
  rw [rep_node, repKids_append, RepKids, RepKids, Nat.zero_add, Nat.add_assoc]
  simp

/-- A node keeps its height when two adjacent children are replaced by two of their height. -/
theorem hasHeight_pair {n p : Nat} {S S' : List (FileRange × V)} {L R : List (Tree V)} {X Y X' Y' : Tree V}
    (h : HasHeight n (node p S (L ++ X :: Y :: R))) (hS : S'.length = S.length)
    (hXY : ∀ m, HasHeight m X → HasHeight m Y → HasHeight m X' ∧ HasHeight m Y') :
    HasHeight n (node p S' (L ++ X' :: Y' :: R)) := by
  cases n with
  | zero => simp [HasHeight] at h
  | succ n =>
    obtain ⟨hlen, hall⟩ := hasHeight_succ.mp h
    obtain ⟨hx, hy⟩ := hXY n (hall X (by simp)) (hall Y (by simp))
    refine hasHeight_succ.mpr ⟨by simp at hlen ⊢; omega, fun k hk => ?_⟩
    simp only [List.mem_append, List.mem_cons] at hk
    rcases hk with hk | rfl | rfl | hk
    · exact hall k (by simp [hk])
    · exact hx
    · exact hy
    · exact hall k (by simp [hk])

/-- Two children of one height, the first with its last child set apart: after a borrow from
the first they keep the height, and their children have the lengths the borrow needs. -/
theorem shape_borrowPrev {m x y : Nat} {gl gr : List (FileRange × V)} {z e : FileRange × V}
    {ks1 ks0 ks2 : List (Tree V)} (hx : HasHeight m (node x (gl ++ [z]) (ks1 ++ ks0)))
    (hy : HasHeight m (node y gr ks2)) (hk0 : ks1 = [] ∧ ks0 = [] ∨ ks0.length = 1) :
    (ks1 = [] ∧ ks0 = [] ∧ ks2 = [] ∨ ks1.length = gl.length + 1 ∧ ks0.length = 1 ∧ ks2.length = gr.length + 1) ∧
      HasHeight m (node x gl ks1) ∧ HasHeight m (node y (e :: gr) (ks0 ++ ks2)) := by
  cases m with
  | zero =>
    simp only [HasHeight, List.append_eq_nil] at hx hy
    obtain ⟨rfl, rfl⟩ := hx
    subst hy
    exact ⟨.inl ⟨rfl, rfl, rfl⟩, rfl, rfl⟩
  | succ m =>
    obtain ⟨hxl, hxa⟩ := hasHeight_succ.mp hx
    obtain ⟨hyl, hya⟩ := hasHeight_succ.mp hy
    have h0 : ks0.length = 1 := by
      rcases hk0 with ⟨rfl, rfl⟩ | h
      · simp at hxl
      · exact h
    have h1 : ks1.length = gl.length + 1 := by simp at hxl; omega
    refine ⟨.inr ⟨h1, h0, hyl⟩, hasHeight_succ.mpr ⟨h1, fun k hk => hxa k (List.mem_append_left _ hk)⟩,
      hasHeight_succ.mpr ⟨by simp [hyl, h0]; omega, fun k hk => ?_⟩⟩
    rcases List.mem_append.mp hk with hk | hk
    exacts [hxa k (List.mem_append_right _ hk), hya k hk]

/-- Two children of one height, the second with its first child set apart: after a borrow from
the second they keep the height, and their children have the lengths the borrow needs. -/
theorem shape_borrowNext {m x y : Nat} {gl gr : List (FileRange × V)} {z e : FileRange × V}
    {ks1 ks0 ks2 : List (Tree V)} (hx : HasHeight m (node x gl ks1))
    (hy : HasHeight m (node y (z :: gr) (ks0 ++ ks2))) (hk0 : ks0 = [] ∧ ks2 = [] ∨ ks0.length = 1) :
    (ks1 = [] ∧ ks0 = [] ∧ ks2 = [] ∨ ks1.length = gl.length + 1 ∧ ks0.length = 1 ∧ ks2.length = gr.length + 1) ∧
      HasHeight m (node x (gl ++ [e]) (ks1 ++ ks0)) ∧ HasHeight m (node y gr ks2) := by
  cases m with
  | zero =>
    simp only [HasHeight, List.append_eq_nil] at hx hy
    obtain ⟨rfl, rfl⟩ := hy
    subst hx
    exact ⟨.inl ⟨rfl, rfl, rfl⟩, rfl, rfl⟩
  | succ m =>
    obtain ⟨hxl, hxa⟩ := hasHeight_succ.mp hx
    obtain ⟨hyl, hya⟩ := hasHeight_succ.mp hy
    have h0 : ks0.length = 1 := by
      rcases hk0 with ⟨rfl, rfl⟩ | h
      · simp at hyl
      · exact h
    have h2 : ks2.length = gr.length + 1 := by simp at hyl; omega
    refine ⟨.inr ⟨hxl, h0, h2⟩, hasHeight_succ.mpr ⟨by simp [hxl, h0], fun k hk => ?_⟩,
      hasHeight_succ.mpr ⟨h2, fun k hk => hya k (List.mem_append_right _ hk)⟩⟩
    rcases List.mem_append.mp hk with hk | hk
    exacts [hxa k hk, hya k (List.mem_append_left _ hk)]

section Borrow

variable (fns : SetFunctions V)

/-- Borrowing for the child `a` of node `p` from its previous sibling `sib` at the end of a path:
the heap stores the tree with `sib`'s last segment moved up into `p` and the separator moved
down into `a`, and its traversal is the one before with the places of `sib`, `a` and `p`
renamed. -/
theorem Around.borrowFromPrev (gap : ReclaimGapIterator) {fs : List (Frame V)} {p a sib : Nat}
    {S1 S2 gl gr : List (FileRange × V)} {e z : FileRange × V} {L R ks1 ks0 ks2 : List (Tree V)}
    (h : Around s fs (node p (S1 ++ e :: S2) (L ++ node sib (gl ++ [z]) (ks1 ++ ks0) :: node a gr ks2 :: R)))
    (hS1 : S1.length = L.length) (hk0 : ks1 = [] ∧ ks0 = [] ∨ ks0.length = 1)
    (hroom : gr.length + 1 ≤ maxDegree - 1) :
    ∃ s', s.borrowFromPrev fns a sib p gap = some (s', if gap.node = some sib ∧ gap.index = gl.length then
        ⟨some a, 0⟩ else if gap.node = some a then ⟨some a, gap.index + 1⟩ else gap) ∧
      s'.fresh = s.fresh ∧
      Around s' fs (node p (S1 ++ z :: S2) (L ++ node sib gl ks1 :: node a (e :: gr) (ks0 ++ ks2) :: R)) ∧
      walk (plug fs (node p (S1 ++ z :: S2) (L ++ node sib gl ks1 :: node a (e :: gr) (ks0 ++ ks2) :: R))) =
        (walk (plug fs (node p (S1 ++ e :: S2) (L ++ node sib (gl ++ [z]) (ks1 ++ ks0) :: node a gr ks2 :: R)))).map
          (Pos.relabel (splitGap sib gl.length sib a ∘ joinGap sib (gl.length + 1) a)
            (splitSeg sib gl.length sib a p L.length ∘ joinSeg sib (gl.length + 1) a p L.length)) := by
  -- the parts of the heap the borrow reads
  obtain ⟨-, hru⟩ := (rep_plug fs _).mp h.rep
  obtain ⟨hP, hL, hXr, hYr, hR⟩ := rep_window.mp hru
  obtain ⟨hXh, hkx⟩ := rep_node.mp hXr
  obtain ⟨hk1, hk0r⟩ := (repKids_append sib 0 ks1 ks0).mp hkx
  obtain ⟨hYh, hky⟩ := rep_node.mp hYr
  obtain ⟨n, hn, -⟩ := h.height
  obtain ⟨m, hm, -⟩ := hasHeight_of_plug fs hn
  obtain ⟨m, rfl⟩ : ∃ m', m = m' + 1 := ⟨m - 1, by cases m <;> simp_all [HasHeight]⟩
  have hall := (hasHeight_succ.mp hm).2
  obtain ⟨hks, -, -⟩ := shape_borrowPrev (e := e) (hall (node sib (gl ++ [z]) (ks1 ++ ks0)) (by simp))
    (hall (node a gr ks2) (by simp)) hk0
  -- the nodes the borrow changes, and those it keeps
  have hperm : (ids (node p (S1 ++ e :: S2) (L ++ node sib (gl ++ [z]) (ks1 ++ ks0) :: node a gr ks2 :: R))).Perm
      ((a :: p :: sib :: (ks0.map Tree.id ++ ks2.map Tree.id)) ++ (idsList L ++ idsList R ++ idsList ks1 ++
        idsList (ks0.flatMap Tree.kids) ++ idsList (ks2.flatMap Tree.kids))) := List.perm_iff_count.mpr fun w => by
    have h1 := List.perm_iff_count.mp (idsList_perm_roots ks0) w
    have h2 := List.perm_iff_count.mp (idsList_perm_roots ks2) w
    simp only [ids, idsList, idsList_append, List.count_cons, List.count_append, List.cons_append,
      List.singleton_append, List.count_nil] at h1 h2 ⊢
    omega
  have hperm2 : (ids (node p (S1 ++ e :: S2) (L ++ node sib (gl ++ [z]) (ks1 ++ ks0) :: node a gr ks2 :: R))).Perm
      (p :: sib :: a :: idsList (L ++ R ++ ks1 ++ ks0 ++ ks2)) := List.perm_iff_count.mpr fun w => by
    simp only [ids, idsList, idsList_append, List.count_cons, List.count_append, List.count_nil]; omega
  have hsame : (ids (node p (S1 ++ z :: S2) (L ++ node sib gl ks1 :: node a (e :: gr) (ks0 ++ ks2) :: R))).Perm
      (ids (node p (S1 ++ e :: S2) (L ++ node sib (gl ++ [z]) (ks1 ++ ks0) :: node a gr ks2 :: R))) :=
    List.perm_iff_count.mpr fun w => by
      simp only [ids, idsList, idsList_append, List.count_cons, List.count_append, List.count_nil]; omega
  have hctxu := List.nodup_append.mp ((ids_plug_perm fs _).nodup_iff.mp h.nodup)
  obtain ⟨hD, -, hDE⟩ := List.nodup_append.mp (hperm.nodup_iff.mp hctxu.2.1)
  obtain ⟨s', hb, hf', hX', hY', hP', h0', h2', hout'⟩ := ReclaimSet.borrowFromPrev_spec fns gap
    (by simpa using hXh : (s.nodes sib).Holds _ (ks1.map Tree.id ++ ks0.map Tree.id) _) hYh
    (by simpa using hP : (s.nodes p).Holds _ (L.map Tree.id ++ sib :: a :: R.map Tree.id) _) hS1
    (by simpa using hks) hroom hD
  have hkeep : ∀ w ∈ idsList L ++ idsList R ++ idsList ks1 ++ idsList (ks0.flatMap Tree.kids) ++
      idsList (ks2.flatMap Tree.kids), s'.nodes w = s.nodes w := fun w hw => hout' w fun hwD => hDE hwD hw
  have hctx : ∀ w ∈ ctxIds fs, s'.nodes w = s.nodes w := fun w hw =>
    hout' w fun hwD => hctxu.2.2 hw (hperm.mem_iff.mpr (List.mem_append_left _ hwD))
  -- the heap stores the window after the borrow
  have hrep' : Rep s' (node p (S1 ++ z :: S2) (L ++ node sib gl ks1 :: node a (e :: gr) (ks0 ++ ks2) :: R))
      (linkTo fs) := by
    have hlink : ∀ j (hj : j < ks2.length), (s.nodes ks2[j].id).parent = some a := fun j hj =>
      (ReclaimNode.link_eq_some.mp ((repKids_iff a _ ks2).mp hky j hj).link).1
    refine rep_window.mpr ⟨by simpa using hP', (repKids_congr p 0 L fun w hw => hkeep w (by simp [hw])).mpr hL,
      rep_node.mpr ⟨by simpa using hX', (repKids_congr sib 0 ks1 fun w hw => hkeep w (by simp [hw])).mpr hk1⟩,
      rep_node.mpr ⟨by simpa using hY', (repKids_append a 0 ks0 ks2).mpr ⟨?_, ?_⟩⟩,
      (repKids_congr p _ R fun w hw => hkeep w (by simp [hw])).mpr hR⟩
    · refine repKids_relink hk0r (fun j hj => ?_) fun k hk w hw => hkeep w (by simp [mem_idsList_flatMap hk hw])
      have := h0' j (by simpa using hj)
      simp only [List.getElem_map] at this
      rw [this, Nat.zero_add]
    · refine repKids_relink hky (fun j hj => ?_) fun k hk w hw => hkeep w (by simp [mem_idsList_flatMap hk hw])
      rw [← ReclaimNode.relink_eq (hlink j hj)]
      have := h2' j (by simpa using hj)
      simp only [List.getElem_map, List.length_map] at this
      rw [this, Nat.zero_add]
  -- the traversal
  obtain ⟨hp_notin, hs_nd⟩ := List.nodup_cons.mp (hperm2.nodup_iff.mp hctxu.2.1)
  obtain ⟨hs_notin, ha_nd⟩ := List.nodup_cons.mp hs_nd
  have ha_notin := (List.nodup_cons.mp ha_nd).1
  have hfix : ∀ c ∈ idsList (L ++ R ++ ks1 ++ ks0 ++ ks2), c ≠ sib ∧ c ≠ p ∧ c ≠ a := fun c hc =>
    ⟨fun h => hs_notin (List.mem_cons_of_mem _ (h ▸ hc)),
      fun h => hp_notin (List.mem_cons_of_mem _ (List.mem_cons_of_mem _ (h ▸ hc))), fun h => ha_notin (h ▸ hc)⟩
  have hwalk := @walk_borrowPrev V p sib a S1 S2 gl gr e z L R ks1 ks0 ks2 hS1 hks hfix
    (fun h => hp_notin (by simp [h])) (fun h => hp_notin (by simp [h])) (fun h => hs_notin (by simp [h]))
  have hca : ∀ c ∈ ctxIds fs, c ≠ sib ∧ c ≠ p ∧ c ≠ a := fun c hc =>
    ⟨fun h => hctxu.2.2 hc (hperm2.mem_iff.mpr (by simp [h])), fun h => hctxu.2.2 hc (hperm2.mem_iff.mpr (by simp [h])),
      fun h => hctxu.2.2 hc (hperm2.mem_iff.mpr (by simp [h]))⟩
  refine ⟨s', hb, hf', h.replace rfl hctx hrep'
    (fun n hn' => hasHeight_pair hn' (by simp) fun m hx hy => (shape_borrowPrev hx hy hk0).2)
    (hsame.nodup_iff.mpr hctxu.2.1) (fun w hw => .inl (hsame.mem_iff.mp hw))
    (fun w hw => hf' ▸ h.fresh w ((ids_plug_perm fs _).mem_iff.mpr (List.mem_append_right _ (hsame.mem_iff.mp hw))))
    hf'.ge, (walk_plug_relabel h.fits (fun c hc => (fixes_join (hca c hc).2.2 (hca c hc).2.1).comp
      (fixes_split (hca c hc).1 (hca c hc).2.1)) hwalk).symm⟩

/-- Borrowing for the child `a` of node `p` from its next sibling `sib` at the end of a path:
the heap stores the tree with `sib`'s first segment moved up into `p` and the separator moved
down into `a`, and its traversal is the one before with the places of `a`, `sib` and `p`
renamed. -/
theorem Around.borrowFromNext (gap : ReclaimGapIterator) {fs : List (Frame V)} {p a sib : Nat}
    {S1 S2 gl gr : List (FileRange × V)} {e z : FileRange × V} {L R ks1 ks0 ks2 : List (Tree V)}
    (h : Around s fs (node p (S1 ++ e :: S2) (L ++ node a gl ks1 :: node sib (z :: gr) (ks0 ++ ks2) :: R)))
    (hS1 : S1.length = L.length) (hk0 : ks0 = [] ∧ ks2 = [] ∨ ks0.length = 1)
    (hroom : gr.length + 1 ≤ maxDegree - 1) :
    ∃ s', s.borrowFromNext fns a sib p gap = some (s', if gap.node = some sib then
        (if gap.index = 0 then ⟨some a, gl.length + 1⟩ else ⟨some sib, gap.index - 1⟩) else gap) ∧
      s'.fresh = s.fresh ∧
      Around s' fs (node p (S1 ++ z :: S2) (L ++ node a (gl ++ [e]) (ks1 ++ ks0) :: node sib gr ks2 :: R)) ∧
      walk (plug fs (node p (S1 ++ z :: S2) (L ++ node a (gl ++ [e]) (ks1 ++ ks0) :: node sib gr ks2 :: R))) =
        (walk (plug fs (node p (S1 ++ e :: S2) (L ++ node a gl ks1 :: node sib (z :: gr) (ks0 ++ ks2) :: R)))).map
          (Pos.relabel (splitGap a (gl.length + 1) a sib ∘ joinGap a gl.length sib)
            (splitSeg a (gl.length + 1) a sib p L.length ∘ joinSeg a gl.length sib p L.length)) := by
  -- the parts of the heap the borrow reads
  obtain ⟨-, hru⟩ := (rep_plug fs _).mp h.rep
  obtain ⟨hP, hL, hXr, hYr, hR⟩ := rep_window.mp hru
  obtain ⟨hXh, hkx⟩ := rep_node.mp hXr
  obtain ⟨hYh, hky⟩ := rep_node.mp hYr
  obtain ⟨hk0r, hk2⟩ := (repKids_append sib 0 ks0 ks2).mp hky
  obtain ⟨n, hn, -⟩ := h.height
  obtain ⟨m, hm, -⟩ := hasHeight_of_plug fs hn
  obtain ⟨m, rfl⟩ : ∃ m', m = m' + 1 := ⟨m - 1, by cases m <;> simp_all [HasHeight]⟩
  have hall := (hasHeight_succ.mp hm).2
  obtain ⟨hks, -, -⟩ := shape_borrowNext (e := e) (hall (node a gl ks1) (by simp))
    (hall (node sib (z :: gr) (ks0 ++ ks2)) (by simp)) hk0
  -- the nodes the borrow changes, and those it keeps
  have hperm : (ids (node p (S1 ++ e :: S2) (L ++ node a gl ks1 :: node sib (z :: gr) (ks0 ++ ks2) :: R))).Perm
      ((a :: p :: sib :: (ks0.map Tree.id ++ ks2.map Tree.id)) ++ (idsList L ++ idsList R ++ idsList ks1 ++
        idsList (ks0.flatMap Tree.kids) ++ idsList (ks2.flatMap Tree.kids))) := List.perm_iff_count.mpr fun w => by
    have h1 := List.perm_iff_count.mp (idsList_perm_roots ks0) w
    have h2 := List.perm_iff_count.mp (idsList_perm_roots ks2) w
    simp only [ids, idsList, idsList_append, List.count_cons, List.count_append, List.cons_append,
      List.singleton_append, List.count_nil] at h1 h2 ⊢
    omega
  have hperm2 : (ids (node p (S1 ++ e :: S2) (L ++ node a gl ks1 :: node sib (z :: gr) (ks0 ++ ks2) :: R))).Perm
      (p :: a :: sib :: idsList (L ++ R ++ ks1 ++ ks0 ++ ks2)) := List.perm_iff_count.mpr fun w => by
    simp only [ids, idsList, idsList_append, List.count_cons, List.count_append, List.count_nil]; omega
  have hsame : (ids (node p (S1 ++ z :: S2) (L ++ node a (gl ++ [e]) (ks1 ++ ks0) :: node sib gr ks2 :: R))).Perm
      (ids (node p (S1 ++ e :: S2) (L ++ node a gl ks1 :: node sib (z :: gr) (ks0 ++ ks2) :: R))) :=
    List.perm_iff_count.mpr fun w => by
      simp only [ids, idsList, idsList_append, List.count_cons, List.count_append, List.count_nil]; omega
  have hctxu := List.nodup_append.mp ((ids_plug_perm fs _).nodup_iff.mp h.nodup)
  obtain ⟨hD, -, hDE⟩ := List.nodup_append.mp (hperm.nodup_iff.mp hctxu.2.1)
  obtain ⟨s', hb, hf', hX', hY', hP', h0', h2', hout'⟩ := ReclaimSet.borrowFromNext_spec fns gap hXh
    (by simpa using hYh : (s.nodes sib).Holds _ (ks0.map Tree.id ++ ks2.map Tree.id) _)
    (by simpa using hP : (s.nodes p).Holds _ (L.map Tree.id ++ a :: sib :: R.map Tree.id) _) hS1
    (by simpa using hks) hroom hD
  have hkeep : ∀ w ∈ idsList L ++ idsList R ++ idsList ks1 ++ idsList (ks0.flatMap Tree.kids) ++
      idsList (ks2.flatMap Tree.kids), s'.nodes w = s.nodes w := fun w hw => hout' w fun hwD => hDE hwD hw
  have hctx : ∀ w ∈ ctxIds fs, s'.nodes w = s.nodes w := fun w hw =>
    hout' w fun hwD => hctxu.2.2 hw (hperm.mem_iff.mpr (List.mem_append_left _ hwD))
  -- the heap stores the window after the borrow
  have hrep' : Rep s' (node p (S1 ++ z :: S2) (L ++ node a (gl ++ [e]) (ks1 ++ ks0) :: node sib gr ks2 :: R))
      (linkTo fs) := by
    have hlink : ∀ j (hj : j < ks2.length), (s.nodes ks2[j].id).parent = some sib := fun j hj =>
      (ReclaimNode.link_eq_some.mp ((repKids_iff sib _ ks2).mp hk2 j hj).link).1
    refine rep_window.mpr ⟨by simpa using hP', (repKids_congr p 0 L fun w hw => hkeep w (by simp [hw])).mpr hL,
      rep_node.mpr ⟨by simpa using hX', (repKids_append a 0 ks1 ks0).mpr
        ⟨(repKids_congr a 0 ks1 fun w hw => hkeep w (by simp [hw])).mpr hkx, ?_⟩⟩,
      rep_node.mpr ⟨by simpa using hY', ?_⟩, (repKids_congr p _ R fun w hw => hkeep w (by simp [hw])).mpr hR⟩
    · refine repKids_relink hk0r (fun j hj => ?_) fun k hk w hw => hkeep w (by simp [mem_idsList_flatMap hk hw])
      have := h0' j (by simpa using hj)
      simp only [List.getElem_map, List.length_map] at this
      rw [this, Nat.zero_add]
    · refine repKids_relink hk2 (fun j hj => ?_) fun k hk w hw => hkeep w (by simp [mem_idsList_flatMap hk hw])
      rw [← ReclaimNode.relink_eq (hlink j hj)]
      have := h2' j (by simpa using hj)
      simp only [List.getElem_map] at this
      rw [this, Nat.zero_add]
  -- the traversal
  obtain ⟨hp_notin, ha_nd⟩ := List.nodup_cons.mp (hperm2.nodup_iff.mp hctxu.2.1)
  obtain ⟨ha_notin, hs_nd⟩ := List.nodup_cons.mp ha_nd
  have hs_notin := (List.nodup_cons.mp hs_nd).1
  have hfix : ∀ c ∈ idsList (L ++ R ++ ks1 ++ ks0 ++ ks2), c ≠ a ∧ c ≠ p ∧ c ≠ sib := fun c hc =>
    ⟨fun h => ha_notin (List.mem_cons_of_mem _ (h ▸ hc)),
      fun h => hp_notin (List.mem_cons_of_mem _ (List.mem_cons_of_mem _ (h ▸ hc))), fun h => hs_notin (h ▸ hc)⟩
  have hwalk := @walk_borrowNext V p a sib S1 S2 gl gr e z L R ks1 ks0 ks2 hS1 hks hfix
    (fun h => hp_notin (by simp [h])) (fun h => hp_notin (by simp [h])) (fun h => ha_notin (by simp [h]))
  have hca : ∀ c ∈ ctxIds fs, c ≠ a ∧ c ≠ p ∧ c ≠ sib := fun c hc =>
    ⟨fun h => hctxu.2.2 hc (hperm2.mem_iff.mpr (by simp [h])), fun h => hctxu.2.2 hc (hperm2.mem_iff.mpr (by simp [h])),
      fun h => hctxu.2.2 hc (hperm2.mem_iff.mpr (by simp [h]))⟩
  refine ⟨s', hb, hf', h.replace rfl hctx hrep'
    (fun n hn' => hasHeight_pair hn' (by simp) fun m hx hy => (shape_borrowNext hx hy hk0).2)
    (hsame.nodup_iff.mpr hctxu.2.1) (fun w hw => .inl (hsame.mem_iff.mp hw))
    (fun w hw => hf' ▸ h.fresh w ((ids_plug_perm fs _).mem_iff.mpr (List.mem_append_right _ (hsame.mem_iff.mp hw))))
    hf'.ge, (walk_plug_relabel h.fits (fun c hc => (fixes_join (hca c hc).2.2 (hca c hc).2.1).comp
      (fixes_split (hca c hc).1 (hca c hc).2.1)) hwalk).symm⟩

end Borrow

end Tree

end Gvisor.Segment
