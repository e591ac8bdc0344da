import Gvisor.Segment.Path

/-!
# The splits of `rebalanceBeforeInsert`

A full node is split around its middle segment before an insertion. `splitNonRoot_spec` and
`splitRoot_spec` say what the two splits write, node by node: the halves and the middle
segment are stored where the tree after the split has them, the moved children are linked
to their new parent, and no other node changes. `Shape.splitNonRoot` and `Shape.splitRoot`
turn this into the tree after the split, whose traversal is the one before it with its
places renamed (`walk_splitChild`, `walk_splitNode`): the split keeps `seq`, and the gap
iterator it returns follows its gap.
-/

set_option autoImplicit false

namespace Gvisor.Segment

variable {V : Type}

/-! ### Arrays -/

section Arrays

variable {α : Type}

theorem agree_append_left {arr : Nat → α} {l1 l2 : List α} (h : Agree arr (l1 ++ l2)) : Agree arr l1 :=
  fun i hi => by rw [h i (by simp; omega), List.getElem_append_left hi]

theorem agree_clearSlice {fns : SetFunctions V} {values : Nat → V} {l : List V} (h : Agree values l) {lo hi : Nat}
    (hlo : l.length ≤ lo) : Agree (clearSlice fns values lo hi) l := fun i hi' => by
  rw [clearSlice, if_neg (by omega), h i hi']

end Arrays

namespace ReclaimNode

/-- A node with a new parent link holds what it held. -/
theorem Holds.relink {n : ReclaimNode V} {segs : List (FileRange × V)} {kids : List Nat} {up : Option (Nat × Nat)}
    (h : n.Holds segs kids up) (p i : Nat) :
    ({ n with parent := some p, parentIndex := i } : ReclaimNode V).Holds segs kids (some (p, i)) :=
  ⟨h.nrSegments, h.keys, h.values, h.hasChildren, h.children, rfl⟩

/-- The parent's side of a split: the middle segment `x` goes in at index `i`, after the
separators before the split child, and the new node `c` goes in after the child. -/
theorem Holds.insertAt {n : ReclaimNode V} {segs : List (FileRange × V)} {cl cr : List Nat} {a i : Nat}
    {up : Option (Nat × Nat)} (h : n.Holds segs (cl ++ a :: cr) up) (hcl : cl.length = i)
    (hcr : i + cr.length = segs.length) (hroom : segs.length < maxDegree - 1) (x : FileRange × V) (c : Nat) :
    ({ n with
        nrSegments := n.nrSegments + 1
        keys := Function.update (copySlice n.keys (i + 1) (maxDegree - 1) n.keys i n.nrSegments) i x.1
        values := Function.update (copySlice n.values (i + 1) (maxDegree - 1) n.values i n.nrSegments) i x.2
        children := Function.update (copySlice n.children (i + 2) maxDegree n.children (i + 1) (n.nrSegments + 1))
          (i + 1) (some c) } : ReclaimNode V).Holds (segs.take i ++ x :: segs.drop i) (cl ++ a :: c :: cr) up := by
  have hnr := h.nrSegments
  have hlen : (cl ++ a :: cr).length = n.nrSegments + 1 := by simp; omega
  refine ⟨by simp [hnr]; omega, ?_, ?_, by rw [h.hasChildren]; cases cl <;> rfl, ?_, h.link⟩
  · have := agree_insert h.keys (by simp; omega : i ≤ _) (by simp; omega : _ < maxDegree - 1) x.1
    simpa [hnr, List.map_take, List.map_drop] using this
  · have := agree_insert h.values (by simp; omega : i ≤ _) (by simp; omega : _ < maxDegree - 1) x.2
    simpa [hnr, List.map_take, List.map_drop] using this
  · have := agreeAll_insert h.children (by simp; omega : i + 1 ≤ _)
      (by simp [maxDegree] at hroom ⊢; omega : _ < maxDegree) c
    have hl : (cl ++ a :: cr).take (i + 1) ++ c :: (cl ++ a :: cr).drop (i + 1) = cl ++ a :: c :: cr := by
      subst hcl
      simp [List.take_append_eq_append_take, List.drop_append_eq_append_drop, List.take_of_length_le,
        List.drop_of_length_le]
    rwa [hlen, hl] at this

section Halves

variable {n : ReclaimNode V} {g1 g2 : List (FileRange × V)} {e : FileRange × V} {cs1 cs2 : List Nat}
  {up : Option (Nat × Nat)}

/-- The node a split makes for the upper half: the segments after the middle one, and the
children after the middle. -/
theorem Holds.upper [Inhabited V] (h : n.Holds (g1 ++ e :: g2) (cs1 ++ cs2) up) (hg1 : g1.length = minDegree - 1)
    (hg2 : g2.length = minDegree - 1) (hcs : cs1 = [] ∧ cs2 = [] ∨ cs1.length = minDegree ∧ cs2.length = minDegree)
    (p i : Nat) :
    ({ (ReclaimNode.new (minDegree - 1) p i n.hasChildren : ReclaimNode V) with
        keys := copySlice (ReclaimNode.new (minDegree - 1) p i n.hasChildren : ReclaimNode V).keys 0 (minDegree - 1)
          n.keys minDegree (maxDegree - 1)
        values := copySlice (ReclaimNode.new (minDegree - 1) p i n.hasChildren : ReclaimNode V).values 0
          (minDegree - 1) n.values minDegree (maxDegree - 1)
        children := if n.hasChildren then
            copySlice (ReclaimNode.new (minDegree - 1) p i n.hasChildren : ReclaimNode V).children 0 minDegree
              n.children minDegree maxDegree
          else (ReclaimNode.new (minDegree - 1) p i n.hasChildren : ReclaimNode V).children } : ReclaimNode V).Holds
      g2 cs2 (some (p, i)) := by
  have hwin : ∀ {α : Type} (f : FileRange × V → α),
      (((g1 ++ e :: g2).map f).drop minDegree).take (minDegree - 1) = g2.map f := fun f => by
    rw [show minDegree = g1.length + 1 by simp [hg1, minDegree], List.map_append, List.map_cons,
      List.drop_append_eq_append_drop]
    simp [List.take_of_length_le, hg2, hg1]
  refine ⟨by simp [ReclaimNode.new, hg2], ?_, ?_, ?_, ?_, rfl⟩
  · rw [← hwin]
    exact agree_copy h.keys (by simp [hg1, hg2, maxDegree, minDegree] : minDegree + (minDegree - 1) ≤ _)
      (by simp [maxDegree, minDegree] : _ ≤ maxDegree - 1 - minDegree)
  · rw [← hwin]
    exact agree_copy h.values (by simp [hg1, hg2, maxDegree, minDegree] : minDegree + (minDegree - 1) ≤ _)
      (by simp [maxDegree, minDegree] : _ ≤ maxDegree - 1 - minDegree)
  · show n.hasChildren = !cs2.isEmpty
    rw [h.hasChildren]
    rcases hcs with ⟨rfl, rfl⟩ | ⟨-, h2⟩
    · rfl
    · cases cs2 with
      | nil => simp [minDegree] at h2
      | cons y ys => cases cs1 <;> rfl
  · rcases hcs with ⟨rfl, rfl⟩ | ⟨h1, h2⟩
    · have hc : n.hasChildren = false := by simpa using h.hasChildren
      simpa [hc, ReclaimNode.new, ReclaimNode.zero] using agreeAll_nil
    · have hc : n.hasChildren = true := by
        rw [h.hasChildren]
        cases cs2 with
        | nil => simp [minDegree] at h2
        | cons y ys => cases cs1 <;> rfl
      have : AgreeAll (copySlice (ReclaimNode.new (minDegree - 1) p i n.hasChildren : ReclaimNode V).children 0
          minDegree n.children minDegree maxDegree) (((cs1 ++ cs2).drop minDegree).take minDegree) :=
        agreeAll_copy (fun _ => rfl) h.children (by decide)
      rw [List.drop_left' h1, List.take_of_length_le (by simp [h2])] at this
      simpa [hc] using this

/-- The node a split leaves in place for the lower half: its first segments and children. -/
theorem Holds.keepLower (h : n.Holds (g1 ++ e :: g2) (cs1 ++ cs2) up) (hg1 : g1.length = minDegree - 1)
    (hcs : cs1 = [] ∧ cs2 = [] ∨ cs1.length = minDegree ∧ cs2.length = minDegree) (fns : SetFunctions V) :
    ({ n with
        values := clearSlice fns n.values (minDegree - 1) (maxDegree - 1)
        children := if n.hasChildren then nilSlice n.children minDegree maxDegree else n.children
        nrSegments := minDegree - 1 } : ReclaimNode V).Holds g1 cs1 up := by
  refine ⟨hg1.symm, ?_, ?_, ?_, ?_, h.link⟩
  · exact agree_append_left (by simpa using h.keys)
  · exact agree_clearSlice (agree_append_left (by simpa using h.values)) (by simp [hg1])
  · show n.hasChildren = !cs1.isEmpty
    rw [h.hasChildren]
    rcases hcs with ⟨rfl, rfl⟩ | ⟨h1, -⟩
    · rfl
    · cases cs1 with
      | nil => simp [minDegree] at h1
      | cons y ys => rfl
  · rcases hcs with ⟨rfl, rfl⟩ | ⟨h1, h2⟩
    · have hc : n.hasChildren = false := by simpa using h.hasChildren
      simpa [hc] using h.children
    · have hc : n.hasChildren = true := by
        rw [h.hasChildren]
        cases cs1 with
        | nil => simp [minDegree] at h1
        | cons y ys => rfl
      have : AgreeAll (nilSlice n.children minDegree maxDegree) ((cs1 ++ cs2).take minDegree) :=
        agreeAll_nilSlice h.children (by simp [h1, h2, maxDegree]; omega)
      rw [List.take_left' h1] at this
      simpa [hc] using this

/-- The node the root split makes for the lower half: the segments before the middle one, and
the children before the middle. -/
theorem Holds.lower [Inhabited V] (h : n.Holds (g1 ++ e :: g2) (cs1 ++ cs2) up) (hg1 : g1.length = minDegree - 1)
    (hcs : cs1 = [] ∧ cs2 = [] ∨ cs1.length = minDegree ∧ cs2.length = minDegree) (p i : Nat) :
    ({ (ReclaimNode.new (minDegree - 1) p i n.hasChildren : ReclaimNode V) with
        keys := copySlice (ReclaimNode.new (minDegree - 1) p i n.hasChildren : ReclaimNode V).keys 0 (minDegree - 1)
          n.keys 0 (minDegree - 1)
        values := copySlice (ReclaimNode.new (minDegree - 1) p i n.hasChildren : ReclaimNode V).values 0
          (minDegree - 1) n.values 0 (minDegree - 1)
        children := if n.hasChildren then
            copySlice (ReclaimNode.new (minDegree - 1) p i n.hasChildren : ReclaimNode V).children 0 minDegree
              n.children 0 minDegree
          else (ReclaimNode.new (minDegree - 1) p i n.hasChildren : ReclaimNode V).children } : ReclaimNode V).Holds
      g1 cs1 (some (p, i)) := by
  have hwin : ∀ {α : Type} (f : FileRange × V → α),
      (((g1 ++ e :: g2).map f).drop 0).take (minDegree - 1) = g1.map f := fun f => by
    simp [← hg1, List.take_append_of_le_length]
  refine ⟨by simp [ReclaimNode.new, hg1], ?_, ?_, ?_, ?_, rfl⟩
  · rw [← hwin]
    exact agree_copy h.keys (by simp [hg1] : 0 + (minDegree - 1) ≤ _) (by simp : _ ≤ minDegree - 1 - 0)
  · rw [← hwin]
    exact agree_copy h.values (by simp [hg1] : 0 + (minDegree - 1) ≤ _) (by simp : _ ≤ minDegree - 1 - 0)
  · show n.hasChildren = !cs1.isEmpty
    rw [h.hasChildren]
    rcases hcs with ⟨rfl, rfl⟩ | ⟨h1, -⟩
    · rfl
    · cases cs1 with
      | nil => simp [minDegree] at h1
      | cons y ys => rfl
  · rcases hcs with ⟨rfl, rfl⟩ | ⟨h1, h2⟩
    · have hc : n.hasChildren = false := by simpa using h.hasChildren
      simpa [hc, ReclaimNode.new, ReclaimNode.zero] using agreeAll_nil
    · have hc : n.hasChildren = true := by
        rw [h.hasChildren]
        cases cs1 with
        | nil => simp [minDegree] at h1
        | cons y ys => rfl
      have : AgreeAll (copySlice (ReclaimNode.new (minDegree - 1) p i n.hasChildren : ReclaimNode V).children 0
          minDegree n.children 0 minDegree) (((cs1 ++ cs2).drop 0).take minDegree) :=
        agreeAll_copy (fun _ => rfl) h.children (by decide)
      rw [List.drop_zero, List.take_left' h1] at this
      simpa [hc] using this

/-- The root after its split: the middle segment `e` and the two new children `l` and `r`. -/
theorem Holds.splitTop (h : n.Holds (g1 ++ e :: g2) (cs1 ++ cs2) up) (hg1 : g1.length = minDegree - 1)
    (fns : SetFunctions V) {c : Nat → Option Nat} (hc : ∀ j, 2 ≤ j → c j = none) (l r : Nat) :
    ({ n with
        keys := Function.update n.keys 0 (n.keys (minDegree - 1))
        values := clearSlice fns (Function.update n.values 0 (n.values (minDegree - 1))) 1 (maxDegree - 1)
        nrSegments := 1, hasChildren := true
        children := Function.update (Function.update c 0 (some l)) 1 (some r) } : ReclaimNode V).Holds
      [e] [l, r] up := by
  have he := h.reads (j := g1.length) (e := e) (by rw [List.getElem?_append_right le_rfl, Nat.sub_self]; simp)
  rw [hg1] at he
  refine ⟨rfl, fun j hj => ?_, fun j hj => ?_, rfl, fun j => ?_, h.link⟩
  · obtain rfl : j = 0 := by simpa using hj
    simp [he.2.1]
  · obtain rfl : j = 0 := by simpa using hj
    simp [clearSlice, he.2.2]
  · match j with
    | 0 => rfl
    | 1 => rfl
    | j + 2 => simp [Function.update_noteq, hc]

end Halves

end ReclaimNode

namespace ReclaimSet

/-- `adopt` on a child that is there. -/
theorem adopt_of_child {s : ReclaimSet V} {p i c : Nat} (h : (s.nodes p).children i = some c) :
    s.adopt p i = some (s.modify c fun m => { m with parent := some p, parentIndex := i }) := by
  simp [adopt, h]

/-- The loop of `adoptPairs` from index `lo`: the children `cs1` of `l` and `cs2` of `r` get
their parent and index; nothing else changes. -/
theorem adoptPairs_loop (l r : Nat) : ∀ (cs1 cs2 : List Nat) (s : ReclaimSet V) (lo : Nat),
    cs1.length = cs2.length → (cs1 ++ cs2).Nodup →
    (∀ j (h : j < cs1.length), (s.nodes l).children (lo + j) = some cs1[j]) →
    (∀ j (h : j < cs2.length), (s.nodes r).children (lo + j) = some cs2[j]) →
    ∃ s', (List.range' lo cs1.length).foldlM (fun s i => s.adopt l i >>= fun s => s.adopt r i) s = some s' ∧
      s'.fresh = s.fresh ∧
      (∀ j (h : j < cs1.length), s'.nodes cs1[j] = { s.nodes cs1[j] with parent := some l, parentIndex := lo + j }) ∧
      (∀ j (h : j < cs2.length), s'.nodes cs2[j] = { s.nodes cs2[j] with parent := some r, parentIndex := lo + j }) ∧
      ∀ b, b ∉ cs1 ++ cs2 → s'.nodes b = s.nodes b
  | [], [], s, _, _, _, _, _ => ⟨s, rfl, rfl, by simp, by simp, fun _ _ => rfl⟩
  | [], _ :: _, _, _, h, _, _, _ => by simp at h
  | _ :: _, [], _, _, h, _, _, _ => by simp at h
  | c :: cs1, d :: cs2, s, lo, hlen, hnd, h1, h2 => by
    simp only [List.cons_append, List.nodup_cons, List.mem_cons, List.mem_append, not_or] at hnd
    obtain ⟨⟨hc1, hcd, hc2⟩, hnd⟩ := hnd
    have hd1 : d ∉ cs1 := fun h => (List.nodup_append.mp hnd).2.2 h (List.mem_cons_self _ _)
    have hd2 : d ∉ cs2 := (List.nodup_cons.mp (List.nodup_append.mp hnd).2.1).1
    let s1 := (s.modify c fun m => { m with parent := some l, parentIndex := lo }).modify d
      fun m => { m with parent := some r, parentIndex := lo }
    have hkids : ∀ x, (s1.nodes x).children = (s.nodes x).children := fun x => by
      simp only [s1, modify_nodes]
      split_ifs with h h' <;> subst_vars <;> rfl
    have hnd' : (cs1 ++ cs2).Nodup := by
      refine List.nodup_append.mpr ⟨(List.nodup_append.mp hnd).1, (List.nodup_cons.mp (List.nodup_append.mp hnd).2.1).2,
        fun x hx hx' => (List.nodup_append.mp hnd).2.2 hx (List.mem_cons_of_mem _ hx')⟩
    obtain ⟨s', hrun, hf, hin1, hin2, hout⟩ := adoptPairs_loop l r cs1 cs2 s1 (lo + 1) (by simpa using hlen) hnd'
      (fun j h => by rw [hkids, Nat.add_assoc, Nat.add_comm 1 j]; exact h1 (j + 1) (by simpa using h))
      (fun j h => by rw [hkids, Nat.add_assoc, Nat.add_comm 1 j]; exact h2 (j + 1) (by simpa using h))
    refine ⟨s', ?_, hf, fun j h => ?_, fun j h => ?_, fun b hb => ?_⟩
    · have hc : (s.nodes l).children lo = some c := by simpa using h1 0 (by simp)
      have hd' : ((s.modify c fun m => { m with parent := some l, parentIndex := lo }).nodes r).children lo = some d := by
        rw [modify_nodes]; split_ifs with h <;> simpa [h] using h2 0 (by simp)
      simp only [List.length_cons, List.range'_succ, List.foldlM_cons, adopt_of_child hc, adopt_of_child hd',
        Option.bind_eq_bind, Option.some_bind]
      exact hrun
    · cases j with
      | zero => simp [hout c (by simp [hc1, hc2]), s1, hcd]
      | succ j =>
        have hj : j < cs1.length := by simpa using h
        have hm := List.getElem_mem hj
        simp only [List.getElem_cons_succ]
        rw [hin1 j hj]
        simp [s1, show cs1[j] ≠ c from fun h => hc1 (h ▸ hm), show cs1[j] ≠ d from fun h => hd1 (h ▸ hm),
          Nat.add_assoc, Nat.add_comm 1]
    · cases j with
      | zero => simp [hout d (by simp [hd1, hd2]), s1, Ne.symm hcd]
      | succ j =>
        have hj : j < cs2.length := by simpa using h
        have hm := List.getElem_mem hj
        simp only [List.getElem_cons_succ]
        rw [hin2 j hj]
        simp [s1, show cs2[j] ≠ c from fun h => hc2 (h ▸ hm), show cs2[j] ≠ d from fun h => hd2 (h ▸ hm),
          Nat.add_assoc, Nat.add_comm 1]
    · simp only [List.cons_append, List.mem_cons, List.mem_append, not_or] at hb
      rw [hout b (by simp [hb.2.1, hb.2.2.2])]
      simp [s1, hb.1, hb.2.2.1]

/-- `adoptPairs` over the children `cs1` of `l` and `cs2` of `r`, `minDegree` each: each gets
its parent and index; nothing else changes. -/
theorem adoptPairs_spec (l r : Nat) {cs1 cs2 : List Nat} (s : ReclaimSet V) (h1len : cs1.length = minDegree)
    (h2len : cs2.length = minDegree) (hnd : (cs1 ++ cs2).Nodup)
    (h1 : ∀ j (h : j < cs1.length), (s.nodes l).children j = some cs1[j])
    (h2 : ∀ j (h : j < cs2.length), (s.nodes r).children j = some cs2[j]) :
    ∃ s', s.adoptPairs l r = some s' ∧ s'.fresh = s.fresh ∧
      (∀ j (h : j < cs1.length), s'.nodes cs1[j] = { s.nodes cs1[j] with parent := some l, parentIndex := j }) ∧
      (∀ j (h : j < cs2.length), s'.nodes cs2[j] = { s.nodes cs2[j] with parent := some r, parentIndex := j }) ∧
      ∀ b, b ∉ cs1 ++ cs2 → s'.nodes b = s.nodes b := by
  have := adoptPairs_loop l r cs1 cs2 s 0 (by omega) hnd (by simpa using h1) (by simpa using h2)
  simpa [adoptPairs, List.range_eq_range', h1len] using this

variable [Inhabited V] (fns : SetFunctions V)

/-- What `splitNonRoot` writes when the full node `a`, child `i` of `p`, holds `g1 ++ e :: g2`
and the children `cs1 ++ cs2`, and `p` holds `segs` and the children `cl ++ a :: cr`: `a` keeps
the lower half, `p` takes `e` at index `i` and a new node after `a` with the upper half, the
children that move and the children after `a` are relinked, and no other node changes. -/
theorem splitNonRoot_spec (gap : ReclaimGapIterator) {s : ReclaimSet V} {a p i : Nat}
    {g1 g2 segs : List (FileRange × V)} {e : FileRange × V} {cs1 cs2 cl cr : List Nat} {up : Option (Nat × Nat)}
    (hA : (s.nodes a).Holds (g1 ++ e :: g2) (cs1 ++ cs2) (some (p, i)))
    (hP : (s.nodes p).Holds segs (cl ++ a :: cr) up)
    (hg1 : g1.length = minDegree - 1) (hg2 : g2.length = minDegree - 1)
    (hcs : cs1 = [] ∧ cs2 = [] ∨ cs1.length = minDegree ∧ cs2.length = minDegree)
    (hcl : cl.length = i) (hcr : i + cr.length = segs.length) (hroom : segs.length < maxDegree - 1)
    (hnd : (a :: p :: s.fresh :: cr ++ cs2).Nodup) :
    ∃ s', s.splitNonRoot fns a p gap = some (s', if gap.node ≠ some a then gap
        else if gap.index < minDegree then gap else ⟨some s.fresh, gap.index - minDegree⟩) ∧
      s'.fresh = s.fresh + 1 ∧
      (s'.nodes a).Holds g1 cs1 (some (p, i)) ∧
      (s'.nodes p).Holds (segs.take i ++ e :: segs.drop i) (cl ++ a :: s.fresh :: cr) up ∧
      (s'.nodes s.fresh).Holds g2 cs2 (some (p, i + 1)) ∧
      (∀ j (hj : j < cr.length), s'.nodes cr[j] = { s.nodes cr[j] with parentIndex := i + 2 + j }) ∧
      (∀ j (hj : j < cs2.length), s'.nodes cs2[j] = { s.nodes cs2[j] with parent := some s.fresh, parentIndex := j }) ∧
      ∀ x, x ∉ a :: p :: s.fresh :: cr ++ cs2 → s'.nodes x = s.nodes x := by
  have hpi : (s.nodes a).parentIndex = i := (ReclaimNode.link_eq_some.mp hA.link).2
  simp only [List.cons_append, List.nodup_cons, List.mem_cons, List.mem_append, not_or] at hnd
  obtain ⟨⟨hap, hafresh, hacr, hacs⟩, ⟨hpfresh, hpcr, hpcs⟩, ⟨hfcr, hfcs⟩, hndcr⟩ := hnd
  simp only [splitNonRoot, hpi]
  generalize hs1 : ReclaimSet.modify s p _ = s1
  have h1 : ∀ x, x ≠ p → s1.nodes x = s.nodes x := fun x hx => by rw [← hs1]; simp [hx]
  have h1f : s1.fresh = s.fresh := by rw [← hs1]; rfl
  have h1nr : (s1.nodes p).nrSegments = segs.length := by rw [← hs1]; simp [hP.nrSegments]
  have h1ch : ∀ j (hj : j < cr.length), (s1.nodes p).children (i + 2 + j) = some cr[j] := by
    intro j hj
    have hc : (s1.nodes p).children =
        copySlice (s.nodes p).children (i + 2) maxDegree (s.nodes p).children (i + 1) (segs.length + 1) := by
      rw [← hs1]; simp [hP.nrSegments]
    rw [hc, copySlice, if_pos (by simp [maxDegree, minDegree] at hroom ⊢; omega), hP.children,
      List.getElem?_append_right (by omega), hcl, show i + 1 + (i + 2 + j - (i + 2)) - i = j + 1 by omega]
    simp
  obtain ⟨s2, hr, hf2, hin2, hout2⟩ :=
    renumberChildren_spec p cr s1 (i + 2) (List.nodup_append.mp hndcr).1 h1ch
  rw [show (s1.nodes p).nrSegments + 2 = i + 2 + cr.length by omega, hr]
  simp only [Option.bind_eq_bind, Option.some_bind]
  simp only [alloc_addr, hf2, h1f]
  generalize hs4 : ReclaimSet.modify (ReclaimSet.modify (s2.alloc _).1 p _) a _ = s4
  have h2 : ∀ x, x ∉ cr → x ≠ p → s2.nodes x = s.nodes x := fun x h h' => (hout2 x h).trans (h1 x h')
  have h4f : s4.fresh = s.fresh + 1 := by rw [← hs4]; simp [hf2, h1f]
  have h4 : ∀ x, x ≠ a → x ≠ p → x ≠ s.fresh → s4.nodes x = s2.nodes x := fun x ha hp hf => by
    rw [← hs4]; simp [ha, hp, hf, hf2, h1f]
  have h4a : s4.nodes a = { s.nodes a with values := clearSlice fns (s.nodes a).values (minDegree - 1) (maxDegree - 1) } := by
    rw [← hs4]; simp [hap, hafresh, hf2, h1f, h2 a hacr hap]
  have h2p : s2.nodes p = s1.nodes p := hout2 p hpcr
  have he : (s.nodes a).keys (minDegree - 1) = e.1 ∧ (s.nodes a).values (minDegree - 1) = e.2 := by
    have := hA.reads (j := g1.length) (e := e) (by rw [List.getElem?_append_right le_rfl, Nat.sub_self]; simp)
    rw [hg1] at this
    exact this.2
  have h4p : (s4.nodes p).Holds (segs.take i ++ e :: segs.drop i) (cl ++ a :: s.fresh :: cr) up := by
    rw [← hs4]
    simp only [modify_nodes, alloc_nodes, if_neg (Ne.symm hap), if_pos rfl, if_neg hpfresh, hf2, h1f, h2p, ↓reduceIte]
    rw [← hs1]
    simp only [modify_nodes, ↓reduceIte, he.1, he.2]
    exact hP.insertAt hcl hcr hroom e s.fresh
  have h4s : (s4.nodes s.fresh).Holds g2 cs2 (some (p, i + 1)) := by
    rw [← hs4]
    simp only [modify_nodes, alloc_nodes, if_neg (Ne.symm hafresh), if_neg (Ne.symm hpfresh), hf2, h1f, ↓reduceIte]
    exact hA.upper hg1 hg2 hcs p (i + 1)
  have h4cr : ∀ j (hj : j < cr.length), s4.nodes cr[j] = { s.nodes cr[j] with parentIndex := i + 2 + j } := by
    intro j hj
    have hm := List.getElem_mem hj
    rw [h4 _ (fun h => hacr (h ▸ hm)) (fun h => hpcr (h ▸ hm)) (fun h => hfcr (h ▸ hm)), hin2 j hj,
      h1 _ (fun h => hpcr (h ▸ hm))]
  have h4out : ∀ x, x ∉ a :: p :: s.fresh :: cr → s4.nodes x = s.nodes x := by
    intro x hx
    simp only [List.mem_cons, not_or] at hx
    rw [h4 x hx.1 hx.2.1 hx.2.2.1, h2 x hx.2.2.2 hx.2.1]
  cases hc : (s.nodes a).hasChildren
  · obtain ⟨rfl, rfl⟩ : cs1 = [] ∧ cs2 = [] := by
      have := hA.hasChildren
      rw [hc] at this
      simpa using this
    simp only [Bool.false_eq_true, ↓reduceIte, Option.pure_def, Option.some_bind, Option.bind_eq_bind]
    refine ⟨_, rfl, by simp [h4f], ?_, by simpa [Ne.symm hap] using h4p, by simpa [Ne.symm hafresh] using h4s,
      fun j hj => ?_, fun j hj => by simp at hj, fun x hx => ?_⟩
    · have := hA.keepLower hg1 hcs fns
      rw [if_neg (by rw [hc]; decide)] at this
      rw [modify_nodes, if_pos rfl, h4a]
      exact this
    · have hm := List.getElem_mem hj
      rw [modify_nodes, if_neg (show cr[j] ≠ a from fun h => hacr (h ▸ hm)), h4cr j hj]
    · simp only [List.append_nil, List.mem_cons, not_or] at hx
      rw [modify_nodes, if_neg hx.1, h4out x (by simp [hx.1, hx.2.1, hx.2.2.1, hx.2.2.2])]
  · obtain ⟨h1l, h2l⟩ : cs1.length = minDegree ∧ cs2.length = minDegree := by
      rcases hcs with ⟨rfl, rfl⟩ | h
      · have := hA.hasChildren
        rw [hc] at this
        simp at this
      · exact h
    simp only [↓reduceIte]
    generalize hs5 : ReclaimSet.modify s4 a _ = s5
    have h5 : ∀ x, x ≠ a → s5.nodes x = s4.nodes x := fun x hx => by rw [← hs5]; simp [hx]
    have hch5 : ∀ j (hj : j < cs2.length), (s5.nodes s.fresh).children (0 + j) = some cs2[j] := by
      intro j hj
      rw [h5 _ (fun h => hafresh h.symm), h4s.children, Nat.zero_add, List.getElem?_eq_getElem hj]
    have hnd2 : cs2.Nodup := (List.nodup_append.mp hndcr).2.1
    obtain ⟨s6, h6, hf6, hin6, hout6⟩ := adoptChildren_spec s.fresh cs2 s5 0 hnd2 hch5
    have h6' : s5.adoptChildren s.fresh 0 minDegree = some s6 := by rw [show minDegree = 0 + cs2.length by omega]; exact h6
    rw [h6']
    simp only [Option.bind_eq_bind, Option.some_bind, Option.pure_def]
    have hf5 : s5.fresh = s4.fresh := by rw [← hs5]; rfl
    refine ⟨_, rfl, by simp [hf6, hf5, h4f], ?_, ?_, ?_, fun j hj => ?_, fun j hj => ?_, fun x hx => ?_⟩
    · have := hA.keepLower hg1 hcs fns
      rw [if_pos hc] at this
      rw [modify_nodes, if_pos rfl, hout6 a hacs, ← hs5]
      simpa [h4a] using this
    · rw [modify_nodes, if_neg (Ne.symm hap), hout6 p hpcs, h5 p (Ne.symm hap)]
      exact h4p
    · rw [modify_nodes, if_neg (fun h => hafresh h.symm), hout6 _ hfcs, h5 _ (fun h => hafresh h.symm)]
      exact h4s
    · have hm := List.getElem_mem hj
      have hcs2 : cr[j] ∉ cs2 := fun h => (List.nodup_append.mp hndcr).2.2 hm h
      rw [modify_nodes, if_neg (show cr[j] ≠ a from fun h => hacr (h ▸ hm)), hout6 _ hcs2,
        h5 _ (fun h => hacr (h ▸ hm)), h4cr j hj]
    · have hm := List.getElem_mem hj
      have hna : cs2[j] ≠ a := fun h => hacs (h ▸ hm)
      have hncr : cs2[j] ∉ cr := fun h => (List.nodup_append.mp hndcr).2.2 h hm
      have hnp : cs2[j] ≠ p := fun h => hpcs (h ▸ hm)
      have hnf : cs2[j] ≠ s.fresh := fun h => hfcs (h ▸ hm)
      rw [modify_nodes, if_neg hna, hin6 j hj, h5 _ hna, Nat.zero_add, h4out _ (by simp [hna, hnp, hnf, hncr])]
    · simp only [List.cons_append, List.mem_cons, List.mem_append, not_or] at hx
      rw [modify_nodes, if_neg hx.1, hout6 x hx.2.2.2.2, h5 x hx.1,
        h4out x (by simp [hx.1, hx.2.1, hx.2.2.1, hx.2.2.2.1])]

/-- What `splitRoot` writes when the full root `a` holds `g1 ++ e :: g2` and the children
`cs1 ++ cs2`: `a` keeps only `e`, two new nodes take the halves as its children, the children
that move are relinked, and no other node changes. -/
theorem splitRoot_spec (gap : ReclaimGapIterator) {s : ReclaimSet V} {a : Nat}
    {g1 g2 : List (FileRange × V)} {e : FileRange × V} {cs1 cs2 : List Nat}
    (hA : (s.nodes a).Holds (g1 ++ e :: g2) (cs1 ++ cs2) none)
    (hg1 : g1.length = minDegree - 1) (hg2 : g2.length = minDegree - 1)
    (hcs : cs1 = [] ∧ cs2 = [] ∨ cs1.length = minDegree ∧ cs2.length = minDegree)
    (hnd : (a :: s.fresh :: (s.fresh + 1) :: cs1 ++ cs2).Nodup) :
    ∃ s', s.splitRoot fns a gap = some (s', if gap.node ≠ some a then gap
        else if gap.index < minDegree then ⟨some s.fresh, gap.index⟩ else ⟨some (s.fresh + 1), gap.index - minDegree⟩) ∧
      s'.fresh = s.fresh + 2 ∧
      (s'.nodes a).Holds [e] [s.fresh, s.fresh + 1] none ∧
      (s'.nodes s.fresh).Holds g1 cs1 (some (a, 0)) ∧
      (s'.nodes (s.fresh + 1)).Holds g2 cs2 (some (a, 1)) ∧
      (∀ j (hj : j < cs1.length), s'.nodes cs1[j] = { s.nodes cs1[j] with parent := some s.fresh, parentIndex := j }) ∧
      (∀ j (hj : j < cs2.length),
        s'.nodes cs2[j] = { s.nodes cs2[j] with parent := some (s.fresh + 1), parentIndex := j }) ∧
      ∀ x, x ∉ a :: s.fresh :: (s.fresh + 1) :: cs1 ++ cs2 → s'.nodes x = s.nodes x := by
  simp only [List.cons_append, List.nodup_cons, List.mem_cons, List.mem_append, not_or] at hnd
  obtain ⟨⟨haf, haf1, ha1, ha2⟩, ⟨hff1, hf1, hf2⟩, ⟨hf11, hf12⟩, hnd12⟩ := hnd
  simp only [splitRoot, alloc_addr, alloc_fresh]
  generalize hs3 : ReclaimSet.modify ((s.alloc _).1.alloc _).1 a _ = s3
  have h3f : s3.fresh = s.fresh + 2 := by rw [← hs3]; rfl
  have h3 : ∀ x, x ≠ a → x ≠ s.fresh → x ≠ s.fresh + 1 → s3.nodes x = s.nodes x := fun x ha hf hf1 => by
    rw [← hs3]; simp [ha, hf, hf1]
  have h3a : s3.nodes a = { s.nodes a with
      keys := Function.update (s.nodes a).keys 0 ((s.nodes a).keys (minDegree - 1))
      values := clearSlice fns (Function.update (s.nodes a).values 0 ((s.nodes a).values (minDegree - 1))) 1
        (maxDegree - 1) } := by
    rw [← hs3]; simp [haf, haf1]
  have h3l : (s3.nodes s.fresh).Holds g1 cs1 (some (a, 0)) := by
    rw [← hs3]
    simp only [modify_nodes, alloc_nodes, if_neg (Ne.symm haf), if_neg (Nat.succ_ne_self _).symm, alloc_fresh,
      ↓reduceIte]
    exact hA.lower hg1 hcs a 0
  have h3r : (s3.nodes (s.fresh + 1)).Holds g2 cs2 (some (a, 1)) := by
    rw [← hs3]
    simp only [modify_nodes, alloc_nodes, if_neg (Ne.symm haf1), alloc_fresh, ↓reduceIte]
    exact hA.upper hg1 hg2 hcs a 1
  have h3out : ∀ x, x ∉ a :: s.fresh :: (s.fresh + 1) :: cs1 ++ cs2 → s3.nodes x = s.nodes x := fun x hx => by
    simp only [List.cons_append, List.mem_cons, not_or] at hx
    exact h3 x hx.1 hx.2.1 hx.2.2.1
  cases hc : (s.nodes a).hasChildren
  · obtain ⟨rfl, rfl⟩ : cs1 = [] ∧ cs2 = [] := by
      have := hA.hasChildren
      rw [hc] at this
      simpa using this
    simp only [Bool.false_eq_true, ↓reduceIte, Option.pure_def, Option.some_bind, Option.bind_eq_bind]
    refine ⟨_, rfl, by simp [h3f], ?_, ?_, ?_, fun j hj => by simp at hj, fun j hj => by simp at hj, fun x hx => ?_⟩
    · rw [modify_nodes, if_pos rfl, h3a]
      exact hA.splitTop hg1 fns (fun j _ => by simpa using hA.children j) s.fresh (s.fresh + 1)
    · rw [modify_nodes, if_neg (Ne.symm haf)]
      exact h3l
    · rw [modify_nodes, if_neg (Ne.symm haf1)]
      exact h3r
    · rw [modify_nodes, if_neg (by simp at hx; exact hx.1), h3out x hx]
  · obtain ⟨h1l, h2l⟩ : cs1.length = minDegree ∧ cs2.length = minDegree := by
      rcases hcs with ⟨rfl, rfl⟩ | h
      · have := hA.hasChildren
        rw [hc] at this
        simp at this
      · exact h
    simp only [↓reduceIte]
    generalize hs4 : ReclaimSet.modify s3 a _ = s4
    have h4 : ∀ x, x ≠ a → s4.nodes x = s3.nodes x := fun x hx => by rw [← hs4]; simp [hx]
    have h4f : s4.fresh = s3.fresh := by rw [← hs4]; rfl
    obtain ⟨s5, h5, hf5, hin1, hin2, hout5⟩ := adoptPairs_spec s.fresh (s.fresh + 1) s4 h1l h2l hnd12
      (fun j hj => by rw [h4 _ (Ne.symm haf), h3l.children, List.getElem?_eq_getElem hj])
      (fun j hj => by rw [h4 _ (Ne.symm haf1), h3r.children, List.getElem?_eq_getElem hj])
    rw [h5]
    simp only [Option.bind_eq_bind, Option.some_bind, Option.pure_def]
    have hout : ∀ x, x ∉ cs1 ++ cs2 → x ≠ a → s5.nodes x = s3.nodes x := fun x h h' => (hout5 x h).trans (h4 x h')
    refine ⟨_, rfl, by simp [hf5, h4f, h3f], ?_, ?_, ?_, fun j hj => ?_, fun j hj => ?_, fun x hx => ?_⟩
    · rw [modify_nodes, if_pos rfl, hout5 a (by simp [ha1, ha2]), ← hs4, modify_nodes, if_pos rfl, h3a]
      refine hA.splitTop hg1 fns (fun j hj => ?_) s.fresh (s.fresh + 1)
      simp only [nilSlice]
      split_ifs with h
      · rfl
      · rw [hA.children, List.getElem?_eq_none (by simp [h1l, h2l, maxDegree, minDegree] at h ⊢; omega)]
    · rw [modify_nodes, if_neg (Ne.symm haf), hout _ (by simp [hf1, hf2]) (Ne.symm haf)]
      exact h3l
    · rw [modify_nodes, if_neg (Ne.symm haf1), hout _ (by simp [hf11, hf12]) (Ne.symm haf1)]
      exact h3r
    · have hm := List.getElem_mem hj
      have hna : cs1[j] ≠ a := fun h => ha1 (h ▸ hm)
      rw [modify_nodes, if_neg hna, hin1 j hj, h4 _ hna,
        h3 _ hna (fun h => hf1 (h ▸ hm)) (fun h => hf11 (h ▸ hm))]
    · have hm := List.getElem_mem hj
      have hna : cs2[j] ≠ a := fun h => ha2 (h ▸ hm)
      rw [modify_nodes, if_neg hna, hin2 j hj, h4 _ hna,
        h3 _ hna (fun h => hf2 (h ▸ hm)) (fun h => hf12 (h ▸ hm))]
    · have hx' := hx
      simp only [List.cons_append, List.mem_cons, not_or] at hx'
      rw [modify_nodes, if_neg hx'.1, hout x hx'.2.2.2 hx'.1, h3out x hx]

end ReclaimSet

namespace Tree

variable {s s' : ReclaimSet V}

theorem idsList_perm_roots : ∀ ks : List (Tree V),
    (idsList ks).Perm (ks.map Tree.id ++ idsList (ks.flatMap Tree.kids))
  | [] => by simp [idsList]
  | node a g kids :: ks => by
    have ih := List.perm_iff_count.mp (idsList_perm_roots ks)
    refine List.perm_iff_count.mpr fun x => ?_
    have := ih x
    simp only [idsList, ids, List.map_cons, id_node, List.flatMap_cons, kids_node, idsList_append, List.cons_append,
      List.count_cons, List.count_append] at this ⊢
    omega

theorem mem_idsList_flatMap {x : Nat} {k : Tree V} : ∀ {ks : List (Tree V)}, k ∈ ks → x ∈ idsList k.kids →
    x ∈ idsList (ks.flatMap Tree.kids)
  | _ :: ks, hk, hx => by
    rw [List.flatMap_cons, idsList_append, List.mem_append]
    rcases List.mem_cons.mp hk with rfl | hk
    · exact .inl hx
    · exact .inr (mem_idsList_flatMap hk hx)

theorem hasHeight_of_plug : ∀ (fs : List (Frame V)) {u : Tree V} {n : Nat}, HasHeight n (plug fs u) →
    ∃ m, HasHeight m u ∧ m + fs.length = n
  | [], _, n, h => ⟨n, h, rfl⟩
  | f :: fs, u, _, h => by
    obtain ⟨m, hm, hmn⟩ := hasHeight_of_plug fs h
    cases m with
    | zero => simp [Frame.fill, HasHeight] at hm
    | succ m => exact ⟨m, (hasHeight_succ.mp hm).2 u (by simp [Frame.fill]), by simp; omega⟩

/-- A path in a tree of height below `fuel` has fewer frames than `fuel`: the fuel of the
rebalancing loops suffices. -/
theorem length_lt_of_height {fs : List (Frame V)} {u : Tree V} {fuel : Nat}
    (h : ∃ n, HasHeight n (plug fs u) ∧ n < fuel) : fs.length < fuel :=
  let ⟨_, hn, hlt⟩ := h
  let ⟨_, _, hm⟩ := hasHeight_of_plug fs hn
  by omega

section Halves

variable {a b n : Nat} {g1 g2 : List (FileRange × V)} {e : FileRange × V} {ks : List (Tree V)}

/-- The halves of a full node keep its height. -/
theorem HasHeight.halves (h : HasHeight n (node a (g1 ++ e :: g2) ks)) (hg1 : g1.length = minDegree - 1)
    (hg2 : g2.length = minDegree - 1) (c d : Nat) :
    HasHeight n (node c g1 (ks.take minDegree)) ∧ HasHeight n (node d g2 (ks.drop minDegree)) := by
  cases n with
  | zero =>
    simp only [HasHeight] at h
    simp [HasHeight, h]
  | succ n =>
    obtain ⟨hlen, hks⟩ := hasHeight_succ.mp h
    simp only [List.length_append, List.length_cons] at hlen
    exact ⟨hasHeight_succ.mpr ⟨by simp [hlen, hg1, minDegree], fun k hk => hks k (List.mem_of_mem_take hk)⟩,
      hasHeight_succ.mpr ⟨by simp [hlen, hg1, hg2, minDegree], fun k hk => hks k (List.mem_of_mem_drop hk)⟩⟩

/-- The halves of a full filled node are filled. -/
theorem Filled.halves (h : Filled (node a (g1 ++ e :: g2) ks)) (hg1 : g1.length = minDegree - 1)
    (hg2 : g2.length = minDegree - 1) (c d : Nat) :
    Filled (node c g1 (ks.take minDegree)) ∧ Filled (node d g2 (ks.drop minDegree)) := by
  obtain ⟨-, -, hks⟩ := filled_node.mp h
  exact ⟨filled_node.mpr ⟨by simp [hg1], by simp [hg1, maxDegree, minDegree], fun k hk => hks k (List.mem_of_mem_take hk)⟩,
    filled_node.mpr ⟨by simp [hg2], by simp [hg2, maxDegree, minDegree], fun k hk => hks k (List.mem_of_mem_drop hk)⟩⟩

end Halves

theorem ReclaimNode.relink_eq {n : ReclaimNode V} {p : Nat} (h : n.parent = some p) (i : Nat) :
    ({ n with parentIndex := i } : ReclaimNode V) = { n with parent := some p, parentIndex := i } := by
  cases n; simp_all

/-- A stored subtree whose root is linked to a new parent, and whose other nodes are kept,
is stored under the new link. -/
theorem Rep.relink {k : Tree V} {up : Option (Nat × Nat)} (h : Rep s k up) {p i : Nat}
    (hroot : s'.nodes k.id = { s.nodes k.id with parent := some p, parentIndex := i })
    (hkeep : ∀ b ∈ idsList k.kids, s'.nodes b = s.nodes b) : Rep s' k (some (p, i)) := by
  obtain ⟨a, g, kids⟩ := k
  obtain ⟨hh, hk⟩ := rep_node.mp h
  exact rep_node.mpr ⟨hroot ▸ hh.relink p i, (repKids_congr a 0 kids hkeep).mpr hk⟩

/-- Children whose roots are linked to `b` from index `lo` on, with their other nodes kept,
are stored as `b`'s children from `lo`. -/
theorem repKids_relink {a b lo lo' : Nat} {ks : List (Tree V)} (h : RepKids s a lo ks)
    (hroot : ∀ j (hj : j < ks.length), s'.nodes ks[j].id = { s.nodes ks[j].id with parent := some b, parentIndex := lo' + j })
    (hkeep : ∀ k ∈ ks, ∀ x ∈ idsList k.kids, s'.nodes x = s.nodes x) : RepKids s' b lo' ks :=
  (repKids_iff b lo' ks).mpr fun j hj =>
    ((repKids_iff a lo ks).mp h j hj).relink (hroot j hj) (hkeep _ (List.getElem_mem hj))

/-- Splitting a full child `a` of node `p`, which has room for one more segment: the heap
stores the tree with `a`'s middle segment moved up into `p` and `a`'s upper half in the fresh
node, and its traversal is the one before the split with the places of `a` and `p` renamed.
The gap iterator returned is the code's own re-targeting of `gap`. -/
theorem Shape.splitNonRoot [Inhabited V] (fns : SetFunctions V) (gap : ReclaimGapIterator) {fs : List (Frame V)}
    {p a : Nat} {segs g1 g2 : List (FileRange × V)} {e : FileRange × V} {L R ks : List (Tree V)}
    (h : Shape s (plug fs (node p segs (L ++ node a (g1 ++ e :: g2) ks :: R)))) (hfit : ctxFits fs)
    (hg1 : g1.length = minDegree - 1) (hg2 : g2.length = minDegree - 1) (hroom : segs.length < maxDegree - 1) :
    ∃ s', s.splitNonRoot fns a p gap = some (s', if gap.node ≠ some a then gap
        else if gap.index < minDegree then gap else ⟨some s.fresh, gap.index - minDegree⟩) ∧
      s'.fresh = s.fresh + 1 ∧
      Shape s' (plug fs (node p (segs.take L.length ++ e :: segs.drop L.length)
        (L ++ node a g1 (ks.take minDegree) :: node s.fresh g2 (ks.drop minDegree) :: R))) ∧
      walk (plug fs (node p (segs.take L.length ++ e :: segs.drop L.length)
        (L ++ node a g1 (ks.take minDegree) :: node s.fresh g2 (ks.drop minDegree) :: R))) =
        (walk (plug fs (node p segs (L ++ node a (g1 ++ e :: g2) ks :: R)))).map
          (Pos.relabel (splitGap a (minDegree - 1) a s.fresh) (splitSeg a (minDegree - 1) a s.fresh p L.length)) ∧
      (walk (node a (g1 ++ e :: g2) ks)).map
          (Pos.relabel (splitGap a (minDegree - 1) a s.fresh) (splitSeg a (minDegree - 1) a s.fresh p L.length)) =
        walk (node a g1 (ks.take minDegree)) ++ .seg p L.length e :: walk (node s.fresh g2 (ks.drop minDegree)) := by
  set ks1 := ks.take minDegree
  set ks2 := ks.drop minDegree
  have hks : ks = ks1 ++ ks2 := (List.take_append_drop _ _).symm
  -- the parts of the heap the split reads
  have hs := h.short hfit
  obtain ⟨-, hru⟩ := (rep_plug fs _).mp h.rep
  obtain ⟨hP, hkids⟩ := rep_node.mp hru
  obtain ⟨hL, hAR⟩ := (repKids_append p 0 L _).mp hkids
  obtain ⟨hA, hR⟩ := hAR
  obtain ⟨hAh, hks12⟩ := rep_node.mp hA
  obtain ⟨hks1, hks2⟩ := (repKids_append a 0 ks1 ks2).mp (hks ▸ hks12)
  -- the shape of the split node
  obtain ⟨n, hn, -⟩ := h.height
  obtain ⟨m, hm, -⟩ := hasHeight_of_plug fs hn
  have hulen : L.length + R.length = segs.length := by
    cases m with
    | zero => simp [HasHeight] at hm
    | succ m => have := (hasHeight_succ.mp hm).1; simp at this; omega
  obtain ⟨m', hAm⟩ : ∃ m', HasHeight m' (node a (g1 ++ e :: g2) ks) := by
    cases m with
    | zero => simp [HasHeight] at hm
    | succ m => exact ⟨m, (hasHeight_succ.mp hm).2 _ (by simp)⟩
  have hcs : ks1 = [] ∧ ks2 = [] ∨ ks1.length = minDegree ∧ ks2.length = minDegree := by
    cases m' with
    | zero => left; simp [HasHeight] at hAm; simp [ks1, ks2, hAm]
    | succ m' =>
      right
      have := (hasHeight_succ.mp hAm).1
      simp [ks1, ks2, this, hg1, hg2, minDegree]
  -- the nodes the split changes, and those it keeps
  have hperm : (ids (node p segs (L ++ node a (g1 ++ e :: g2) ks :: R))).Perm
      (([p, a] ++ (ks2.map Tree.id ++ R.map Tree.id)) ++
        (idsList L ++ idsList ks1 ++ idsList (ks2.flatMap Tree.kids) ++ idsList (R.flatMap Tree.kids))) := by
    refine List.perm_iff_count.mpr fun x => ?_
    have h1 := List.perm_iff_count.mp (idsList_perm_roots ks2) x
    have h2 := List.perm_iff_count.mp (idsList_perm_roots R) x
    rw [hks]
    simp only [ids, idsList, idsList_append, List.count_cons, List.count_append, List.cons_append,
      List.singleton_append, List.count_nil] at h1 h2 ⊢
    omega
  have hctxu := List.nodup_append.mp ((ids_plug_perm fs _).nodup_iff.mp h.nodup)
  obtain ⟨hC, hU, hCU⟩ := List.nodup_append.mp (hperm.nodup_iff.mp hctxu.2.1)
  have hlt : ∀ x ∈ ids (node p segs (L ++ node a (g1 ++ e :: g2) ks :: R)), x < s.fresh := fun x hx =>
    h.fresh x ((ids_plug_perm fs _).mem_iff.mpr (List.mem_append_right _ hx))
  have hfC : s.fresh ∉ [p, a] ++ (ks2.map Tree.id ++ R.map Tree.id) := fun hx =>
    lt_irrefl _ (hlt _ (hperm.mem_iff.mpr (List.mem_append_left _ hx)))
  have hnd : (a :: p :: s.fresh :: R.map Tree.id ++ ks2.map Tree.id).Nodup := by
    refine (List.nodup_cons.mpr ⟨hfC, hC⟩).perm (List.perm_iff_count.mpr fun x => ?_)
    simp only [List.cons_append, List.singleton_append, List.count_cons, List.count_append, List.count_nil]
    omega
  obtain ⟨s', hsplit, hf', hA', hP', hS', hcr', hcs2', hout'⟩ :=
    ReclaimSet.splitNonRoot_spec fns gap
      (by rw [← List.map_append, ← hks]; exact hAh : (s.nodes a).Holds _ (ks1.map Tree.id ++ ks2.map Tree.id) _)
      (by simpa using hP : (s.nodes p).Holds _ (L.map Tree.id ++ a :: R.map Tree.id) _) hg1 hg2
      (by simpa using hcs) (by simp) (by simp; omega) hroom hnd
  have hkeep : ∀ x ∈ idsList L ++ idsList ks1 ++ idsList (ks2.flatMap Tree.kids) ++ idsList (R.flatMap Tree.kids),
      s'.nodes x = s.nodes x := fun x hx => hout' x fun hx' => by
    have hxu : x ∈ ids (node p segs (L ++ node a (g1 ++ e :: g2) ks :: R)) :=
      hperm.mem_iff.mpr (List.mem_append_right _ hx)
    simp only [List.cons_append, List.mem_cons, List.mem_append] at hx'
    rcases hx' with rfl | rfl | rfl | hx' | hx'
    · exact hCU (by simp) hx
    · exact hCU (by simp) hx
    · exact lt_irrefl _ (hlt _ hxu)
    · exact hCU (by simp [hx']) hx
    · exact hCU (by simp [hx']) hx
  have hctx : ∀ x ∈ ctxIds fs, s'.nodes x = s.nodes x := fun x hx => hout' x fun hx' => by
    have hxu : x ∉ ids (node p segs (L ++ node a (g1 ++ e :: g2) ks :: R)) := fun h' => hctxu.2.2 hx h'
    have hxf : x < s.fresh := h.fresh x ((ids_plug_perm fs _).mem_iff.mpr (List.mem_append_left _ hx))
    simp only [List.cons_append, List.mem_cons, List.mem_append] at hx'
    rcases hx' with rfl | rfl | rfl | hx' | hx'
    · exact hxu (by simp [ids, idsList_append, idsList])
    · exact hxu (by simp [ids])
    · exact lt_irrefl _ hxf
    · exact hxu (hperm.mem_iff.mpr (by simp [hx']))
    · exact hxu (hperm.mem_iff.mpr (by simp [hx']))
  have hlink : ∀ j (hj : j < R.length), (s.nodes R[j].id).parent = some p := fun j hj =>
    (ReclaimNode.link_eq_some.mp ((repKids_iff p _ R).mp hR j hj).link).1
  have hrep' : Rep s' (node p (segs.take L.length ++ e :: segs.drop L.length)
      (L ++ node a g1 ks1 :: node s.fresh g2 ks2 :: R)) (linkTo fs) := by
    refine rep_node.mpr ⟨by simpa using hP', (repKids_append p 0 L _).mpr ⟨?_, ?_⟩⟩
    · exact (repKids_congr p 0 L fun x hx => hkeep x (by simp [hx])).mpr hL
    · rw [RepKids, RepKids]
      refine ⟨rep_node.mpr ⟨by simpa using hA', (repKids_congr a 0 ks1 fun x hx => hkeep x (by simp [hx])).mpr hks1⟩,
        rep_node.mpr ⟨by simpa using hS', repKids_relink hks2 (fun j hj => ?_)
          (fun k hk x hx => hkeep x (by simp [mem_idsList_flatMap hk hx]))⟩,
        repKids_relink hR (fun j hj => ?_) (fun k hk x hx => hkeep x (by simp [mem_idsList_flatMap hk hx]))⟩
      · have := hcs2' j (by simpa using hj)
        simp only [List.getElem_map] at this
        rw [this, Nat.zero_add]
      · rw [← ReclaimNode.relink_eq (hlink j hj)]
        have := hcr' j (by simpa using hj)
        simp only [List.getElem_map] at this
        rw [this]
  -- the split node's children avoid both addresses
  have hpa_nd : (p :: a :: idsList (L ++ R ++ ks1 ++ ks2)).Nodup :=
    hctxu.2.1.perm (List.perm_iff_count.mpr fun x => by
      rw [hks]
      simp only [ids, idsList, idsList_append, List.count_cons, List.count_append, List.count_nil]
      omega)
  obtain ⟨hp_notin, ha_nd⟩ := List.nodup_cons.mp hpa_nd
  obtain ⟨ha_notin, -⟩ := List.nodup_cons.mp ha_nd
  have hpa : p ≠ a := fun h => hp_notin (h ▸ List.mem_cons_self _ _)
  have ha_mem : a ∈ ids (node p segs (L ++ node a (g1 ++ e :: g2) ks :: R)) := by
    simp [ids, idsList, idsList_append]
  have hfix : ∀ c ∈ idsList (L ++ R ++ ks1 ++ ks2), c ≠ a ∧ c ≠ p := fun c hc =>
    ⟨fun h => ha_notin (h ▸ hc), fun h => hp_notin (h ▸ List.mem_cons_of_mem _ hc)⟩
  have hcs' : ks1 = [] ∧ ks2 = [] ∨ ks1.length = g1.length + 1 ∧ ks2.length = g2.length + 1 := by
    simpa [hg1, hg2, minDegree] using hcs
  have hwalk := walk_splitChild (r := s.fresh) (e := e) (by omega : L.length ≤ segs.length) hcs' hfix hpa
  have hnode := walk_splitNode (l := a) (r := s.fresh) (p := p) (k := L.length) (e := e) hg1 hcs'
    fun c hc => hfix c (by simp only [idsList_append, List.mem_append] at hc ⊢; tauto)
  rw [← hks, hg1] at hwalk
  rw [← hks] at hnode
  -- the new subtree has one address more, the fresh one
  have hperm' : (ids (node p (segs.take L.length ++ e :: segs.drop L.length)
      (L ++ node a g1 ks1 :: node s.fresh g2 ks2 :: R))).Perm
      (s.fresh :: ids (node p segs (L ++ node a (g1 ++ e :: g2) ks :: R))) :=
    List.perm_iff_count.mpr fun x => by
      rw [hks]
      simp only [ids, idsList, idsList_append, List.count_cons, List.count_append, List.count_nil]
      omega
  have hsh : Short s' fs (node p (segs.take L.length ++ e :: segs.drop L.length)
      (L ++ node a g1 ks1 :: node s.fresh g2 ks2 :: R)) := hs.replace rfl hctx hrep' (fun n hn' => ?_) (fun k hk => ?_) (by simp; omega)
    (fun hne => by have := hs.short hne; simp at this ⊢; omega) (fun _ h => by simp at h)
    (hperm'.nodup_iff.mpr (List.nodup_cons.mpr ⟨fun hx => lt_irrefl _ (hlt _ hx), hctxu.2.1⟩))
    (fun x hx => by
      rcases List.mem_cons.mp (hperm'.mem_iff.mp hx) with rfl | hx
      · exact .inr le_rfl
      · exact .inl hx)
    (fun x hx => by
      rcases List.mem_cons.mp (hperm'.mem_iff.mp hx) with rfl | hx
      · omega
      · have := hlt x hx; omega)
    (by omega)
  · have hca : ∀ c ∈ ctxIds fs, c ≠ a ∧ c ≠ p := fun c hc =>
      ⟨fun h => hctxu.2.2 hc (h ▸ ha_mem), fun h => hctxu.2.2 hc (h ▸ List.mem_cons_self _ _)⟩
    refine ⟨s', hsplit, hf', hsh.shape fun hne => ?_,
      (walk_plug_relabel hfit (fun c hc => fixes_split (hca c hc).1 (hca c hc).2) hwalk).symm, hnode⟩
    have := hs.short hne
    simp at this ⊢
    omega
  · cases n with
    | zero => simp [HasHeight] at hn'
    | succ n =>
      obtain ⟨hlen, hall⟩ := hasHeight_succ.mp hn'
      obtain ⟨h1, h2⟩ := (hall (node a (g1 ++ e :: g2) ks) (by simp)).halves hg1 hg2 a s.fresh
      refine hasHeight_succ.mpr ⟨by simp at hlen ⊢; omega, fun k hk => ?_⟩
      simp only [List.mem_append, List.mem_cons] at hk
      rcases hk with hk | rfl | rfl | hk
      · exact hall k (by simp [hk])
      · exact h1
      · exact h2
      · exact hall k (by simp [hk])
  · obtain ⟨h1, h2⟩ := (hs.kids (node a (g1 ++ e :: g2) ks) (by simp)).halves hg1 hg2 a s.fresh
    simp only [Tree.kids, List.mem_append, List.mem_cons] at hk
    rcases hk with hk | rfl | rfl | hk
    · exact hs.kids k (by simp [hk])
    · exact h1
    · exact h2
    · exact hs.kids k (by simp [hk])

/-- Splitting the full root `a`: the heap stores the tree of height one more whose root keeps
the middle segment, with the two halves in fresh nodes as its children, and its traversal is
the one before the split with the places of `a` renamed. -/
theorem Shape.splitRoot [Inhabited V] (fns : SetFunctions V) (gap : ReclaimGapIterator) {a : Nat}
    {g1 g2 : List (FileRange × V)} {e : FileRange × V} {ks : List (Tree V)}
    (h : Shape s (node a (g1 ++ e :: g2) ks)) (hg1 : g1.length = minDegree - 1) (hg2 : g2.length = minDegree - 1) :
    ∃ s', s.splitRoot fns a gap = some (s', if gap.node ≠ some a then gap
        else if gap.index < minDegree then ⟨some s.fresh, gap.index⟩ else ⟨some (s.fresh + 1), gap.index - minDegree⟩) ∧
      s'.fresh = s.fresh + 2 ∧
      Shape s' (node a [e] [node s.fresh g1 (ks.take minDegree), node (s.fresh + 1) g2 (ks.drop minDegree)]) ∧
      walk (node a [e] [node s.fresh g1 (ks.take minDegree), node (s.fresh + 1) g2 (ks.drop minDegree)]) =
        (walk (node a (g1 ++ e :: g2) ks)).map
          (Pos.relabel (splitGap a (minDegree - 1) s.fresh (s.fresh + 1))
            (splitSeg a (minDegree - 1) s.fresh (s.fresh + 1) a 0)) := by
  set ks1 := ks.take minDegree
  set ks2 := ks.drop minDegree
  have hks : ks = ks1 ++ ks2 := (List.take_append_drop _ _).symm
  obtain ⟨hAh, hkids⟩ := rep_node.mp h.rep
  obtain ⟨hks1, hks2⟩ := (repKids_append a 0 ks1 ks2).mp (hks ▸ hkids)
  obtain ⟨n, hn, hnf⟩ := h.height
  have hcs : ks1 = [] ∧ ks2 = [] ∨ ks1.length = minDegree ∧ ks2.length = minDegree := by
    cases n with
    | zero => left; simp [HasHeight] at hn; simp [ks1, ks2, hn]
    | succ n =>
      right
      have := (hasHeight_succ.mp hn).1
      simp [ks1, ks2, this, hg1, hg2, minDegree]
  -- the nodes the split changes, and those it keeps
  have hperm : (ids (node a (g1 ++ e :: g2) ks)).Perm
      ((a :: (ks1.map Tree.id ++ ks2.map Tree.id)) ++ (idsList (ks1.flatMap Tree.kids) ++ idsList (ks2.flatMap Tree.kids))) := by
    refine List.perm_iff_count.mpr fun x => ?_
    have h1 := List.perm_iff_count.mp (idsList_perm_roots ks1) x
    have h2 := List.perm_iff_count.mp (idsList_perm_roots ks2) x
    rw [hks]
    simp only [ids, idsList_append, List.count_cons, List.count_append, List.cons_append] at h1 h2 ⊢
    omega
  obtain ⟨hC, hU, hCU⟩ := List.nodup_append.mp (hperm.nodup_iff.mp h.nodup)
  have hlt : ∀ x ∈ ids (node a (g1 ++ e :: g2) ks), x < s.fresh := h.fresh
  have hfC : ∀ x ∈ a :: (ks1.map Tree.id ++ ks2.map Tree.id), x < s.fresh := fun x hx =>
    hlt x (hperm.mem_iff.mpr (List.mem_append_left _ hx))
  have hnd : (a :: s.fresh :: (s.fresh + 1) :: ks1.map Tree.id ++ ks2.map Tree.id).Nodup := by
    obtain ⟨ha, hC'⟩ := List.nodup_cons.mp hC
    show (a :: s.fresh :: (s.fresh + 1) :: (ks1.map Tree.id ++ ks2.map Tree.id)).Nodup
    refine List.nodup_cons.mpr ⟨?_, List.nodup_cons.mpr ⟨?_, List.nodup_cons.mpr ⟨?_, hC'⟩⟩⟩
    · simp only [List.mem_cons, not_or]
      have := hfC a (List.mem_cons_self _ _)
      exact ⟨by omega, by omega, ha⟩
    · simp only [List.mem_cons, not_or]
      exact ⟨by omega, fun hx => lt_irrefl _ (hfC _ (List.mem_cons_of_mem _ hx))⟩
    · exact fun hx => by have := hfC _ (List.mem_cons_of_mem _ hx); omega
  obtain ⟨s', hsplit, hf', hA', hL', hR', hin1, hin2, hout'⟩ :=
    ReclaimSet.splitRoot_spec fns gap
      (by rw [← List.map_append, ← hks]; exact hAh : (s.nodes a).Holds _ (ks1.map Tree.id ++ ks2.map Tree.id) _)
      hg1 hg2 (by simpa using hcs) hnd
  have hkeep : ∀ x ∈ idsList (ks1.flatMap Tree.kids) ++ idsList (ks2.flatMap Tree.kids), s'.nodes x = s.nodes x :=
    fun x hx => hout' x fun hx' => by
      have hxu : x ∈ ids (node a (g1 ++ e :: g2) ks) := hperm.mem_iff.mpr (List.mem_append_right _ hx)
      simp only [List.cons_append, List.mem_cons] at hx'
      rcases hx' with rfl | rfl | rfl | hx'
      · exact hCU (List.mem_cons_self _ _) hx
      · exact lt_irrefl _ (hlt _ hxu)
      · have := hlt _ hxu; omega
      · exact hCU (List.mem_cons_of_mem _ hx') hx
  have hrep : Rep s' (node a [e] [node s.fresh g1 ks1, node (s.fresh + 1) g2 ks2]) none := by
    refine rep_node.mpr ⟨by simpa using hA', ?_⟩
    simp only [RepKids, and_true]
    refine ⟨rep_node.mpr ⟨by simpa using hL', repKids_relink hks1 (fun j hj => ?_)
        (fun k hk x hx => hkeep x (by simp [mem_idsList_flatMap hk hx]))⟩,
      rep_node.mpr ⟨by simpa using hR', repKids_relink hks2 (fun j hj => ?_)
        (fun k hk x hx => hkeep x (by simp [mem_idsList_flatMap hk hx]))⟩⟩
    · have := hin1 j (by simpa using hj)
      simp only [List.getElem_map] at this
      rw [this, Nat.zero_add]
    · have := hin2 j (by simpa using hj)
      simp only [List.getElem_map] at this
      rw [this, Nat.zero_add]
  -- the new tree has the two fresh addresses more
  have hperm' : (ids (node a [e] [node s.fresh g1 ks1, node (s.fresh + 1) g2 ks2])).Perm
      (s.fresh :: (s.fresh + 1) :: ids (node a (g1 ++ e :: g2) ks)) :=
    List.perm_iff_count.mpr fun x => by
      rw [hks]
      simp only [ids, idsList, idsList_append, List.count_cons, List.count_append, List.count_nil]
      omega
  have hfix : ∀ c ∈ idsList (ks1 ++ ks2), c ≠ a ∧ c ≠ a := fun c hc =>
    have hne : c ≠ a := fun h' => (List.nodup_cons.mp h.nodup).1 (by rw [hks]; exact h' ▸ hc)
    ⟨hne, hne⟩
  have hw := walk_splitNode (l := s.fresh) (r := s.fresh + 1) (p := a) (k := 0) (e := e) hg1
    (by simpa [hg1, hg2, minDegree] using hcs :
      ks1 = [] ∧ ks2 = [] ∨ ks1.length = g1.length + 1 ∧ ks2.length = g2.length + 1) hfix
  have hfilled := (filled_node.mpr ⟨by simp [hg1, hg2, minDegree], by simp [hg1, hg2, minDegree, maxDegree],
    h.filled⟩ : Filled (node a (g1 ++ e :: g2) ks)).halves hg1 hg2 s.fresh (s.fresh + 1)
  refine ⟨s', hsplit, hf', ⟨hrep, by simpa using h.root, ⟨n + 1, ?_, by omega⟩, by simp [maxDegree, minDegree],
    fun h => by simp at h, ?_, ?_, ?_⟩, ?_⟩
  · obtain ⟨h1, h2⟩ := hn.halves hg1 hg2 s.fresh (s.fresh + 1)
    exact hasHeight_succ.mpr ⟨rfl, by simp [h1, h2]⟩
  · simpa using hfilled
  · refine hperm'.nodup_iff.mpr (List.nodup_cons.mpr ⟨?_, List.nodup_cons.mpr ⟨?_, h.nodup⟩⟩)
    · simp only [List.mem_cons, not_or]
      exact ⟨by omega, fun hx => lt_irrefl _ (hlt _ hx)⟩
    · exact fun hx => by have := hlt _ hx; omega
  · intro x hx
    rcases List.mem_cons.mp (hperm'.mem_iff.mp hx) with rfl | hx
    · omega
    · rcases List.mem_cons.mp hx with rfl | hx
      · omega
      · have := hlt x hx; omega
  · rw [hks, hw]
    simp [walk, weave]

end Tree

end Gvisor.Segment
