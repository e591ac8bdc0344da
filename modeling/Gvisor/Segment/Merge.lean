import Gvisor.Segment.Split
import Gvisor.Segment.Join

/-!
# The merges of `rebalanceAfterRemove`

When a short node has no sibling that can spare a segment, `rebalanceAfterRemove` merges it
with a sibling and the separator between them into the first of the two, and goes on at the
parent, which has lost a segment; when the parent is the root with one segment, the root takes
in both its children instead. `mergeSiblings_spec` and `collapseRoot_spec` say what the two
write, node by node. `Around.mergeSiblings` and `Around.collapseRoot` turn this into the tree
after the merge, whose traversal is the one before it with its places renamed
(`walk_mergeChild`, `walk_collapse`): a merge keeps `seq`, and the code moves every gap
iterator to where its gap now is.

`Around s fs u` is what `Short` says of the tree around the subtree `u`, without `u`'s own
bounds: what a step of `rebalanceAfterRemove` keeps of the path above the node it repairs.
-/

set_option autoImplicit false

namespace Gvisor.Segment

variable {V : Type}

theorem agree_clearAt {fns : SetFunctions V} {values : Nat → V} {l : List V} (h : Agree values l) {i : Nat}
    (hi : l.length ≤ i) : Agree (clearAt fns values i) l :=
  agree_update_of_le h hi _

theorem take_append_drop_erase {α : Type} (l1 l2 : List α) (x : α) :
    (l1 ++ x :: l2).take l1.length ++ (l1 ++ x :: l2).drop (l1.length + 1) = l1 ++ l2 := by
  rw [List.take_left, List.drop_append]
  rfl

namespace ReclaimNode

/-- The first node of a merge: its segments, the separator `x` and the second node's
segments, and its children followed by the second node's. -/
theorem Holds.merge {n m : ReclaimNode V} {gl gr : List (FileRange × V)} {kl kr : List Nat}
    {up up' : Option (Nat × Nat)} (hl : n.Holds gl kl up) (hr : m.Holds gr kr up') (x : FileRange × V)
    (hks : kl = [] ∧ kr = [] ∨ kl.length = gl.length + 1 ∧ kr.length = gr.length + 1)
    (hroom : gl.length + gr.length + 1 ≤ maxDegree - 1) :
    ({ n with
        keys := copySlice (Function.update n.keys n.nrSegments x.1) (n.nrSegments + 1) (maxDegree - 1) m.keys 0
          m.nrSegments
        values := copySlice (Function.update n.values n.nrSegments x.2) (n.nrSegments + 1) (maxDegree - 1) m.values 0
          m.nrSegments
        children := if n.hasChildren then copySlice n.children (n.nrSegments + 1) maxDegree m.children 0
          (m.nrSegments + 1) else n.children
        nrSegments := n.nrSegments + m.nrSegments + 1 } : ReclaimNode V).Holds (gl ++ x :: gr) (kl ++ kr) up := by
  have hnl := hl.nrSegments
  have hnr := hr.nrSegments
  refine ⟨by simp [hnl, hnr]; omega, ?_, ?_, ?_, ?_, hl.link⟩
  · have := agree_append_copy (agree_concat hl.keys x.1) hr.keys (by simp; omega : _ ≤ maxDegree - 1)
    simpa [hnl, hnr] using this
  · have := agree_append_copy (agree_concat hl.values x.2) hr.values (by simp; omega : _ ≤ maxDegree - 1)
    simpa [hnl, hnr] using this
  · show n.hasChildren = !(kl ++ kr).isEmpty
    rw [hl.hasChildren]
    rcases hks with ⟨rfl, rfl⟩ | ⟨h1, -⟩
    · rfl
    · cases kl with
      | nil => simp at h1
      | cons _ _ => rfl
  · rcases hks with ⟨rfl, rfl⟩ | ⟨h1, h2⟩
    · have hc : n.hasChildren = false := by simpa using hl.hasChildren
      simpa [hc] using hl.children
    · have hc : n.hasChildren = true := by
        rw [hl.hasChildren]
        cases kl with
        | nil => simp at h1
        | cons _ _ => rfl
      have := agreeAll_append_copy hl.children hr.children (by simp [maxDegree] at hroom ⊢; omega : _ ≤ maxDegree)
      simpa [hc, h1, h2, hnl, hnr] using this

/-- The parent after a merge: the separator `x` and the second node `b` go. -/
theorem Holds.eraseAt {n : ReclaimNode V} {S1 S2 : List (FileRange × V)} {x : FileRange × V} {cl cr : List Nat}
    {a b : Nat} {up : Option (Nat × Nat)} (h : n.Holds (S1 ++ x :: S2) (cl ++ a :: b :: cr) up)
    (hcl : cl.length = S1.length) (hcr : cr.length = S2.length) (hcap : S1.length + S2.length + 1 ≤ maxDegree - 1)
    (fns : SetFunctions V) :
    ({ n with
        keys := copySlice n.keys S1.length (maxDegree - 1) n.keys (S1.length + 1) n.nrSegments
        values := clearAt fns (copySlice n.values S1.length (maxDegree - 1) n.values (S1.length + 1) n.nrSegments)
          (n.nrSegments - 1)
        children := Function.update (copySlice n.children (S1.length + 1) maxDegree n.children (S1.length + 2)
          (n.nrSegments + 1)) n.nrSegments none
        nrSegments := n.nrSegments - 1 } : ReclaimNode V).Holds (S1 ++ S2) (cl ++ a :: cr) up := by
  have hnr : n.nrSegments = S1.length + S2.length + 1 := by simp [h.nrSegments]; omega
  have hmid : ∀ {β : Type} (f : FileRange × V → β), ((S1 ++ x :: S2).map f).take S1.length ++
      ((S1 ++ x :: S2).map f).drop (S1.length + 1) = (S1 ++ S2).map f := fun f => by
    simpa using take_append_drop_erase (S1.map f) (S2.map f) (f x)
  refine ⟨by simp [hnr], ?_, ?_, ?_, ?_, h.link⟩
  · have := agree_erase h.keys (i := S1.length) (by simp) (by simp; omega : _ ≤ maxDegree - 1)
    rwa [hmid, List.length_map, ← h.nrSegments] at this
  · have := agree_erase h.values (i := S1.length) (by simp) (by simp; omega : _ ≤ maxDegree - 1)
    rw [hmid, List.length_map, ← h.nrSegments] at this
    exact agree_clearAt this (by simp [hnr])
  · rw [h.hasChildren]; cases cl <;> rfl
  · have := agreeAll_erase h.children (i := S1.length + 1) (by simp; omega : S1.length + 1 < (cl ++ a :: b :: cr).length)
      (by simp [maxDegree] at hcap ⊢; omega : _ ≤ maxDegree)
    have hl : (cl ++ a :: b :: cr).length = n.nrSegments + 1 := by simp [hnr]; omega
    have hl2 : (cl ++ a :: b :: cr).take (S1.length + 1) ++ (cl ++ a :: b :: cr).drop (S1.length + 1 + 1) =
        cl ++ a :: cr := by
      simpa [← hcl] using take_append_drop_erase (cl ++ [a]) cr b
    rwa [hl, Nat.add_sub_cancel, hl2] at this

/-- The root after it takes in its children, holding `gl` and `gr`, around its one segment. -/
theorem Holds.collapse {n nl nr : ReclaimNode V} {gl gr : List (FileRange × V)} {e : FileRange × V} {x y : Nat}
    {kl kr : List Nat} {upl upr : Option (Nat × Nat)} (h : n.Holds [e] [x, y] none) (hl : nl.Holds gl kl upl)
    (hr : nr.Holds gr kr upr) (hks : kl = [] ∧ kr = [] ∨ kl.length = gl.length + 1 ∧ kr.length = gr.length + 1)
    (hgl : 0 < gl.length) (hroom : gl.length + gr.length + 1 ≤ maxDegree - 1) :
    ({ n with
        nrSegments := nl.nrSegments + nr.nrSegments + 1, hasChildren := nl.hasChildren
        keys := copySlice (copySlice (Function.update n.keys nl.nrSegments (n.keys 0)) 0 nl.nrSegments nl.keys 0
          nl.nrSegments) (nl.nrSegments + 1) (maxDegree - 1) nr.keys 0 nr.nrSegments
        values := copySlice (copySlice (Function.update n.values nl.nrSegments (n.values 0)) 0 nl.nrSegments nl.values
          0 nl.nrSegments) (nl.nrSegments + 1) (maxDegree - 1) nr.values 0 nr.nrSegments
        children := if nl.hasChildren then copySlice (copySlice n.children 0 (nl.nrSegments + 1) nl.children 0
          (nl.nrSegments + 1)) (nl.nrSegments + 1) maxDegree nr.children 0 (nr.nrSegments + 1)
          else Function.update (Function.update n.children 0 none) 1 none } : ReclaimNode V).Holds
      (gl ++ e :: gr) (kl ++ kr) none := by
  have hnl := hl.nrSegments
  have hnr := hr.nrSegments
  have he := h.reads (j := 0) (e := e) rfl
  have hnone : ∀ i, 2 ≤ i → n.children i = none := fun i hi => by
    rw [h.children i, List.getElem?_eq_none (by simpa using hi)]
  refine ⟨by simp [hnl, hnr]; omega, ?_, ?_, ?_, ?_, h.link⟩
  · have h1 : Agree (copySlice (Function.update n.keys nl.nrSegments (n.keys 0)) 0 _ nl.keys 0 _) _ :=
      agree_copy_prefix hl.keys
    rw [List.length_map, ← hnl, Function.update_same] at h1
    have := agree_append_copy h1 hr.keys (by simp; omega : _ ≤ maxDegree - 1)
    simpa [hnl, hnr, he.2.1] using this
  · have h1 : Agree (copySlice (Function.update n.values nl.nrSegments (n.values 0)) 0 _ nl.values 0 _) _ :=
      agree_copy_prefix hl.values
    rw [List.length_map, ← hnl, Function.update_same] at h1
    have := agree_append_copy h1 hr.values (by simp; omega : _ ≤ maxDegree - 1)
    simpa [hnl, hnr, he.2.2] using this
  · show nl.hasChildren = !(kl ++ kr).isEmpty
    rw [hl.hasChildren]
    rcases hks with ⟨rfl, rfl⟩ | ⟨h1, -⟩
    · rfl
    · cases kl with
      | nil => simp at h1
      | cons _ _ => rfl
  · rcases hks with ⟨rfl, rfl⟩ | ⟨h1, h2⟩
    · have hc : nl.hasChildren = false := by simpa using hl.hasChildren
      intro i
      simp only [hc, Bool.false_eq_true, ↓reduceIte, List.append_nil, List.getElem?_nil]
      rcases i with _ | _ | i
      · rfl
      · rfl
      · rw [Function.update_noteq (by omega), Function.update_noteq (by omega), hnone _ (by omega)]
    · have hc : nl.hasChildren = true := by
        rw [hl.hasChildren]
        cases kl with
        | nil => simp at h1
        | cons _ _ => rfl
      have h1' := agreeAll_copy_prefix hl.children fun i hi => hnone i (by omega)
      have := agreeAll_append_copy h1' hr.children (by simp [maxDegree] at hroom ⊢; omega : _ ≤ maxDegree)
      simpa [hc, h1, h2, hnl, hnr] using this

/-- A node renumbered to the index it has holds what it held. -/
theorem Holds.renumber {n : ReclaimNode V} {segs : List (FileRange × V)} {kids : List Nat} {p i : Nat}
    (h : n.Holds segs kids (some (p, i))) (hi : n.parentIndex = i) :
    ({ n with parentIndex := i } : ReclaimNode V).Holds segs kids (some (p, i)) := by
  subst hi
  exact h

end ReclaimNode

theorem ite_bind_option {α β : Type} (c : Prop) [Decidable c] (A B : Option α) (f : α → Option β) :
    (if c then A >>= f else B >>= f) = (if c then A else B) >>= f := by
  split <;> rfl


namespace ReclaimSet

variable (fns : SetFunctions V)

/-- What `mergeSiblings` writes when the short node `a` is `y`, or is `x` and first, where `x`
and `y` are the children `i` and `i + 1` of `p`: `x` takes the separator `e` and `y`'s segments
and children, which are relinked to it; `p` loses `e` and `y`, its later children are
renumbered; no other node changes. Every gap of `y` moves to `x`. -/
theorem mergeSiblings_spec (gap : ReclaimGapIterator) {s : ReclaimSet V} {a p x y i : Nat}
    {gl gr S1 S2 : List (FileRange × V)} {e : FileRange × V} {kl kr cl cr : List Nat} {up : Option (Nat × Nat)}
    (hX : (s.nodes x).Holds gl kl (some (p, i))) (hY : (s.nodes y).Holds gr kr (some (p, i + 1)))
    (hP : (s.nodes p).Holds (S1 ++ e :: S2) (cl ++ x :: y :: cr) up)
    (hcl : cl.length = i) (hS1 : S1.length = i) (hcr : cr.length = S2.length) (ha : a = y ∨ a = x ∧ i = 0)
    (hks : kl = [] ∧ kr = [] ∨ kl.length = gl.length + 1 ∧ kr.length = gr.length + 1)
    (hroom : gl.length + gr.length + 1 ≤ maxDegree - 1) (hcap : S1.length + S2.length + 1 ≤ maxDegree - 1)
    (hnd : (x :: p :: (cl ++ cr ++ kr)).Nodup) :
    ∃ s', s.mergeSiblings fns a p gap =
        some (s', if gap.node = some y then ⟨some x, gap.index + gl.length + 1⟩ else gap) ∧
      s'.fresh = s.fresh ∧
      (s'.nodes x).Holds (gl ++ e :: gr) (kl ++ kr) (some (p, i)) ∧
      (s'.nodes p).Holds (S1 ++ S2) (cl ++ x :: cr) up ∧
      (∀ j (hj : j < cl.length), s'.nodes cl[j] = { s.nodes cl[j] with parentIndex := j }) ∧
      (∀ j (hj : j < cr.length), s'.nodes cr[j] = { s.nodes cr[j] with parentIndex := i + 1 + j }) ∧
      (∀ j (hj : j < kr.length),
        s'.nodes kr[j] = { s.nodes kr[j] with parent := some x, parentIndex := gl.length + 1 + j }) ∧
      ∀ z, z ∉ x :: p :: (cl ++ cr ++ kr) → s'.nodes z = s.nodes z := by
  simp only [List.nodup_cons, List.mem_cons, List.mem_append, not_or] at hnd
  obtain ⟨⟨hxp, ⟨hxcl, hxcr⟩, hxkr⟩, ⟨⟨hpcl, hpcr⟩, hpkr⟩, hnd⟩ := hnd
  have hxi : (s.nodes x).parentIndex = i := (ReclaimNode.link_eq_some.mp hX.link).2
  have hnP : (s.nodes p).nrSegments = S1.length + S2.length + 1 := by simp [hP.nrSegments]; omega
  have he := hP.reads (j := i) (e := e) (by rw [← hS1, List.getElem?_append_right le_rfl, Nat.sub_self]; simp)
  have hcx : (s.nodes p).children i = some x := by
    rw [hP.children, List.getElem?_append_right (by omega), hcl, Nat.sub_self]; simp
  have hcy : (s.nodes p).children (i + 1) = some y := by
    rw [hP.children, List.getElem?_append_right (by omega), hcl, Nat.add_sub_cancel_left]; simp
  -- the pair the code merges
  have hrun : ∀ {β : Type} (k : Nat × Nat → Option β),
      (if (s.nodes a).parentIndex > 0 then (s.prevSibling a).map (·, a) >>= k else (s.nextSibling a).map (a, ·) >>= k) =
        k (x, y) := by
    intro β k
    rcases ha with rfl | ⟨rfl, hi0⟩
    · obtain ⟨hpar, hidx⟩ := ReclaimNode.link_eq_some.mp hY.link
      simp [prevSibling, hpar, hidx, hcx]
    · obtain ⟨hpar, hidx⟩ := ReclaimNode.link_eq_some.mp hX.link
      subst hi0
      simp [nextSibling, hpar, hidx, hnP, hcy]
  rw [mergeSiblings, hrun]
  dsimp only
  rw [ite_bind_option]
  generalize hs1 : s.modify x _ = s1
  generalize hA : (if (s.nodes x).hasChildren = true then _ else _ : Option (ReclaimSet V)) = o2
  have h1x : s1.nodes x = { s.nodes x with
      keys := (copySlice (Function.update (s.nodes x).keys (s.nodes x).nrSegments
        ((s.nodes p).keys (s.nodes x).parentIndex)) ((s.nodes x).nrSegments + 1) (maxDegree - 1) (s.nodes y).keys 0
        (s.nodes y).nrSegments)
      values := (copySlice (Function.update (s.nodes x).values (s.nodes x).nrSegments
        ((s.nodes p).values (s.nodes x).parentIndex)) ((s.nodes x).nrSegments + 1) (maxDegree - 1) (s.nodes y).values 0
        (s.nodes y).nrSegments) } := by
    rw [← hs1]; simp
  have h1 : ∀ z, z ≠ x → s1.nodes z = s.nodes z := fun z hz => by rw [← hs1]; simp [hz]
  -- the second node's children move to the first
  obtain ⟨s2, rfl, h2f, h2x, h2kr, h2out⟩ : ∃ s2, o2 = some s2 ∧ s2.fresh = s.fresh ∧
      s2.nodes x = { s1.nodes x with children := (if (s.nodes x).hasChildren then copySlice (s.nodes x).children
        ((s.nodes x).nrSegments + 1) maxDegree (s.nodes y).children 0 ((s.nodes y).nrSegments + 1)
        else (s.nodes x).children) } ∧
      (∀ j (hj : j < kr.length), s2.nodes kr[j] = { s.nodes kr[j] with parent := some x, parentIndex := gl.length + 1 + j }) ∧
      ∀ z, z ≠ x → z ∉ kr → s2.nodes z = s.nodes z := by
    rw [← hA]
    cases hc : (s.nodes x).hasChildren
    · obtain rfl : kr = [] := by
        rcases hks with ⟨-, h⟩ | ⟨h1, -⟩
        · exact h
        · have := hX.hasChildren; rw [hc] at this
          cases kl with
          | nil => simp at h1
          | cons _ _ => simp at this
      refine ⟨s1, rfl, by rw [← hs1]; rfl, ?_, by simp, fun z hz _ => h1 z hz⟩
      rw [h1x]; rfl
    · have hkr : kr.length = gr.length + 1 := by
        rcases hks with ⟨rfl, rfl⟩ | ⟨-, h⟩
        · have := hX.hasChildren; rw [hc] at this; simp at this
        · exact h
      simp only [↓reduceIte]
      generalize hs1' : s1.modify x _ = s1'
      have h1x' : s1'.nodes x = { s1.nodes x with children := (copySlice (s.nodes x).children
          ((s.nodes x).nrSegments + 1) maxDegree (s.nodes y).children 0 ((s.nodes y).nrSegments + 1)) } := by
        rw [← hs1']; simp [h1x]
      have hch : ∀ j (hj : j < kr.length), (s1'.nodes x).children (gl.length + 1 + j) = some kr[j] := by
        intro j hj
        simp only [h1x', copySlice]
        rw [if_pos (by simp [hX.nrSegments, hY.nrSegments, maxDegree] at hroom ⊢; omega), hY.children, hX.nrSegments]
        simp [List.getElem?_eq_getElem hj]
      obtain ⟨s2, h2, h2f, h2in, h2out⟩ := adoptChildren_spec x kr s1' (gl.length + 1) (List.nodup_append.mp hnd).2.1 hch
      refine ⟨s2, ?_, by rw [h2f, ← hs1', ← hs1]; rfl, ?_, fun j hj => ?_, fun z hz hkr => ?_⟩
      · rw [← h2, hX.nrSegments, hY.nrSegments]; congr 1; omega
      · rw [h2out x hxkr, h1x']
      · have hne : kr[j] ≠ x := fun h => hxkr (h ▸ List.getElem_mem hj)
        rw [h2in j hj, ← hs1', modify_nodes, if_neg hne, h1 _ hne]
      · rw [h2out z hkr, ← hs1', modify_nodes, if_neg hz, h1 z hz]
  simp only [Option.some_bind, Option.bind_eq_bind]
  subst hS1
  generalize hs3 : s2.modify x _ = s3
  have h3x : s3.nodes x = { s2.nodes x with nrSegments := (s2.nodes x).nrSegments + (s.nodes y).nrSegments + 1 } := by
    rw [← hs3]; simp
  have h3 : ∀ z, z ≠ x → s3.nodes z = s2.nodes z := fun z hz => by rw [← hs3]; simp [hz]
  have h3i : (s3.nodes x).parentIndex = S1.length := by rw [h3x, h2x, h1x]; exact hxi
  simp only [h3i]
  generalize hs4 : s3.modify p _ = s4
  have h3p : s3.nodes p = s.nodes p := by rw [h3 p (Ne.symm hxp), h2out p (Ne.symm hxp) hpkr]
  have hPe := hP.eraseAt hcl hcr hcap fns
  have h4p : (s4.nodes p).children = copySlice (s.nodes p).children (S1.length + 1) maxDegree (s.nodes p).children
      (S1.length + 2) ((s.nodes p).nrSegments + 1) := by
    rw [← hs4]; simp [h3p]
  have hch : ∀ j (hj : j < (cl ++ x :: cr).length), (s4.nodes p).children (0 + j) = some (cl ++ x :: cr)[j] := by
    intro j hj
    have := hPe.children j
    dsimp only at this
    rw [Function.update_noteq (by simp [hnP] at hj ⊢; omega)] at this
    rw [Nat.zero_add, h4p, this, List.getElem?_eq_getElem hj]
  have hnd5 : (cl ++ x :: cr).Nodup := by
    refine List.nodup_middle.mpr (List.nodup_cons.mpr ⟨by simp [hxcl, hxcr], ?_⟩)
    exact (List.nodup_append.mp hnd).1
  obtain ⟨s5, h5, h5f, h5in, h5out⟩ := renumberChildren_spec p (cl ++ x :: cr) s4 0 hnd5 hch
  have h4nr : (s4.nodes p).nrSegments = 0 + (cl ++ x :: cr).length := by
    rw [← hs4]; simp [h3p, hnP, hcl, hcr]; omega
  rw [h4nr, h5]
  simp only [Option.some_bind, Option.pure_def]
  have h4 : ∀ z, z ≠ p → s4.nodes z = s3.nodes z := fun z hz => by rw [← hs4]; simp [hz]
  have hp5 : p ∉ cl ++ x :: cr := by simp [hpcl, hpcr, Ne.symm hxp]
  have h5x : s5.nodes x = { s4.nodes x with parentIndex := S1.length } := by
    have hlt : cl.length < (cl ++ x :: cr).length := by simp
    have hget : (cl ++ x :: cr)[cl.length] = x := by rw [List.getElem_append_right (by simp)]; simp
    have := h5in cl.length (by simp)
    rwa [hget, Nat.zero_add, hcl] at this
  refine ⟨_, by rw [hX.nrSegments], by rw [modify_fresh, h5f, ← hs4, modify_fresh, ← hs3, modify_fresh, h2f], ?_, ?_,
    fun j hj => ?_, fun j hj => ?_, fun j hj => ?_, fun z hz => ?_⟩
  · rw [modify_nodes, if_neg hxp, h5x, h4 x hxp, h3x, h2x, h1x]
    have hpe : ((s.nodes p).keys (s.nodes x).parentIndex, (s.nodes p).values (s.nodes x).parentIndex) = e := by
      rw [hxi, he.2.1, he.2.2]
    rw [← hpe]
    exact (hX.merge hY ((s.nodes p).keys (s.nodes x).parentIndex, (s.nodes p).values (s.nodes x).parentIndex) hks
      hroom).renumber hxi
  · rw [modify_nodes, if_pos rfl, h5out p hp5, ← hs4, modify_nodes, if_pos rfl, h3p]
    exact hPe
  · have hm := List.getElem_mem hj
    have hjp : cl[j] ≠ p := fun h => hpcl (h ▸ hm)
    have hjx : cl[j] ≠ x := fun h => hxcl (h ▸ hm)
    have hkr : cl[j] ∉ kr := fun h => List.disjoint_of_nodup_append hnd (List.mem_append_left _ hm) h
    have hlt : j < (cl ++ x :: cr).length := by simp; omega
    have hget : (cl ++ x :: cr)[j] = cl[j] := List.getElem_append_left hj
    have h5 := h5in j hlt
    rw [hget, Nat.zero_add] at h5
    rw [modify_nodes, if_neg hjp, h5, h4 _ hjp, h3 _ hjx, h2out _ hjx hkr]
  · have hm := List.getElem_mem hj
    have hjp : cr[j] ≠ p := fun h => hpcr (h ▸ hm)
    have hjx : cr[j] ≠ x := fun h => hxcr (h ▸ hm)
    have hkr : cr[j] ∉ kr := fun h => List.disjoint_of_nodup_append hnd (List.mem_append_right _ hm) h
    have hlt : cl.length + 1 + j < (cl ++ x :: cr).length := by simp; omega
    have hget : (cl ++ x :: cr)[cl.length + 1 + j] = cr[j] := by
      rw [List.getElem_append_right (by omega)]
      simp [show cl.length + 1 + j - cl.length = j + 1 by omega]
    have h5 := h5in (cl.length + 1 + j) hlt
    rw [hget, Nat.zero_add, hcl] at h5
    rw [modify_nodes, if_neg hjp, h5, h4 _ hjp, h3 _ hjx, h2out _ hjx hkr]
  · have hm := List.getElem_mem hj
    have hjp : kr[j] ≠ p := fun h => hpkr (h ▸ hm)
    have hjx : kr[j] ≠ x := fun h => hxkr (h ▸ hm)
    have h5 : kr[j] ∉ cl ++ x :: cr := fun h => by
      rcases List.mem_append.mp h with h | h
      · exact List.disjoint_of_nodup_append hnd (List.mem_append_left _ h) hm
      · rcases List.mem_cons.mp h with h | h
        · exact hjx h
        · exact List.disjoint_of_nodup_append hnd (List.mem_append_right _ h) hm
    rw [modify_nodes, if_neg hjp, h5out _ h5, h4 _ hjp, h3 _ hjx, h2kr j hj]
  · simp only [List.mem_cons, List.mem_append, not_or] at hz
    obtain ⟨hzx, hzp, ⟨hzcl, hzcr⟩, hzkr⟩ := hz
    rw [modify_nodes, if_neg hzp, h5out z (by simp [hzx, hzcl, hzcr]), h4 z hzp, h3 z hzx, h2out z hzx hzkr]

/-- What `collapseRoot` writes when the root `p` holds one segment `e` and the children `x`
and `y`: `p` takes in both, and their children are relinked to it; no other node changes.
Every gap of `x` and `y` moves to `p`. -/
theorem collapseRoot_spec (gap : ReclaimGapIterator) {s : ReclaimSet V} {p x y : Nat}
    {gl gr : List (FileRange × V)} {e : FileRange × V} {kl kr : List Nat}
    (hP : (s.nodes p).Holds [e] [x, y] none) (hX : (s.nodes x).Holds gl kl (some (p, 0)))
    (hY : (s.nodes y).Holds gr kr (some (p, 1)))
    (hks : kl = [] ∧ kr = [] ∨ kl.length = gl.length + 1 ∧ kr.length = gr.length + 1)
    (hgl : 0 < gl.length) (hroom : gl.length + gr.length + 1 ≤ maxDegree - 1) (hnd : (p :: (kl ++ kr)).Nodup) :
    ∃ s', s.collapseRoot p gap = some (s', if gap.node = some x then ⟨some p, gap.index⟩
        else if gap.node = some y then ⟨some p, gap.index + gl.length + 1⟩ else gap) ∧
      s'.fresh = s.fresh ∧
      (s'.nodes p).Holds (gl ++ e :: gr) (kl ++ kr) none ∧
      (∀ j (hj : j < (kl ++ kr).length),
        s'.nodes (kl ++ kr)[j] = { s.nodes (kl ++ kr)[j] with parent := some p, parentIndex := j }) ∧
      ∀ z, z ∉ p :: (kl ++ kr) → s'.nodes z = s.nodes z := by
  obtain ⟨hp, hnd⟩ := List.nodup_cons.mp hnd
  have hc0 : (s.nodes p).children 0 = some x := hP.children 0
  have hc1 : (s.nodes p).children 1 = some y := hP.children 1
  have hcol := hP.collapse hX hY hks hgl hroom
  simp only [collapseRoot, hc0, hc1, Option.some_bind, Option.bind_eq_bind]
  generalize hs1 : s.modify p _ = s1
  have h1 : ∀ z, z ≠ p → s1.nodes z = s.nodes z := fun z hz => by rw [← hs1]; simp [hz]
  cases hc : (s.nodes x).hasChildren
  · obtain ⟨rfl, rfl⟩ : kl = [] ∧ kr = [] := by
      rcases hks with h | ⟨h1, -⟩
      · exact h
      · have := hX.hasChildren; rw [hc] at this
        cases kl with
        | nil => simp at h1
        | cons _ _ => simp at this
    simp only [Bool.false_eq_true, ↓reduceIte, Option.pure_def, Option.some_bind]
    refine ⟨_, by rw [hX.nrSegments], by rw [modify_fresh, ← hs1]; rfl, ?_, fun j hj => by simp at hj,
      fun z hz => ?_⟩
    · rw [modify_nodes, if_pos rfl, ← hs1, modify_nodes, if_pos rfl]
      simpa [hc] using hcol
    · have hzp : z ≠ p := fun h => hz (h ▸ List.mem_cons_self _ _)
      rw [modify_nodes, if_neg hzp, h1 z hzp]
  · simp only [↓reduceIte]
    generalize hs2 : s1.modify p _ = s2
    have h2p : (s2.nodes p).children = copySlice (copySlice (s.nodes p).children 0 ((s.nodes x).nrSegments + 1)
        (s.nodes x).children 0 ((s.nodes x).nrSegments + 1)) ((s.nodes x).nrSegments + 1) maxDegree (s.nodes y).children
        0 ((s.nodes y).nrSegments + 1) := by
      rw [← hs2, ← hs1]; simp
    have hch : ∀ j (hj : j < (kl ++ kr).length), (s2.nodes p).children (0 + j) = some (kl ++ kr)[j] := by
      intro j hj
      have := hcol.children j
      simp only [hc, ↓reduceIte] at this
      rw [Nat.zero_add, h2p, this, List.getElem?_eq_getElem hj]
    obtain ⟨s3, h3, h3f, h3in, h3out⟩ := adoptChildren_spec p (kl ++ kr) s2 0 hnd hch
    have hnr : (s1.nodes p).nrSegments + 1 = 0 + (kl ++ kr).length := by
      rw [← hs1]
      rcases hks with ⟨rfl, -⟩ | ⟨h1, h2⟩
      · have := hX.hasChildren; rw [hc] at this; simp at this
      · simp [hX.nrSegments, hY.nrSegments, h1, h2]; omega
    rw [hnr, h3]
    simp only [Option.pure_def, Option.some_bind]
    have h2 : ∀ z, z ≠ p → s2.nodes z = s.nodes z := fun z hz => by rw [← hs2, modify_nodes, if_neg hz, h1 z hz]
    refine ⟨_, by rw [hX.nrSegments], by rw [h3f, ← hs2, modify_fresh, ← hs1]; rfl, ?_, fun j hj => ?_,
      fun z hz => ?_⟩
    · rw [h3out p hp, ← hs2, modify_nodes, if_pos rfl, ← hs1, modify_nodes, if_pos rfl]
      simpa [hc] using hcol
    · have hjp : (kl ++ kr)[j] ≠ p := fun h => hp (h ▸ List.getElem_mem hj)
      rw [h3in j hj, h2 _ hjp, Nat.zero_add]
    · simp only [List.mem_cons, not_or] at hz
      rw [h3out z hz.2, h2 z hz.1]

end ReclaimSet

namespace Tree

variable {s s' : ReclaimSet V}

/-- The children of a node of height `m + 1` have one height: both leaves, or both internal with
one child more than segments. -/
theorem kids_shape_of_height {m : Nat} {x y : Tree V} (hx : HasHeight m x) (hy : HasHeight m y) :
    x.kids = [] ∧ y.kids = [] ∨ x.kids.length = x.segs.length + 1 ∧ y.kids.length = y.segs.length + 1 := by
  obtain ⟨a, g, ks⟩ := x
  obtain ⟨b, g', ks'⟩ := y
  cases m with
  | zero => exact .inl ⟨hx, hy⟩
  | succ m => exact .inr ⟨(hasHeight_succ.mp hx).1, (hasHeight_succ.mp hy).1⟩

/-- Two nodes of one height joined around a separator have that height. -/
theorem hasHeight_join {m a b c : Nat} {gl gr : List (FileRange × V)} {e : FileRange × V} {kl kr : List (Tree V)}
    (hx : HasHeight m (node a gl kl)) (hy : HasHeight m (node b gr kr)) :
    HasHeight m (node c (gl ++ e :: gr) (kl ++ kr)) := by
  cases m with
  | zero => simp_all [HasHeight]
  | succ m =>
    obtain ⟨hxl, hxa⟩ := hasHeight_succ.mp hx
    obtain ⟨hyl, hya⟩ := hasHeight_succ.mp hy
    refine hasHeight_succ.mpr ⟨by simp [hxl, hyl]; omega, fun k hk => ?_⟩
    rcases List.mem_append.mp hk with hk | hk
    exacts [hxa k hk, hya k hk]

/-- Merging two children of the same height, with their separator, keeps the height. -/
theorem hasHeight_merge {n p x : Nat} {S1 S2 gl gr : List (FileRange × V)} {e : FileRange × V}
    {L R kl kr : List (Tree V)} {y : Nat}
    (h : HasHeight n (node p (S1 ++ e :: S2) (L ++ node x gl kl :: node y gr kr :: R))) :
    HasHeight n (node p (S1 ++ S2) (L ++ node x (gl ++ e :: gr) (kl ++ kr) :: R)) := by
  cases n with
  | zero => simp [HasHeight] at h
  | succ n =>
    obtain ⟨hlen, hall⟩ := hasHeight_succ.mp h
    refine hasHeight_succ.mpr ⟨by simp at hlen ⊢; omega, fun k hk => ?_⟩
    simp only [List.mem_append, List.mem_cons] at hk
    rcases hk with hk | rfl | hk
    · exact hall k (by simp [hk])
    · exact hasHeight_join (hall (node x gl kl) (by simp)) (hall (node y gr kr) (by simp))
    · exact hall k (by simp [hk])

/-- The address of a node's children's children, among all the tree's. -/
theorem perm_window {p x y : Nat} {segs gl gr : List (FileRange × V)} {L R kl kr : List (Tree V)} :
    (ids (node p segs (L ++ node x gl kl :: node y gr kr :: R))).Perm
      ((x :: p :: (L.map Tree.id ++ R.map Tree.id ++ kr.map Tree.id)) ++
        (y :: (idsList kl ++ idsList (L.flatMap Tree.kids) ++ idsList (R.flatMap Tree.kids) ++
          idsList (kr.flatMap Tree.kids)))) := by
  refine List.perm_iff_count.mpr fun z => ?_
  have h1 := List.perm_iff_count.mp (idsList_perm_roots L) z
  have h2 := List.perm_iff_count.mp (idsList_perm_roots R) z
  have h3 := List.perm_iff_count.mp (idsList_perm_roots kr) z
  simp only [ids, idsList, idsList_append, List.count_cons, List.count_append, List.cons_append,
    List.singleton_append, List.count_nil] at h1 h2 h3 ⊢
  omega

section Merge

variable (fns : SetFunctions V)

/-- Merging the children `x` and `y` of node `p` at the end of a path: the heap stores the
tree with `x` holding both and the separator, and `y` gone from `p`, and its traversal is the
one before with the places of `y` and of `p` renamed, around the window and in the whole tree. -/
theorem Around.mergeSiblings (gap : ReclaimGapIterator) {fs : List (Frame V)} {p a x y : Nat}
    {S1 S2 gl gr : List (FileRange × V)} {e : FileRange × V} {L R kl kr : List (Tree V)}
    (h : Around s fs (node p (S1 ++ e :: S2) (L ++ node x gl kl :: node y gr kr :: R)))
    (hS1 : S1.length = L.length) (ha : a = y ∨ a = x ∧ L = []) (hroom : gl.length + gr.length + 1 ≤ maxDegree - 1)
    (hsize : (S1 ++ e :: S2).length ≤ maxDegree - 1) :
    ∃ s', s.mergeSiblings fns a p gap =
        some (s', if gap.node = some y then ⟨some x, gap.index + gl.length + 1⟩ else gap) ∧
      s'.fresh = s.fresh ∧
      Around s' fs (node p (S1 ++ S2) (L ++ node x (gl ++ e :: gr) (kl ++ kr) :: R)) ∧
      walk (plug fs (node p (S1 ++ S2) (L ++ node x (gl ++ e :: gr) (kl ++ kr) :: R))) =
        (walk (plug fs (node p (S1 ++ e :: S2) (L ++ node x gl kl :: node y gr kr :: R)))).map
          (Pos.relabel (joinGap x gl.length y) (joinSeg x gl.length y p L.length)) ∧
      (walk (node p (S1 ++ e :: S2) (L ++ node x gl kl :: node y gr kr :: R))).map
          (Pos.relabel (joinGap x gl.length y) (joinSeg x gl.length y p L.length)) =
        walk (node p (S1 ++ S2) (L ++ node x (gl ++ e :: gr) (kl ++ kr) :: R)) := by
  -- the parts of the heap the merge reads
  obtain ⟨-, hru⟩ := (rep_plug fs _).mp h.rep
  obtain ⟨hP, hkids⟩ := rep_node.mp hru
  obtain ⟨hL, hXr, hYr, hR⟩ : RepKids s p 0 L ∧ Rep s (node x gl kl) (some (p, L.length)) ∧
      Rep s (node y gr kr) (some (p, L.length + 1)) ∧ RepKids s p (L.length + 2) R := by
    obtain ⟨h1, h2⟩ := (repKids_append p 0 L _).mp hkids
    simp only [RepKids, Nat.zero_add] at h2
    exact ⟨h1, h2.1, h2.2.1, h2.2.2⟩
  obtain ⟨hXh, hkl⟩ := rep_node.mp hXr
  obtain ⟨hYh, hkr⟩ := rep_node.mp hYr
  -- the shape of the window
  obtain ⟨n, hn, -⟩ := h.height
  obtain ⟨m, hm, -⟩ := hasHeight_of_plug fs hn
  obtain ⟨m, rfl⟩ : ∃ m', m = m' + 1 := ⟨m - 1, by cases m <;> simp_all [HasHeight]⟩
  obtain ⟨hlen, hall⟩ := hasHeight_succ.mp hm
  have hcr : R.length = S2.length := by simp at hlen; omega
  have hks := kids_shape_of_height (hall (node x gl kl) (by simp)) (hall (node y gr kr) (by simp))
  simp only [kids_node, segs_node] at hks
  -- the nodes the merge changes, and those it keeps
  have hctxu := List.nodup_append.mp ((ids_plug_perm fs _).nodup_iff.mp h.nodup)
  obtain ⟨hD, hE, hDE⟩ := List.nodup_append.mp (perm_window.nodup_iff.mp hctxu.2.1)
  obtain ⟨s', hmerge, hf', hX', hP', hcl', hcr', hkr', hout'⟩ := ReclaimSet.mergeSiblings_spec fns gap hXh hYh
    (by simpa using hP : (s.nodes p).Holds _ (L.map Tree.id ++ x :: y :: R.map Tree.id) _) (by simp) hS1
    (by simpa using hcr) (ha.imp (fun h => h) fun h' => ⟨h'.1, by simp [h'.2]⟩) (by simpa using hks) hroom
    (by simpa using hsize) hD
  have hkeep : ∀ z ∈ idsList kl ++ idsList (L.flatMap Tree.kids) ++ idsList (R.flatMap Tree.kids) ++
      idsList (kr.flatMap Tree.kids), s'.nodes z = s.nodes z := fun z hz =>
    hout' z fun hzD => hDE hzD (List.mem_cons_of_mem _ hz)
  have hctx : ∀ z ∈ ctxIds fs, s'.nodes z = s.nodes z := fun z hz =>
    hout' z fun hzD => hctxu.2.2 hz (perm_window.mem_iff.mpr (List.mem_append_left _ hzD))
  -- the addresses of the window, and of the merged window: `y` goes
  have hperm : (ids (node p (S1 ++ e :: S2) (L ++ node x gl kl :: node y gr kr :: R))).Perm
      (p :: x :: y :: idsList (L ++ R ++ kl ++ kr)) := List.perm_iff_count.mpr fun z => by
    simp only [ids, idsList, idsList_append, List.count_cons, List.count_append, List.count_nil]; omega
  have hperm' : (ids (node p (S1 ++ S2) (L ++ node x (gl ++ e :: gr) (kl ++ kr) :: R))).Perm
      (p :: x :: idsList (L ++ R ++ kl ++ kr)) := List.perm_iff_count.mpr fun z => by
    simp only [ids, idsList, idsList_append, List.count_cons, List.count_append, List.count_nil]; omega
  obtain ⟨hp_notin, hx_nd⟩ := List.nodup_cons.mp (hperm.nodup_iff.mp hctxu.2.1)
  obtain ⟨hx_notin, hy_nd⟩ := List.nodup_cons.mp hx_nd
  obtain ⟨hy_notin, hrest⟩ := List.nodup_cons.mp hy_nd
  have hsub : ∀ z ∈ p :: x :: idsList (L ++ R ++ kl ++ kr),
      z ∈ ids (node p (S1 ++ e :: S2) (L ++ node x gl kl :: node y gr kr :: R)) := fun z hz =>
    hperm.mem_iff.mpr (by simp only [List.mem_cons] at hz ⊢; tauto)
  -- the heap stores the merged window
  have hrep' : Rep s' (node p (S1 ++ S2) (L ++ node x (gl ++ e :: gr) (kl ++ kr) :: R)) (linkTo fs) := by
    have hlinkL : ∀ j (hj : j < L.length), (s.nodes L[j].id).parent = some p := fun j hj =>
      (ReclaimNode.link_eq_some.mp ((repKids_iff p _ L).mp hL j hj).link).1
    have hlinkR : ∀ j (hj : j < R.length), (s.nodes R[j].id).parent = some p := fun j hj =>
      (ReclaimNode.link_eq_some.mp ((repKids_iff p _ R).mp hR j hj).link).1
    refine rep_node.mpr ⟨by simpa using hP', (repKids_append p 0 L _).mpr ⟨?_, ?_⟩⟩
    · refine repKids_relink hL (fun j hj => ?_) fun k hk z hz => hkeep z (by simp [mem_idsList_flatMap hk hz])
      rw [← ReclaimNode.relink_eq (hlinkL j hj), Nat.zero_add]
      have := hcl' j (by simpa using hj)
      simp only [List.getElem_map] at this
      rw [this]
    · rw [RepKids, Nat.zero_add]
      refine ⟨rep_node.mpr ⟨by simpa using hX', (repKids_append x 0 kl kr).mpr ⟨?_, ?_⟩⟩, ?_⟩
      · exact (repKids_congr x 0 kl fun z hz => hkeep z (by simp [hz])).mpr hkl
      · refine repKids_relink hkr (fun j hj => ?_) fun k hk z hz => hkeep z (by simp [mem_idsList_flatMap hk hz])
        have hkl : kl.length = gl.length + 1 := by
          rcases hks with ⟨-, rfl⟩ | ⟨h1, -⟩
          · simp at hj
          · exact h1
        have := hkr' j (by simpa using hj)
        simp only [List.getElem_map] at this
        rw [this, Nat.zero_add, hkl]
      · refine repKids_relink hR (fun j hj => ?_) fun k hk z hz => hkeep z (by simp [mem_idsList_flatMap hk hz])
        rw [← ReclaimNode.relink_eq (hlinkR j hj)]
        have := hcr' j (by simpa using hj)
        simp only [List.getElem_map] at this
        rw [this, Nat.add_assoc]
  -- the traversal
  have hfix : ∀ c ∈ idsList (L ++ R ++ kl ++ kr), c ≠ x ∧ c ≠ p ∧ c ≠ y := fun c hc =>
    ⟨fun h => hx_notin (List.mem_cons_of_mem _ (h ▸ hc)),
      fun h => hp_notin (List.mem_cons_of_mem _ (List.mem_cons_of_mem _ (h ▸ hc))), fun h => hy_notin (h ▸ hc)⟩
  have hwalk := @walk_mergeChild V p x y S1 S2 gl gr e L R kl kr hS1 hks hfix (fun h => hp_notin (by simp [h]))
    (fun h => hp_notin (by simp [h])) (fun h => hx_notin (by simp [h]))
  have hca : ∀ c ∈ ctxIds fs, c ≠ y ∧ c ≠ p := fun c hc =>
    ⟨fun h => hctxu.2.2 hc (hperm.mem_iff.mpr (by simp [h])), fun h => hctxu.2.2 hc (by simp [ids, h])⟩
  refine ⟨s', hmerge, hf', h.replace rfl hctx hrep' (fun n hn' => hasHeight_merge hn')
    ((List.nodup_cons.mpr ⟨by simp only [List.mem_cons] at hp_notin ⊢; tauto,
      List.nodup_cons.mpr ⟨fun h => hx_notin (List.mem_cons_of_mem _ h), hrest⟩⟩).perm hperm'.symm)
    (fun z hz => .inl (hsub z (hperm'.mem_iff.mp hz)))
    (fun z hz => hf' ▸ h.fresh z ((ids_plug_perm fs _).mem_iff.mpr (List.mem_append_right _ (hsub z (hperm'.mem_iff.mp hz)))))
    hf'.ge, (walk_plug_relabel h.fits (fun c hc => fixes_join (hca c hc).1 (hca c hc).2) hwalk).symm, hwalk⟩

/-- The root `p` with one segment taking in its two children: the heap stores the tree one
level lower, and its traversal is the one before with the places of the children and of the
separator renamed. -/
theorem Around.collapseRoot (gap : ReclaimGapIterator) {p x y : Nat} {gl gr : List (FileRange × V)}
    {e : FileRange × V} {kl kr : List (Tree V)} (h : Around s [] (node p [e] [node x gl kl, node y gr kr]))
    (hfill : ∀ k ∈ kl ++ kr, Filled k) (hgl : 0 < gl.length) (hroom : gl.length + gr.length + 1 ≤ maxDegree - 1) :
    ∃ s', s.collapseRoot p gap = some (s', if gap.node = some x then ⟨some p, gap.index⟩
        else if gap.node = some y then ⟨some p, gap.index + gl.length + 1⟩ else gap) ∧
      s'.fresh = s.fresh ∧ Shape s' (node p (gl ++ e :: gr) (kl ++ kr)) ∧
      walk (node p (gl ++ e :: gr) (kl ++ kr)) =
        (walk (node p [e] [node x gl kl, node y gr kr])).map
          (Pos.relabel (collapseGap p x gl.length y) (collapseSeg p x gl.length y)) := by
  -- the parts of the heap the collapse reads
  obtain ⟨hP, hXr, hYr⟩ : (s.nodes p).Holds [e] [x, y] none ∧ Rep s (node x gl kl) (some (p, 0)) ∧
      Rep s (node y gr kr) (some (p, 1)) := by
    obtain ⟨hP, hk⟩ := rep_node.mp h.rep
    exact ⟨hP, hk.1, hk.2.1⟩
  obtain ⟨hXh, hkl⟩ := rep_node.mp hXr
  obtain ⟨hYh, hkr⟩ := rep_node.mp hYr
  obtain ⟨n, hn, hnf⟩ := h.height
  obtain ⟨m, rfl⟩ : ∃ m, n = m + 1 := ⟨n - 1, by cases n <;> simp_all [HasHeight]⟩
  have hX := (hasHeight_succ.mp hn).2 (node x gl kl) (by simp)
  have hY := (hasHeight_succ.mp hn).2 (node y gr kr) (by simp)
  have hks := kids_shape_of_height hX hY
  simp only [kids_node, segs_node] at hks
  -- the addresses: `x` and `y` go, the grandchildren are relinked, the rest is kept
  have hold : (ids (node p [e] [node x gl kl, node y gr kr])).Perm
      (x :: y :: ids (node p (gl ++ e :: gr) (kl ++ kr))) := List.perm_iff_count.mpr fun z => by
    simp only [ids, idsList, idsList_append, List.count_cons, List.count_append, List.count_nil]; omega
  have hnew : (ids (node p (gl ++ e :: gr) (kl ++ kr))).Perm
      ((p :: (kl.map Tree.id ++ kr.map Tree.id)) ++ idsList ((kl ++ kr).flatMap Tree.kids)) := by
    simpa only [ids, List.map_append] using (idsList_perm_roots (kl ++ kr)).cons p
  have hnd := hold.nodup_iff.mp h.nodup
  obtain ⟨hx_notin, hy_nd⟩ := List.nodup_cons.mp hnd
  obtain ⟨hy_notin, hnd'⟩ := List.nodup_cons.mp hy_nd
  obtain ⟨hD, -, hDE⟩ := List.nodup_append.mp (hnew.nodup_iff.mp hnd')
  obtain ⟨s', hcoll, hf', hP', hkk', hout'⟩ := ReclaimSet.collapseRoot_spec gap hP hXh hYh (by simpa using hks) hgl
    hroom hD
  have hroot : ∀ j (hj : j < (kl ++ kr).length),
      s'.nodes (kl ++ kr)[j].id = { s.nodes (kl ++ kr)[j].id with parent := some p, parentIndex := j } := fun j hj => by
    have := hkk' j (by simpa using hj)
    simp only [← List.map_append, List.getElem_map] at this
    exact this
  have hsrc : ∀ j (hj : j < (kl ++ kr).length), ∃ up, Rep s (kl ++ kr)[j] up := fun j hj => by
    rcases lt_or_le j kl.length with hj' | hj'
    · exact ⟨_, by rw [List.getElem_append_left hj']; exact (repKids_iff x 0 kl).mp hkl j hj'⟩
    · exact ⟨_, by rw [List.getElem_append_right hj']; exact (repKids_iff y 0 kr).mp hkr _ (by simp at hj; omega)⟩
  have hrep' : Rep s' (node p (gl ++ e :: gr) (kl ++ kr)) none := by
    refine rep_node.mpr ⟨by simpa using hP', (repKids_iff p 0 _).mpr fun j hj => ?_⟩
    obtain ⟨up, hup⟩ := hsrc j hj
    rw [Nat.zero_add]
    exact hup.relink (hroot j hj) fun z hz =>
      hout' z fun hzD => hDE hzD (mem_idsList_flatMap (List.getElem_mem hj) hz)
  -- the traversal
  have hfix : ∀ c ∈ idsList (kl ++ kr), c ≠ p ∧ c ≠ x ∧ c ≠ y := by
    have hp_notin := (List.nodup_cons.mp hnd').1
    exact fun c hc => ⟨fun h => hp_notin (h ▸ hc),
      fun h => hx_notin (h ▸ List.mem_cons_of_mem _ (List.mem_cons_of_mem _ hc)),
      fun h => hy_notin (h ▸ List.mem_cons_of_mem _ hc)⟩
  refine ⟨s', hcoll, hf', ⟨hrep', h.root, ⟨m, hasHeight_join hX hY, by omega⟩, by simp; omega, by simp, hfill,
    hnd', fun b hb => hf' ▸ h.fresh b (hold.mem_iff.mpr
      (List.mem_cons_of_mem _ (List.mem_cons_of_mem _ hb)))⟩, ?_⟩
  refine (walk_collapse hks hfix (fun h => hx_notin ?_) (fun h => hy_notin ?_) (fun h => hx_notin ?_)).symm <;>
    simp [ids, h]

end Merge

end Tree

end Gvisor.Segment
