import Gvisor.Segment.Split

/-!
# Insertion without merging

`InsertWithoutMergingUnchecked` first runs `rebalanceBeforeInsert` from the leaf that holds the
gap, then shifts the leaf's segments to make room. `rebalanceBeforeInsert_spec` follows the
recursion up the path: each full node is split (`rebalanced_splitNonRoot`,
`rebalanced_splitRoot`), and what the run leaves is a `Rebalanced` tree: the same segments,
and the gap, under the name the code gives it, in a node with room.
`insertWithoutMergingUnchecked_spec` then inserts the segment at the gap's position of `seq`.

Scope. The fuel of `rebalanceBeforeInsert` is the heap's `fresh`, which exceeds the tree's
height, so it never runs out.
-/

set_option autoImplicit false

namespace Gvisor.Segment

variable {V : Type}

namespace ReclaimSet

variable [Inhabited V] (fns : SetFunctions V)

theorem rebalanceBeforeInsert_of_room {fuel a : Nat} {s : ReclaimSet V} {gap : ReclaimGapIterator}
    (h : (s.nodes a).nrSegments < maxDegree - 1) : rebalanceBeforeInsert fns (fuel + 1) s a gap = some (s, gap) := by
  simp [rebalanceBeforeInsert, h]

theorem rebalanceBeforeInsert_of_root {fuel a : Nat} {s : ReclaimSet V} {gap : ReclaimGapIterator}
    (h : ¬(s.nodes a).nrSegments < maxDegree - 1) (hp : (s.nodes a).parent = none) :
    rebalanceBeforeInsert fns (fuel + 1) s a gap = s.splitRoot fns a gap := by
  simp [rebalanceBeforeInsert, h, hp]

theorem rebalanceBeforeInsert_of_child {fuel a p p' : Nat} {s s1 : ReclaimSet V} {gap gap1 : ReclaimGapIterator}
    (h : ¬(s.nodes a).nrSegments < maxDegree - 1) (hp : (s.nodes a).parent = some p)
    (hrec : rebalanceBeforeInsert fns fuel s p gap = some (s1, gap1)) (hp' : (s1.nodes a).parent = some p') :
    rebalanceBeforeInsert fns (fuel + 1) s a gap = s1.splitNonRoot fns a p' gap1 := by
  simp [rebalanceBeforeInsert, h, hp, hrec, hp']

end ReclaimSet

namespace ReclaimNode

/-- A leaf after the insertion of `x` at index `i`. -/
theorem Holds.insertLeaf {n : ReclaimNode V} {g : List (FileRange × V)} {up : Option (Nat × Nat)}
    (h : n.Holds g [] up) {i : Nat} (hi : i ≤ g.length) (hroom : g.length < maxDegree - 1) (x : FileRange × V) :
    ({ n with
        keys := Function.update (copySlice n.keys (i + 1) (maxDegree - 1) n.keys i n.nrSegments) i x.1
        values := Function.update (copySlice n.values (i + 1) (maxDegree - 1) n.values i n.nrSegments) i x.2
        nrSegments := n.nrSegments + 1 } : ReclaimNode V).Holds (g.take i ++ x :: g.drop i) [] up := by
  have hnr := h.nrSegments
  refine ⟨by simp [hnr]; omega, ?_, ?_, h.hasChildren, h.children, h.link⟩
  · have := agree_insert h.keys (by simpa using hi : i ≤ _) (by simpa using hroom : _ < maxDegree - 1) x.1
    simpa [hnr, List.map_take, List.map_drop] using this
  · have := agree_insert h.values (by simpa using hi : i ≤ _) (by simpa using hroom : _ < maxDegree - 1) x.2
    simpa [hnr, List.map_take, List.map_drop] using this

end ReclaimNode

namespace Tree

variable {s s' : ReclaimSet V}

/-- The gap before segment `j` of `t` is a gap of the subtree `u`. -/
def GapIn (t : Tree V) (j : Nat) (u : Tree V) : Prop := ∃ l i, gapAt t j = ⟨some l, i⟩ ∧ .gap l i ∈ walk u

theorem gapAt_relabel {σ τ : Nat × Nat → Nat × Nat} {t t' : Tree V} (h : walk t' = (walk t).map (Pos.relabel σ τ))
    {j l i : Nat} (hg : gapAt t j = ⟨some l, i⟩) : gapAt t' j = ⟨some (σ (l, i)).1, (σ (l, i)).2⟩ := by
  have hj : (gapIters t)[j]? = some (l, i) := by
    cases hx : (gapIters t)[j]? with
    | none => simp [gapAt, hx] at hg
    | some x => simp only [gapAt, hx, ReclaimGapIterator.mk.injEq, Option.some.injEq] at hg; rw [← hg.1, ← hg.2]
  exact gapAt_of_getElem? (by rw [(iters_of_relabel h).2.1, List.getElem?_map, hj]; rfl)

/-- The new name a split gives the gap iterator, as `splitNonRoot` computes it. -/
theorem retarget_nonRoot (a f l i : Nat) :
    (if (⟨some l, i⟩ : ReclaimGapIterator).node ≠ some a then ⟨some l, i⟩
      else if (⟨some l, i⟩ : ReclaimGapIterator).index < minDegree then ⟨some l, i⟩
      else ⟨some f, (⟨some l, i⟩ : ReclaimGapIterator).index - minDegree⟩ : ReclaimGapIterator) =
      ⟨some (splitGap a (minDegree - 1) a f (l, i)).1, (splitGap a (minDegree - 1) a f (l, i)).2⟩ := by
  by_cases h : l = a
  · subst h
    by_cases hi : i < minDegree
    · simp [splitGap, hi, show i ≤ minDegree - 1 by simp [minDegree] at hi ⊢; omega]
    · have h1 : ¬i < 10 := hi
      simp [splitGap, minDegree, h1, show ¬i ≤ 9 by omega]
  · simp [splitGap, h]

/-- The new name a split gives the gap iterator, as `splitRoot` computes it. -/
theorem retarget_root (a f g l i : Nat) :
    (if (⟨some l, i⟩ : ReclaimGapIterator).node ≠ some a then ⟨some l, i⟩
      else if (⟨some l, i⟩ : ReclaimGapIterator).index < minDegree then ⟨some f, (⟨some l, i⟩ : ReclaimGapIterator).index⟩
      else ⟨some g, (⟨some l, i⟩ : ReclaimGapIterator).index - minDegree⟩ : ReclaimGapIterator) =
      ⟨some (splitGap a (minDegree - 1) f g (l, i)).1, (splitGap a (minDegree - 1) f g (l, i)).2⟩ := by
  by_cases h : l = a
  · subst h
    by_cases hi : i < minDegree
    · simp [splitGap, hi, show i ≤ minDegree - 1 by simp [minDegree] at hi ⊢; omega]
    · have h1 : ¬i < 10 := hi
      simp [splitGap, minDegree, h1, show ¬i ≤ 9 by omega]
  · simp [splitGap, h]

theorem mem_left_of_ids {ks1 ks2 : List (Tree V)} (hnd : (idsList (ks1 ++ ks2)).Nodup) {c : Tree V}
    (hc : c ∈ ks1 ++ ks2) {x : Nat} (hx : x ∈ ids c) (h1 : x ∈ idsList ks1) : c ∈ ks1 := by
  rw [idsList_append] at hnd
  rcases List.mem_append.mp hc with hc | hc
  · exact hc
  · exact absurd (mem_idsList.mpr ⟨c, hc, hx⟩) ((List.nodup_append.mp hnd).2.2 h1)

theorem mem_right_of_ids {ks1 ks2 : List (Tree V)} (hnd : (idsList (ks1 ++ ks2)).Nodup) {c : Tree V}
    (hc : c ∈ ks1 ++ ks2) {x : Nat} (hx : x ∈ ids c) (h2 : x ∈ idsList ks2) : c ∈ ks2 := by
  rw [idsList_append] at hnd
  rcases List.mem_append.mp hc with hc | hc
  · exact absurd h2 ((List.nodup_append.mp hnd).2.2 (mem_idsList.mpr ⟨c, hc, hx⟩))
  · exact hc

/-- Where a split of node `a` into `x` and `y` puts a gap of `a`'s subtree: in one of the two
halves; and when `a` is internal, the gap keeps its name and stays in the same child. -/
theorem gap_side_of_split {a m x y q k l i : Nat} {g g1 g2 : List (FileRange × V)} {e : FileRange × V}
    {ks1 ks2 : List (Tree V)} {τ : Nat × Nat → Nat × Nat}
    (hw : (walk (node a g (ks1 ++ ks2))).map (Pos.relabel (splitGap a m x y) τ) =
      walk (node x g1 ks1) ++ .seg q k e :: walk (node y g2 ks2))
    (hnd : (ids (node a g (ks1 ++ ks2))).Nodup) (hxy : ∀ c ∈ ks1 ++ ks2, x ∉ ids c ∧ y ∉ ids c)
    (hin : .gap l i ∈ walk (node a g (ks1 ++ ks2))) :
    ∃ u' ∈ [node x g1 ks1, node y g2 ks2],
      .gap (splitGap a m x y (l, i)).1 (splitGap a m x y (l, i)).2 ∈ walk u' ∧
      (ks1 ++ ks2 ≠ [] → splitGap a m x y (l, i) = (l, i) ∧ ∀ c ∈ ks1 ++ ks2, .gap l i ∈ walk c → c ∈ u'.kids) := by
  have hmem := List.mem_map_of_mem (Pos.relabel (splitGap a m x y) τ) hin
  rw [hw] at hmem
  have hnd' : (idsList (ks1 ++ ks2)).Nodup := (List.nodup_cons.mp hnd).2
  -- below an internal node, the gap lies in a child and keeps its name
  have hkid : ks1 ++ ks2 ≠ [] → splitGap a m x y (l, i) = (l, i) := fun hne => by
    obtain ⟨k, ks, hks⟩ := List.exists_cons_of_ne_nil hne
    rw [hks] at hin
    rcases mem_walk_node hin with ⟨c, hc, hgc⟩ | ⟨_, _, _, h'⟩
    · have hl : l ∈ ids c := node_mem_ids c hgc
      have hla : l ≠ a := fun h => (List.nodup_cons.mp hnd).1 (mem_idsList.mpr ⟨c, hks ▸ hc, h ▸ hl⟩)
      simp [splitGap, hla]
    · cases h'
  simp only [Pos.relabel_gap, List.mem_append, List.mem_cons] at hmem
  rcases hmem with h1 | h | h2
  · refine ⟨_, List.mem_cons_self _ _, h1, fun hne => ⟨hkid hne, fun c hc hgc => ?_⟩⟩
    rw [hkid hne] at h1
    rcases List.mem_cons.mp (node_mem_ids _ h1) with hl | hl
    · exact absurd (hl ▸ node_mem_ids c hgc) (hxy c hc).1
    · exact mem_left_of_ids hnd' hc (node_mem_ids c hgc) hl
  · cases h
  · refine ⟨_, List.mem_cons_of_mem _ (List.mem_cons_self _ _), h2, fun hne => ⟨hkid hne, fun c hc hgc => ?_⟩⟩
    rw [hkid hne] at h2
    rcases List.mem_cons.mp (node_mem_ids _ h2) with hl | hl
    · exact absurd (hl ▸ node_mem_ids c hgc) (hxy c hc).2
    · exact mem_right_of_ids hnd' hc (node_mem_ids c hgc) hl

theorem exists_middle {α : Type} {g : List α} (h : g.length = maxDegree - 1) :
    ∃ g1 e g2, g = g1 ++ e :: g2 ∧ g1.length = minDegree - 1 ∧ g2.length = minDegree - 1 := by
  have hlt : minDegree - 1 < g.length := by simp [h, maxDegree, minDegree]
  refine ⟨g.take (minDegree - 1), g[minDegree - 1], g.drop minDegree, ?_, by simp [h, maxDegree, minDegree], ?_⟩
  · have := List.drop_eq_getElem_cons hlt
    rw [show minDegree - 1 + 1 = minDegree by decide] at this
    rw [← this, List.take_append_drop]
  · simp [h, maxDegree, minDegree]

/-- Splitting the parent of `L ++ [A1, A2] ++ R`: a path ends at either half. -/
theorem plug_pair {fs : List (Frame V)} (hfit : ctxFits fs) {p : Nat} {segs : List (FileRange × V)}
    {L R : List (Tree V)} {A1 A2 u' : Tree V} (hL : L.length + 1 ≤ segs.length) (hu' : u' ∈ [A1, A2]) :
    ∃ fs', plug fs' u' = plug fs (node p segs (L ++ A1 :: A2 :: R)) ∧ ctxFits fs' := by
  have hfit' : ∀ f : Frame V, f.left.length ≤ f.segs.length → ctxFits (f :: fs) := fun f hf g hg => by
    rcases List.mem_cons.mp hg with rfl | hg
    · exact hf
    · exact hfit g hg
  rcases List.mem_cons.mp hu' with rfl | hu'
  · exact ⟨⟨p, segs, L, A2 :: R⟩ :: fs, rfl, hfit' _ (by simp only; omega)⟩
  · obtain rfl : u' = A2 := by simpa using hu'
    exact ⟨⟨p, segs, L ++ [A1], R⟩ :: fs, by simp [Frame.fill], hfit' _ (by simp; omega)⟩

/-- What `rebalanceBeforeInsert` leaves, for the subtree `u` of `t` it starts at: the heap
stores a tree with the same segments, whose subtree `u'` at the end of `fs'` has room and holds
the gap before segment `j`; a leaf stays a leaf, and below an internal node the gap keeps its
name and its child. -/
structure Rebalanced (s' : ReclaimSet V) (t : Tree V) (j : Nat) (u : Tree V) (fs' : List (Frame V)) (u' : Tree V) :
    Prop where
  shape : Shape s' (plug fs' u')
  fits : ctxFits fs'
  seq_eq : seq (plug fs' u') = seq t
  room : u'.segs.length < maxDegree - 1
  gapIn : GapIn (plug fs' u') j u'
  leaf : u.kids = [] → u'.kids = []
  kids : u.kids ≠ [] → gapAt (plug fs' u') j = gapAt t j ∧ ∀ c ∈ u.kids, GapIn t j c → c ∈ u'.kids

theorem Rebalanced.of_room {fs : List (Frame V)} {u : Tree V} {j : Nat} (h : Shape s (plug fs u)) (hfit : ctxFits fs)
    (hroom : u.segs.length < maxDegree - 1) (hin : GapIn (plug fs u) j u) : Rebalanced s (plug fs u) j u fs u :=
  ⟨h, hfit, rfl, hroom, hin, fun h => h, fun _ => ⟨rfl, fun _ hc _ => hc⟩⟩

theorem Rebalanced.congr {t t1 : Tree V} {j : Nat} {u u' : Tree V} {fs' : List (Frame V)}
    (h : Rebalanced s' t1 j u fs' u') (hseq : Tree.seq t1 = Tree.seq t) (hgap : gapAt t1 j = gapAt t j) :
    Rebalanced s' t j u fs' u' :=
  ⟨h.shape, h.fits, h.seq_eq.trans hseq, h.room, h.gapIn, h.leaf, fun hk => ⟨(h.kids hk).1.trans hgap,
    fun c hc hin => (h.kids hk).2 c hc (by unfold GapIn; rwa [hgap])⟩⟩

theorem mem_ids_plug (fs : List (Frame V)) {u : Tree V} {x : Nat} (hx : x ∈ ids u) : x ∈ ids (plug fs u) :=
  (ids_plug_perm fs u).mem_iff.mpr (List.mem_append_right _ hx)

theorem nodup_ids_of_plug (fs : List (Frame V)) {u : Tree V} (h : (ids (plug fs u)).Nodup) : (ids u).Nodup :=
  (List.nodup_append.mp ((ids_plug_perm fs u).nodup_iff.mp h)).2.1

/-- What a split of node `a` into `x` and `y` leaves, as one step of `rebalanceBeforeInsert`,
when the stored tree after it is the one before with its places renamed. -/
theorem rebalanced_of_split {t : Tree V} {j : Nat} {fs : List (Frame V)} (hfit : ctxFits fs) {p : Nat}
    {segs : List (FileRange × V)} {L R ks : List (Tree V)} {a x y q k l i : Nat} {g g1 g2 : List (FileRange × V)}
    {e : FileRange × V} {τ : Nat × Nat → Nat × Nat} (hg1 : g1.length = minDegree - 1) (hg2 : g2.length = minDegree - 1)
    (hL : L.length + 1 ≤ segs.length)
    (hsh : Shape s' (plug fs (node p segs
      (L ++ node x g1 (ks.take minDegree) :: node y g2 (ks.drop minDegree) :: R))))
    (hwalk : walk (plug fs (node p segs (L ++ node x g1 (ks.take minDegree) :: node y g2 (ks.drop minDegree) :: R))) =
      (walk t).map (Pos.relabel (splitGap a (minDegree - 1) x y) τ))
    (hnode : (walk (node a g ks)).map (Pos.relabel (splitGap a (minDegree - 1) x y) τ) =
      walk (node x g1 (ks.take minDegree)) ++ .seg q k e :: walk (node y g2 (ks.drop minDegree)))
    (hnd : (ids (node a g ks)).Nodup) (hxy : ∀ c ∈ ks, x ∉ ids c ∧ y ∉ ids c)
    (hgl : gapAt t j = ⟨some l, i⟩) (hgw : .gap l i ∈ walk (node a g ks)) :
    ∃ fs' u', gapAt (plug fs' u') j =
        ⟨some (splitGap a (minDegree - 1) x y (l, i)).1, (splitGap a (minDegree - 1) x y (l, i)).2⟩ ∧
      Rebalanced s' t j (node a g ks) fs' u' := by
  set ks1 := ks.take minDegree
  set ks2 := ks.drop minDegree
  have hks : ks = ks1 ++ ks2 := (List.take_append_drop _ _).symm
  rw [hks] at hnd hgw hnode hxy
  obtain ⟨u', hu', hmem, hkids⟩ := gap_side_of_split hnode hnd hxy hgw
  obtain ⟨fs', hplug, hfit'⟩ := plug_pair (R := R) hfit hL hu'
  have hgap' := gapAt_relabel hwalk hgl
  rw [← hplug] at hsh hgap' hwalk
  refine ⟨fs', u', hgap', hsh, hfit', (iters_of_relabel hwalk).1, ?_, ⟨_, _, hgap', hmem⟩, fun hk => ?_, fun hk => ?_⟩
  · rcases List.mem_cons.mp hu' with rfl | hu'
    · simp [hg1, maxDegree, minDegree]
    · obtain rfl : u' = _ := by simpa using hu'
      simp [hg2, maxDegree, minDegree]
  · rw [kids_node, hks] at hk
    obtain ⟨h1, h2⟩ := List.append_eq_nil.mp hk
    rcases List.mem_cons.mp hu' with rfl | hu'
    · exact h1
    · obtain rfl : u' = _ := by simpa using hu'
      exact h2
  · obtain ⟨hσ, hc⟩ := hkids (by rw [← hks]; exact hk)
    refine ⟨by rw [hgap', hσ, hgl], fun c hcm ⟨l', i', hgl', hgc⟩ => hc c (by rw [← hks]; exact hcm) ?_⟩
    rw [hgl] at hgl'
    simp only [ReclaimGapIterator.mk.injEq, Option.some.injEq] at hgl'
    rwa [hgl'.1, hgl'.2]

section Steps

variable [Inhabited V] (fns : SetFunctions V)

/-- The split of a full child `u` of a node with room, as one step of `rebalanceBeforeInsert`. -/
theorem rebalanced_splitNonRoot {fs : List (Frame V)} {p : Nat} {segs : List (FileRange × V)} {L R : List (Tree V)}
    {u : Tree V} {j : Nat} (h : Shape s (plug fs (node p segs (L ++ u :: R)))) (hfit : ctxFits fs)
    (hroom : segs.length < maxDegree - 1) (hfull : u.segs.length = maxDegree - 1)
    (hin : GapIn (plug fs (node p segs (L ++ u :: R))) j u) :
    ∃ s' fs' u', s.splitNonRoot fns u.id p (gapAt (plug fs (node p segs (L ++ u :: R))) j) =
        some (s', gapAt (plug fs' u') j) ∧ Rebalanced s' (plug fs (node p segs (L ++ u :: R))) j u fs' u' := by
  obtain ⟨a, g, ks⟩ := u
  obtain ⟨l, i, hgl, hgw⟩ := hin
  obtain ⟨g1, e, g2, rfl, hg1, hg2⟩ := exists_middle hfull
  obtain ⟨s', hsplit, -, hsh, hwalk, hnode⟩ := h.splitNonRoot fns (gapAt _ j) hfit hg1 hg2 hroom
  rw [hgl, retarget_nonRoot] at hsplit
  have hulen : L.length ≤ segs.length := by
    obtain ⟨n, hn, -⟩ := h.height
    obtain ⟨m, hm, -⟩ := hasHeight_of_plug fs hn
    cases m with
    | zero => simp [HasHeight] at hm
    | succ m => have := (hasHeight_succ.mp hm).1; simp at this; omega
  have hndu : (ids (node a (g1 ++ e :: g2) ks)).Nodup := nodup_ids_of_plug (⟨p, segs, L, R⟩ :: fs) h.nodup
  have hxy : ∀ c ∈ ks, a ∉ ids c ∧ s.fresh ∉ ids c := fun c hc =>
    ⟨fun ha => (List.nodup_cons.mp hndu).1 (mem_idsList.mpr ⟨c, hc, ha⟩), fun hf => lt_irrefl s.fresh
      (h.fresh _ (mem_ids_plug (⟨p, segs, L, R⟩ :: fs) (List.mem_cons_of_mem _ (mem_idsList.mpr ⟨c, hc, hf⟩))))⟩
  obtain ⟨fs', u', hgap', hR⟩ := rebalanced_of_split hfit hg1 hg2 (by simp; omega) hsh hwalk hnode hndu hxy hgl hgw
  exact ⟨s', fs', u', by rw [hgl, hgap']; exact hsplit, hR⟩

/-- The split of the full root, as the last step of `rebalanceBeforeInsert`. -/
theorem rebalanced_splitRoot {u : Tree V} {j : Nat} (h : Shape s u) (hfull : u.segs.length = maxDegree - 1)
    (hin : GapIn u j u) :
    ∃ s' fs' u', s.splitRoot fns u.id (gapAt u j) = some (s', gapAt (plug fs' u') j) ∧ Rebalanced s' u j u fs' u' := by
  obtain ⟨a, g, ks⟩ := u
  obtain ⟨l, i, hgl, hgw⟩ := hin
  obtain ⟨g1, e, g2, rfl, hg1, hg2⟩ := exists_middle hfull
  obtain ⟨s', hsplit, -, hsh, hwalk⟩ := h.splitRoot fns (gapAt _ j) hg1 hg2
  rw [hgl, retarget_root] at hsplit
  have hnode : (walk (node a (g1 ++ e :: g2) ks)).map
      (Pos.relabel (splitGap a (minDegree - 1) s.fresh (s.fresh + 1))
        (splitSeg a (minDegree - 1) s.fresh (s.fresh + 1) a 0)) =
      walk (node s.fresh g1 (ks.take minDegree)) ++ .seg a 0 e :: walk (node (s.fresh + 1) g2 (ks.drop minDegree)) := by
    rw [← hwalk]
    simp [walk, weave]
  have hxy : ∀ c ∈ ks, s.fresh ∉ ids c ∧ s.fresh + 1 ∉ ids c := fun c hc => by
    have hlt : ∀ x ∈ ids c, x < s.fresh := fun x hx => h.fresh x (List.mem_cons_of_mem _ (mem_idsList.mpr ⟨c, hc, hx⟩))
    exact ⟨fun hf => lt_irrefl _ (hlt _ hf), fun hf => by have := hlt _ hf; omega⟩
  obtain ⟨fs', u', hgap', hR⟩ := rebalanced_of_split (p := a) (L := []) (R := [])
    (show ctxFits ([] : List (Frame V)) from fun _ h => by cases h)
    hg1 hg2 (by simp) hsh hwalk hnode h.nodup hxy hgl hgw
  exact ⟨s', fs', u', by rw [hgl, hgap']; exact hsplit, hR⟩

/-- `rebalanceBeforeInsert` from the node `u` at the end of the path `fs`, which holds the gap
before segment `j`: with fuel above the path's length it splits the full nodes on the way up
and returns that gap under its new name, in a node with room. -/
theorem rebalanceBeforeInsert_spec : ∀ (fs : List (Frame V)) (fuel : Nat) (s : ReclaimSet V) (u : Tree V) (j : Nat),
    Shape s (plug fs u) → ctxFits fs → fs.length < fuel → GapIn (plug fs u) j u →
    ∃ s' fs' u', s.rebalanceBeforeInsert fns fuel u.id (gapAt (plug fs u) j) = some (s', gapAt (plug fs' u') j) ∧
      Rebalanced s' (plug fs u) j u fs' u'
  | _, 0, _, _, _, _, _, hlen, _ => absurd hlen (Nat.not_lt_zero _)
  | fs, fuel + 1, s, u, j, h, hfit, hlen, hin => by
    have hu := ((rep_plug fs u).mp h.rep).2
    by_cases hroom : u.segs.length < maxDegree - 1
    · exact ⟨s, fs, u, ReclaimSet.rebalanceBeforeInsert_of_room fns (by rw [hu.nrSegments]; exact hroom),
        Rebalanced.of_room h hfit hroom hin⟩
    have hfull : u.segs.length = maxDegree - 1 := by have := (h.short hfit).size; omega
    have hnr : ¬(s.nodes u.id).nrSegments < maxDegree - 1 := by rw [hu.nrSegments]; exact hroom
    cases fs with
    | nil =>
      rw [ReclaimSet.rebalanceBeforeInsert_of_root fns hnr (ReclaimNode.link_eq_none.mp hu.link)]
      exact rebalanced_splitRoot fns h hfull hin
    | cons f fs =>
      have hin0 : GapIn (plug fs (f.fill u)) j (f.fill u) := by
        obtain ⟨l, i, hgl, hgw⟩ := hin
        exact ⟨l, i, hgl, by rw [Frame.walk_fill f u (hfit f (List.mem_cons_self _ _))]; simp [hgw]⟩
      obtain ⟨s1, fs1, up, hrec, hR1⟩ := rebalanceBeforeInsert_spec fs fuel s (f.fill u) j h
        (fun g hg => hfit g (List.mem_cons_of_mem _ hg)) (by simpa using hlen) hin0
      obtain ⟨hgap1, hkid1⟩ := hR1.kids (by simp [Frame.fill])
      obtain ⟨p', segs', kids'⟩ := up
      obtain ⟨L, R, rfl⟩ := List.append_of_mem (hkid1 u (by simp [Frame.fill]) hin)
      have hu1 := ((rep_plug (⟨p', segs', L, R⟩ :: fs1) u).mp hR1.shape.rep).2
      rw [plug_cons, ReclaimSet.rebalanceBeforeInsert_of_child fns hnr (ReclaimNode.link_eq_some.mp hu.link).1 hrec
        (ReclaimNode.link_eq_some.mp hu1.link).1]
      obtain ⟨s2, fs2, u2, hsplit, hR2⟩ := rebalanced_splitNonRoot fns hR1.shape hR1.fits hR1.room hfull
        (by unfold GapIn; rw [hgap1]; exact hin)
      exact ⟨s2, fs2, u2, hsplit, hR2.congr hR1.seq_eq hgap1⟩

end Steps

/-! ### Inserting into the leaf -/

theorem gap_mem_leafWalk (a : Nat) : ∀ (d i : Nat) (g : List (FileRange × V)), i ≤ g.length →
    Pos.gap a (d + i) ∈ leafWalk a d g
  | d, 0, g, _ => by cases g <;> simp [leafWalk]
  | d, i + 1, x :: g, h => by
    have := gap_mem_leafWalk a (d + 1) i g (by simpa using h)
    simp only [leafWalk, List.mem_cons]
    exact .inr (.inr (by rw [show d + (i + 1) = d + 1 + i by omega]; exact this))
  | _, _ + 1, [], h => by simp at h

/-- The leaf insertion keeps the shape of the tree. -/
theorem Shape.insertLeaf {fs : List (Frame V)} {x : Nat} {g : List (FileRange × V)} {i : Nat}
    (h : Shape s (plug fs (node x g []))) (hfit : ctxFits fs) (hi : i ≤ g.length) (hroom : g.length < maxDegree - 1)
    (r : FileRange) (v : V) :
    Shape (s.modify x fun m => { m with
        keys := Function.update (copySlice m.keys (i + 1) (maxDegree - 1) m.keys i m.nrSegments) i r
        values := Function.update (copySlice m.values (i + 1) (maxDegree - 1) m.values i m.nrSegments) i v
        nrSegments := m.nrSegments + 1 })
      (plug fs (node x (g.take i ++ (r, v) :: g.drop i) [])) := by
  have hs := h.short hfit
  have hu := ((rep_plug fs _).mp h.rep).2
  have hxc : x ∉ ctxIds fs := fun hx =>
    (List.nodup_append.mp ((ids_plug_perm fs _).nodup_iff.mp h.nodup)).2.2 hx (List.mem_cons_self _ _)
  have hlen : (g.take i ++ (r, v) :: g.drop i).length = g.length + 1 := by simp; omega
  generalize hs' : s.modify x _ = s'
  have hctx : ∀ y ∈ ctxIds fs, s'.nodes y = s.nodes y := fun y hy => by
    rw [← hs', ReclaimSet.modify_nodes, if_neg (show y ≠ x from fun h => hxc (h ▸ hy))]
  have hrep : Rep s' (node x (g.take i ++ (r, v) :: g.drop i) []) (linkTo fs) := by
    refine rep_node.mpr ⟨?_, trivial⟩
    rw [← hs', ReclaimSet.modify_nodes, if_pos rfl]
    exact (rep_node.mp hu).1.insertLeaf hi hroom (r, v)
  have hmin : fs ≠ [] → minDegree - 1 ≤ g.length + 1 := fun hne => by
    have := hs.short hne; simp at this; omega
  have hsh : Short s' fs (node x (g.take i ++ (r, v) :: g.drop i) []) :=
    hs.replace rfl hctx hrep (fun n hn => by cases n <;> simp_all [HasHeight]) (by simp)
      (by rw [segs_node, hlen]; omega) (fun hne => by rw [segs_node, hlen]; have := hmin hne; omega)
      (fun _ h => by simp at h) (by simp [ids, idsList]) (fun y hy => .inl hy)
      (fun y hy => by rw [← hs']; exact h.fresh y (mem_ids_plug fs hy)) (by rw [← hs']; rfl)
  exact hsh.shape fun hne => by rw [segs_node, hlen]; exact hmin hne

@[simp] theorem seq_leaf (a : Nat) (g : List (FileRange × V)) : seq (node a g []) = g := by
  simp [seq_eq_segsOf]

theorem insert_middle {α : Type} (B g A : List α) {i : Nat} (hi : i ≤ g.length) (x : α) :
    (B ++ g ++ A).take (B.length + i) ++ x :: (B ++ g ++ A).drop (B.length + i) =
      B ++ (g.take i ++ x :: g.drop i) ++ A := by
  simp [List.take_append_eq_append_take, List.drop_append_eq_append_drop, List.take_of_length_le, hi,
    List.drop_of_length_le]

/-- `InsertWithoutMergingUnchecked` at the gap before segment `j`: the new segment becomes
segment `j` of the set, and the iterator returned points to it. -/
theorem insertWithoutMergingUnchecked_spec [Inhabited V] (fns : SetFunctions V) {t : Tree V} {j : Nat}
    (h : Shape s t) (hj : j ≤ (seq t).length) (r : FileRange) (v : V) :
    ∃ s' t', s.insertWithoutMergingUnchecked fns (gapAt t j) r v = some (s', segAt t' j) ∧ Shape s' t' ∧
      seq t' = (seq t).take j ++ (r, v) :: (seq t).drop j := by
  obtain ⟨l, i, hgl, hgw⟩ := h.gapAt_mem hj
  obtain ⟨n, hn, -⟩ := h.height
  obtain ⟨fs, g, rfl, hfit, hi⟩ := exists_leaf_of_gap n t hn hgw
  have hin : GapIn (plug fs (node l g [])) j (node l g []) :=
    ⟨l, i, hgl, by simpa using gap_mem_leafWalk l 0 i g hi⟩
  obtain ⟨s1, fs1, u1, hrb, hR⟩ :=
    rebalanceBeforeInsert_spec fns fs s.fresh s (node l g []) j h hfit (length_lt_of_height h.height) hin
  obtain ⟨x, g1, ks1⟩ := u1
  obtain rfl : ks1 = [] := hR.leaf rfl
  obtain ⟨l1, i1, hgl1, hgw1⟩ := hR.gapIn
  obtain ⟨k, hi1, rfl, rfl⟩ : ∃ k ≤ g1.length, l1 = x ∧ i1 = k := by
    rcases mem_leafWalk (by simpa using hgw1) with ⟨k, hk, hk'⟩ | ⟨_, _, _, h'⟩
    · exact ⟨k, hk, by simpa using hk'⟩
    · cases h'
  have hlen1 : j ≤ (seq (plug fs1 (node l1 g1 []))).length := hR.seq_eq ▸ hj
  have hB : (segsOf (ctxBefore fs1)).length + i1 = j := by
    refine hR.shape.gapAt_inj ?_ hlen1 ((gapAt_plug_leaf hR.fits hi1 hR.shape.alternates).trans hgl1.symm)
    rw [seq_plug hR.fits, seq_leaf]
    simp only [List.length_append]
    omega
  refine ⟨_, plug fs1 (node l1 (g1.take i1 ++ (r, v) :: g1.drop i1) []), ?_,
    hR.shape.insertLeaf hR.fits hi1 hR.room r v, ?_⟩
  · rw [hgl, hgl1] at hrb
    rw [hgl, ← hB, segAt_plug_leaf hR.fits (by simp; omega)]
    simp only [id_node] at hrb
    simp [ReclaimSet.insertWithoutMergingUnchecked, hrb]
  · rw [seq_plug hR.fits, seq_leaf, ← hR.seq_eq, seq_plug hR.fits, seq_leaf, ← hB]
    exact (insert_middle _ _ _ hi1 _).symm

/-- Two insertions into the zero set, `[0, 8)` at its gap and then `[16, 24)` after it, give a
set of two segments that satisfies the invariant. -/
theorem exists_two_segments :
    ∃ (s : ReclaimSet Nat) (t : Tree Nat), Inv s t ∧ seq t = [(⟨0, 8⟩, 1), (⟨16, 24⟩, 2)] := by
  have h0 : seq (.node 0 [] [] : Tree Nat) = [] := rfl
  obtain ⟨s1, t1, -, hs1, hseq1⟩ := insertWithoutMergingUnchecked_spec ⟨0, 2 ^ 64 - 1, fun v => v,
    fun _ v _ _ => some v, fun _ v _ => (v, v)⟩ (Inv.empty (V := Nat)).shape (j := 0) (Nat.zero_le _) ⟨0, 8⟩ 1
  rw [h0] at hseq1
  obtain ⟨s2, t2, -, hs2, hseq2⟩ := insertWithoutMergingUnchecked_spec ⟨0, 2 ^ 64 - 1, fun v => v,
    fun _ v _ _ => some v, fun _ v _ => (v, v)⟩ hs1 (j := 1) (by simp [hseq1]) ⟨16, 24⟩ 2
  have hseq : seq t2 = [(⟨0, 8⟩, 1), (⟨16, 24⟩, 2)] := by simp [hseq2, hseq1]
  exact ⟨s2, t2, hs2.inv (by simp [hseq, Ordered]), hseq⟩

end Tree

end Gvisor.Segment
