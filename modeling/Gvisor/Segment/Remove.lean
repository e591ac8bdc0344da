import Gvisor.Segment.Borrow
import Gvisor.Segment.Insert
import Gvisor.Segment.Rebalance

/-!
# Removal

`rebalanceAfterRemove` repairs the node a removal left one segment short, walking up the path.
Each pass of its loop is one of the four repairs: `Short.borrowFromPrev_step`,
`Short.borrowFromNext_step` and `Short.collapseRoot_step` end the loop, and
`Short.mergeSiblings_step` leaves the parent one segment short. `rebalanceAfterRemove_spec`
follows the loop up the path, and what it returns is `Repaired`: a stored tree of the same
segments, and that tree's gap at the index of the gap it was given. `removeLeaf_spec` and
`remove_spec` then state `Remove` on `seq`: it erases the segment at index `j` and returns the
gap at `j`. `rebalance_keeps_gap` puts the two rebalancings side by side: from a gap of the
node they start at, each returns a stored tree of the same segments and the same gap.

Scope. The gap the loop carries lies in the subtree of the short node, as it does for every
call `Remove` makes; a gap in the previous sibling is moved to the wrong place by
`borrowFromPrev`, and that case is outside these results. The loop's fuel, `fresh`, exceeds
the tree's height.
-/

set_option autoImplicit false

namespace Gvisor.Segment

variable {V : Type}

namespace ReclaimSet

variable (fns : SetFunctions V) {s : ReclaimSet V} {fuel a p : Nat} {gap : ReclaimGapIterator}

theorem rebalanceAfterRemove_of_full (h : minDegree - 1 ≤ (s.nodes a).nrSegments) :
    s.rebalanceAfterRemove fns (fuel + 1) a gap = some (s, gap) := by
  simp [rebalanceAfterRemove, h]

theorem rebalanceAfterRemove_of_root (h : (s.nodes a).nrSegments < minDegree - 1) (hp : (s.nodes a).parent = none) :
    s.rebalanceAfterRemove fns (fuel + 1) a gap = some (s, gap) := by
  simp [rebalanceAfterRemove, Nat.not_le.mpr h, hp]

theorem rebalanceAfterRemove_of_prev {sib : Nat} (h : (s.nodes a).nrSegments < minDegree - 1)
    (hp : (s.nodes a).parent = some p) (hprev : s.prevSibling a = some sib) (hsib : minDegree ≤ (s.nodes sib).nrSegments) :
    s.rebalanceAfterRemove fns (fuel + 1) a gap = s.borrowFromPrev fns a sib p gap := by
  simp [rebalanceAfterRemove, Nat.not_le.mpr h, hp, hprev, Option.filter, hsib]

theorem rebalanceAfterRemove_of_next {sib : Nat} (h : (s.nodes a).nrSegments < minDegree - 1)
    (hp : (s.nodes a).parent = some p) (hprev : ∀ b, s.prevSibling a = some b → (s.nodes b).nrSegments < minDegree)
    (hnext : s.nextSibling a = some sib) (hsib : minDegree ≤ (s.nodes sib).nrSegments) :
    s.rebalanceAfterRemove fns (fuel + 1) a gap = s.borrowFromNext fns a sib p gap := by
  cases hb : s.prevSibling a with
  | none => simp [rebalanceAfterRemove, Nat.not_le.mpr h, hp, hb, hnext, Option.filter, hsib]
  | some b => simp [rebalanceAfterRemove, Nat.not_le.mpr h, hp, hb, hnext, Option.filter, hsib, Nat.not_le.mpr (hprev b hb)]

theorem rebalanceAfterRemove_of_parent (h : (s.nodes a).nrSegments < minDegree - 1)
    (hp : (s.nodes a).parent = some p) (hprev : ∀ b, s.prevSibling a = some b → (s.nodes b).nrSegments < minDegree)
    (hnext : ∀ b, s.nextSibling a = some b → (s.nodes b).nrSegments < minDegree) :
    s.rebalanceAfterRemove fns (fuel + 1) a gap = if (s.nodes p).nrSegments = 1 then s.collapseRoot p gap
      else (s.mergeSiblings fns a p gap).bind fun r => r.1.rebalanceAfterRemove fns fuel p r.2 := by
  have hf : ∀ o : Option Nat, (∀ b, o = some b → (s.nodes b).nrSegments < minDegree) →
      o.filter (fun b => (s.nodes b).nrSegments ≥ minDegree) = none := fun o ho => by
    cases o with
    | none => rfl
    | some b => simp [Option.filter, Nat.not_le.mpr (ho b rfl)]
  simp only [rebalanceAfterRemove, ge_iff_le, Nat.not_le.mpr h, ↓reduceIte, hp]
  rw [hf _ hprev, hf _ hnext]
  rfl

end ReclaimSet

namespace ReclaimNode

/-- A leaf after the removal of its segment `i`. -/
theorem Holds.eraseLeaf {n : ReclaimNode V} {g : List (FileRange × V)} {up : Option (Nat × Nat)}
    (h : n.Holds g [] up) {i : Nat} (hi : i < g.length) (hcap : g.length ≤ maxDegree - 1) (fns : SetFunctions V) :
    ({ n with
        keys := copySlice n.keys i (maxDegree - 1) n.keys (i + 1) n.nrSegments
        values := clearAt fns (copySlice n.values i (maxDegree - 1) n.values (i + 1) n.nrSegments) (n.nrSegments - 1)
        nrSegments := n.nrSegments - 1 } : ReclaimNode V).Holds (g.eraseIdx i) [] up := by
  have hnr := h.nrSegments
  have hlen : (g.eraseIdx i).length + 1 = g.length := by rw [List.length_eraseIdx, if_pos hi]; omega
  have hmap : ∀ {β : Type} (f : FileRange × V → β), (g.map f).take i ++ (g.map f).drop (i + 1) = (g.eraseIdx i).map f :=
    fun f => by rw [List.eraseIdx_eq_take_drop_succ, List.map_append, List.map_take, List.map_drop]
  refine ⟨show n.nrSegments - 1 = _ by omega, ?_, ?_, h.hasChildren, h.children, h.link⟩
  · have := agree_erase h.keys (i := i) (by simpa using hi) (by simpa using hcap)
    rwa [hmap, List.length_map, ← hnr] at this
  · have := agree_erase h.values (i := i) (by simpa using hi) (by simpa using hcap)
    rw [hmap, List.length_map, ← hnr] at this
    exact agree_clearAt this (by simp only [List.length_map]; omega)

end ReclaimNode

namespace Tree

variable {s s' : ReclaimSet V}

section Frame

variable {fs : List (Frame V)} {p : Nat} {S : List (FileRange × V)} {L R : List (Tree V)} {u : Tree V}

/-- What the heap holds of the frame above the node a repair starts from. -/
theorem Around.frame (h : Around s (⟨p, S, L, R⟩ :: fs) u) :
    (s.nodes p).Holds S (L.map Tree.id ++ u.id :: R.map Tree.id) (linkTo fs) ∧ RepKids s p 0 L ∧
      RepKids s p (L.length + 1) R ∧ Rep s u (some (p, L.length)) ∧ S.length = L.length + R.length := by
  obtain ⟨⟨hP, hL, hR, -⟩, hu⟩ := (rep_plug _ u).mp h.rep
  obtain ⟨n, hn, -⟩ := h.up.height
  obtain ⟨m, hm, -⟩ := hasHeight_of_plug fs hn
  obtain ⟨m, rfl⟩ : ∃ m', m = m' + 1 := ⟨m - 1, by cases m <;> simp_all [HasHeight, Frame.fill]⟩
  have hlen := (hasHeight_succ.mp hm).1
  simp only [List.length_append, List.length_cons] at hlen
  exact ⟨hP, hL, hR, hu, by omega⟩

theorem Around.parent (h : Around s (⟨p, S, L, R⟩ :: fs) u) : (s.nodes u.id).parent = some p :=
  (ReclaimNode.link_eq_some.mp h.frame.2.2.2.1.holds.link).1

/-- The previous sibling the code finds is the last node of the frame's left part. -/
theorem Around.prevSibling (h : Around s (⟨p, S, L, R⟩ :: fs) u) : s.prevSibling u.id = L.getLast?.map Tree.id := by
  obtain ⟨hP, -, -, hu, -⟩ := h.frame
  obtain ⟨hpar, hidx⟩ := ReclaimNode.link_eq_some.mp hu.holds.link
  rcases L.eq_nil_or_concat with rfl | ⟨L', l, rfl⟩
  · simp [ReclaimSet.prevSibling, hpar, hidx]
  · simp only [ReclaimSet.prevSibling, hpar, hidx, List.concat_eq_append, List.length_append, List.length_singleton,
      Nat.add_one_ne_zero, ↓reduceIte, Nat.add_sub_cancel]
    rw [hP.children]
    simp [List.getElem_append_right]

/-- The next sibling the code finds is the first node of the frame's right part. -/
theorem Around.nextSibling (h : Around s (⟨p, S, L, R⟩ :: fs) u) : s.nextSibling u.id = R.head?.map Tree.id := by
  obtain ⟨hP, -, -, hu, hS⟩ := h.frame
  obtain ⟨hpar, hidx⟩ := ReclaimNode.link_eq_some.mp hu.holds.link
  cases R with
  | nil => simp [ReclaimSet.nextSibling, hpar, hidx, hP.nrSegments, hS]
  | cons r R =>
    simp only [ReclaimSet.nextSibling, hpar, hidx, hP.nrSegments, hS, List.length_cons]
    rw [if_neg (by omega), hP.children]
    simp [List.getElem_append_right]

theorem Around.shape_of_frame {S' : List (FileRange × V)} {ks : List (Tree V)} (h : Around s fs (node p S' ks))
    (hctx : CtxFilled (⟨p, S, L, R⟩ :: fs)) (hS : S'.length = S.length) (hks : ∀ k ∈ ks, Filled k) :
    Shape s (plug fs (node p S' ks)) := by
  obtain ⟨-, hpos, hle, hmin, -⟩ := hctx
  dsimp only at hpos hle hmin
  refine (h.short hks (by simpa [hS] using hle) (fun hne => ?_) (fun _ hemp => ?_)).shape fun hne => by
    simpa [hS] using hmin hne
  · have := hmin hne
    simp only [segs_node, hS]
    omega
  · simp only [segs_node] at hemp
    rw [hemp, List.length_nil] at hS
    omega

end Frame

/-- What `rebalanceAfterRemove` owes for the tree `t` and its `j`th gap: it returns a heap
storing a tree of the same segments, and that tree's `j`th gap. -/
def Repaired (r : Option (ReclaimSet V × ReclaimGapIterator)) (t : Tree V) (j : Nat) : Prop :=
  ∃ s' t', r = some (s', gapAt t' j) ∧ Shape s' t' ∧ seq t' = seq t

theorem Repaired.congr {r : Option (ReclaimSet V × ReclaimGapIterator)} {t t' : Tree V} {j : Nat}
    (h : Repaired r t j) (ht : seq t = seq t') : Repaired r t' j := by
  obtain ⟨s', t'', hr, hs, hseq⟩ := h
  exact ⟨s', t'', hr, hs, hseq.trans ht⟩

/-- A repair whose tree renames the places of the one before it, and whose gap is the renamed
gap, is owed. -/
theorem repaired_of_relabel {σ τ : Nat × Nat → Nat × Nat} {t t' : Tree V} (hw : walk t' = (walk t).map (Pos.relabel σ τ))
    (hs : Shape s' t') {j l i : Nat} (hgl : gapAt t j = ⟨some l, i⟩) {g : ReclaimGapIterator}
    (hg : g = ⟨some (σ (l, i)).1, (σ (l, i)).2⟩) : Repaired (some (s', g)) t j :=
  ⟨s', t', by rw [hg, gapAt_relabel hw hgl], hs, (iters_of_relabel hw).1⟩

/-! ### The gap iterator each repair returns -/

/-- `borrowFromPrev` renames a gap that is not in the previous sibling as the borrow's renaming
does. -/
theorem retarget_borrowPrev {a sib m l i : Nat} (hl : l ≠ sib) :
    (if (⟨some l, i⟩ : ReclaimGapIterator).node = some sib ∧ (⟨some l, i⟩ : ReclaimGapIterator).index = m then
        ⟨some a, 0⟩ else if (⟨some l, i⟩ : ReclaimGapIterator).node = some a then
        ⟨some a, (⟨some l, i⟩ : ReclaimGapIterator).index + 1⟩ else ⟨some l, i⟩ : ReclaimGapIterator) =
      ⟨some ((splitGap sib m sib a ∘ joinGap sib (m + 1) a) (l, i)).1,
        ((splitGap sib m sib a ∘ joinGap sib (m + 1) a) (l, i)).2⟩ := by
  by_cases hla : l = a
  · subst hla
    simp [splitGap, joinGap, hl, show ¬i + (m + 1 + 1) ≤ m by omega]
    omega
  · simp [splitGap, joinGap, hl, hla]

/-- `borrowFromNext` renames a gap that is not in the next sibling as the borrow's renaming
does. -/
theorem retarget_borrowNext {a sib m l i : Nat} (hl : l ≠ sib) (hi : l = a → i ≤ m) :
    (if (⟨some l, i⟩ : ReclaimGapIterator).node = some sib then
        (if (⟨some l, i⟩ : ReclaimGapIterator).index = 0 then ⟨some a, m + 1⟩
        else ⟨some sib, (⟨some l, i⟩ : ReclaimGapIterator).index - 1⟩) else ⟨some l, i⟩ : ReclaimGapIterator) =
      ⟨some ((splitGap a (m + 1) a sib ∘ joinGap a m sib) (l, i)).1,
        ((splitGap a (m + 1) a sib ∘ joinGap a m sib) (l, i)).2⟩ := by
  by_cases hla : l = a
  · subst hla
    simp [splitGap, joinGap, hl, show i ≤ m + 1 by have := hi rfl; omega]
  · simp [splitGap, joinGap, hl, hla]

/-- `mergeSiblings` renames every gap as the merge's renaming does. -/
theorem retarget_merge (x y m l i : Nat) :
    (if (⟨some l, i⟩ : ReclaimGapIterator).node = some y then
        ⟨some x, (⟨some l, i⟩ : ReclaimGapIterator).index + m + 1⟩ else ⟨some l, i⟩ : ReclaimGapIterator) =
      ⟨some (joinGap x m y (l, i)).1, (joinGap x m y (l, i)).2⟩ := by
  by_cases hly : l = y
  · simp [joinGap, hly, Nat.add_assoc]
  · simp [joinGap, hly]

/-- `collapseRoot` renames every gap as the collapse's renaming does. -/
theorem retarget_collapse (p x y m l i : Nat) :
    (if (⟨some l, i⟩ : ReclaimGapIterator).node = some x then ⟨some p, (⟨some l, i⟩ : ReclaimGapIterator).index⟩
      else if (⟨some l, i⟩ : ReclaimGapIterator).node = some y then
        ⟨some p, (⟨some l, i⟩ : ReclaimGapIterator).index + m + 1⟩ else ⟨some l, i⟩ : ReclaimGapIterator) =
      ⟨some (collapseGap p x m y (l, i)).1, (collapseGap p x m y (l, i)).2⟩ := by
  by_cases hlx : l = x
  · simp [collapseGap, hlx]
  · by_cases hly : l = y
    · subst hly
      simp [collapseGap, hlx, Nat.add_assoc]
    · simp [collapseGap, hlx, hly]

/-! ### One step of the repair -/

/-- The addresses of a node with two adjacent children: those of the two, then the rest. -/
theorem ids_window_perm {p : Nat} {S : List (FileRange × V)} {L R : List (Tree V)} {X Y : Tree V} :
    (ids (node p S (L ++ X :: Y :: R))).Perm ((ids X ++ ids Y) ++ (p :: (idsList L ++ idsList R))) :=
  List.perm_iff_count.mpr fun w => by
    simp only [ids, idsList, idsList_append, List.count_cons, List.count_append, List.cons_append]
    omega

/-- A list of at least `k + 1` elements is split at its `k`th. -/
theorem exists_split_at {α : Type} {l : List α} {k : Nat} (h : k < l.length) :
    ∃ l1 x l2, l = l1 ++ x :: l2 ∧ l1.length = k :=
  ⟨l.take k, l[k], l.drop (k + 1), by rw [← List.drop_eq_getElem_cons h, List.take_append_drop], by simp; omega⟩

/-- A filled node that cannot spare a segment has exactly the minimum. -/
theorem segs_eq_of_not_spare {k : Tree V} (hk : Filled k) (hlt : k.segs.length < minDegree) :
    k.segs.length = minDegree - 1 := by
  obtain ⟨n, g, ks⟩ := k
  have := (filled_node.mp hk).1
  simp only [segs_node] at hlt ⊢
  omega

section Steps

variable (fns : SetFunctions V) {fs : List (Frame V)} {p : Nat} {S : List (FileRange × V)} {L R : List (Tree V)}
  {u : Tree V} {j : Nat}

/-- The short node `u` borrows from its previous sibling `l`, which can spare a segment: the
repair is done. -/
theorem Short.borrowFromPrev_step {l : Tree V} (h : Short s (⟨p, S, L ++ [l], R⟩ :: fs) u)
    (hin : GapIn (plug (⟨p, S, L ++ [l], R⟩ :: fs) u) j u) (hu : u.segs.length = minDegree - 2)
    (hl : minDegree ≤ l.segs.length) :
    Repaired (s.borrowFromPrev fns u.id l.id p (gapAt (plug (⟨p, S, L ++ [l], R⟩ :: fs) u) j))
      (plug (⟨p, S, L ++ [l], R⟩ :: fs) u) j := by
  obtain ⟨a, gr, ks2⟩ := u
  obtain ⟨sib, gs, ks⟩ := l
  have hS := h.around.frame.2.2.2.2
  simp only [List.length_append, List.length_singleton] at hS
  have hctxk : ∀ k ∈ (L ++ [node sib gs ks]) ++ R, Filled k := h.ctx.1
  have hlF := filled_node.mp (hctxk (node sib gs ks) (by simp))
  simp only [segs_node] at hu hl
  -- the window of the borrow
  obtain ⟨gl, z, rfl⟩ : ∃ gl z, gs = gl ++ [z] := by
    rcases gs.eq_nil_or_concat with rfl | ⟨gl, z, rfl⟩
    · simp [minDegree] at hl
    · exact ⟨gl, z, by simp⟩
  obtain ⟨ks1, ks0, rfl, hk0⟩ : ∃ ks1 ks0, ks = ks1 ++ ks0 ∧ (ks1 = [] ∧ ks0 = [] ∨ ks0.length = 1) := by
    rcases eq_or_ne ks [] with rfl | hne
    · exact ⟨[], [], rfl, .inl ⟨rfl, rfl⟩⟩
    · exact ⟨ks.dropLast, [ks.getLast hne], (List.dropLast_append_getLast hne).symm, .inr rfl⟩
  obtain ⟨S1, e, S2, rfl, hS1⟩ := exists_split_at (show L.length < S.length by omega)
  have hplug : plug (⟨p, S1 ++ e :: S2, L ++ [node sib (gl ++ [z]) (ks1 ++ ks0)], R⟩ :: fs) (node a gr ks2) =
      plug fs (node p (S1 ++ e :: S2) (L ++ node sib (gl ++ [z]) (ks1 ++ ks0) :: node a gr ks2 :: R)) := by
    simp [Frame.fill]
  have hA : Around s fs (node p (S1 ++ e :: S2) (L ++ node sib (gl ++ [z]) (ks1 ++ ks0) :: node a gr ks2 :: R)) := by
    simpa [Frame.fill] using h.around.up
  have hnd := List.nodup_append.mp (ids_window_perm.nodup_iff.mp (nodup_ids_of_plug fs (hplug ▸ h.nodup)))
  obtain ⟨l0, i0, hgl, hgw⟩ := hin
  have hl0 : l0 ≠ sib := fun h => List.disjoint_of_nodup_append hnd.1 (by simp [ids] : sib ∈ ids (node sib _ _))
    (h ▸ node_mem_ids _ hgw)
  obtain ⟨s', hb, -, hA', hwalk⟩ := Around.borrowFromPrev fns (gapAt (plug fs _) j) hA hS1 hk0
    (by simp [hu, maxDegree, minDegree])
  rw [hplug] at hgl ⊢
  rw [hgl] at hb ⊢
  simp only [id_node]
  rw [hb]
  refine repaired_of_relabel hwalk (hA'.shape_of_frame h.ctx (by simp) fun k hk => ?_) hgl (retarget_borrowPrev hl0)
  simp only [List.mem_append, List.mem_cons] at hk
  rcases hk with hk | rfl | rfl | hk
  · exact hctxk k (by simp [hk])
  · exact filled_node.mpr ⟨by simp at hl; omega, by simp at hlF ⊢; omega,
      fun k hk => hlF.2.2 k (List.mem_append_left _ hk)⟩
  · refine filled_node.mpr ⟨by simp [hu, minDegree], by simp [hu, minDegree, maxDegree], fun k hk => ?_⟩
    rcases List.mem_append.mp hk with hk | hk
    · exact hlF.2.2 k (List.mem_append_right _ hk)
    · exact h.kids k hk
  · exact hctxk k (by simp [hk])

/-- The short node `u` borrows from its next sibling `r`, which can spare a segment: the repair
is done. -/
theorem Short.borrowFromNext_step {r : Tree V} (h : Short s (⟨p, S, L, r :: R⟩ :: fs) u)
    (hin : GapIn (plug (⟨p, S, L, r :: R⟩ :: fs) u) j u) (hu : u.segs.length = minDegree - 2)
    (hr : minDegree ≤ r.segs.length) :
    Repaired (s.borrowFromNext fns u.id r.id p (gapAt (plug (⟨p, S, L, r :: R⟩ :: fs) u) j))
      (plug (⟨p, S, L, r :: R⟩ :: fs) u) j := by
  obtain ⟨a, gl, ks1⟩ := u
  obtain ⟨sib, gs, ks⟩ := r
  obtain ⟨-, -, -, hu', hS⟩ := h.around.frame
  simp only [List.length_cons] at hS
  have hctxk : ∀ k ∈ L ++ node sib gs ks :: R, Filled k := h.ctx.1
  have hrF := filled_node.mp (hctxk (node sib gs ks) (by simp))
  simp only [segs_node] at hu hr
  -- the window of the borrow
  obtain ⟨z, gr, rfl⟩ : ∃ z gr, gs = z :: gr := by
    cases gs with
    | nil => simp [minDegree] at hr
    | cons z gr => exact ⟨z, gr, rfl⟩
  obtain ⟨ks0, ks2, rfl, hk0⟩ : ∃ ks0 ks2, ks = ks0 ++ ks2 ∧ (ks0 = [] ∧ ks2 = [] ∨ ks0.length = 1) := by
    cases ks with
    | nil => exact ⟨[], [], rfl, .inl ⟨rfl, rfl⟩⟩
    | cons c ks => exact ⟨[c], ks, rfl, .inr rfl⟩
  obtain ⟨S1, e, S2, rfl, hS1⟩ := exists_split_at (show L.length < S.length by omega)
  have hplug : plug (⟨p, S1 ++ e :: S2, L, node sib (z :: gr) (ks0 ++ ks2) :: R⟩ :: fs) (node a gl ks1) =
      plug fs (node p (S1 ++ e :: S2) (L ++ node a gl ks1 :: node sib (z :: gr) (ks0 ++ ks2) :: R)) := rfl
  have hnd := List.nodup_append.mp (ids_window_perm.nodup_iff.mp (nodup_ids_of_plug fs (hplug ▸ h.nodup)))
  obtain ⟨l0, i0, hgl, hgw⟩ := hin
  have hl0 : l0 ≠ sib := fun h => List.disjoint_of_nodup_append hnd.1 (node_mem_ids _ hgw)
    (h ▸ (by simp [ids] : sib ∈ ids (node sib _ _)))
  have hi0 : l0 = a → i0 ≤ gl.length := by
    rintro rfl
    obtain ⟨m, hm, -⟩ := hasHeight_of_plug _ h.height.choose_spec.1
    have := (Rep.gap_mem m _ _ hu' hm hgw).2.1
    have hnr : (s.nodes l0).nrSegments = gl.length := hu'.holds.nrSegments
    rwa [hnr] at this
  obtain ⟨s', hb, -, hA', hwalk⟩ := Around.borrowFromNext fns (gapAt (plug fs _) j) h.around.up hS1 hk0
    (by simp at hrF; omega)
  rw [hplug] at hgl ⊢
  rw [hgl] at hb ⊢
  simp only [id_node]
  rw [hb]
  refine repaired_of_relabel hwalk (hA'.shape_of_frame h.ctx (by simp) fun k hk => ?_) hgl
    (retarget_borrowNext hl0 hi0)
  simp only [List.mem_append, List.mem_cons] at hk
  rcases hk with hk | rfl | rfl | hk
  · exact hctxk k (by simp [hk])
  · refine filled_node.mpr ⟨by simp [hu, minDegree], by simp [hu, minDegree, maxDegree], fun k hk => ?_⟩
    rcases List.mem_append.mp hk with hk | hk
    · exact h.kids k hk
    · exact hrF.2.2 k (List.mem_append_left _ hk)
  · exact filled_node.mpr ⟨by simp at hr; omega, by simp at hrF ⊢; omega,
      fun k hk => hrF.2.2 k (List.mem_append_right _ hk)⟩
  · exact hctxk k (by simp [hk])

/-- The short node `u` is a child of the root, which has one segment, and neither sibling can
spare one: the root takes in both children, and the repair is done. -/
theorem Short.collapseRoot_step (h : Short s [⟨p, S, L, R⟩] u) (hin : GapIn (plug [⟨p, S, L, R⟩] u) j u)
    (hu : u.segs.length = minDegree - 2) (hprev : ∀ l, L.getLast? = some l → l.segs.length < minDegree)
    (hnext : ∀ r, R.head? = some r → r.segs.length < minDegree) (hS : S.length = 1) :
    Repaired (s.collapseRoot p (gapAt (plug [⟨p, S, L, R⟩] u) j)) (plug [⟨p, S, L, R⟩] u) j := by
  obtain ⟨a, g, ks⟩ := u
  obtain ⟨-, -, -, -, hlen⟩ := h.around.frame
  have hctxk : ∀ k ∈ L ++ R, Filled k := h.ctx.1
  obtain ⟨e, rfl⟩ := List.length_eq_one.mp hS
  obtain ⟨l0, i0, hgl, hgw⟩ := hin
  simp only [segs_node] at hu
  have hkids : ∀ k ∈ ks, Filled k := h.kids
  have hmin : ∀ k ∈ L ++ R, k.segs.length < minDegree → k.segs.length = minDegree - 1 := fun k hk =>
    segs_eq_of_not_spare (hctxk k hk)
  rcases L with _ | ⟨l, _ | ⟨l', L⟩⟩
  · -- the short node is the first child
    obtain ⟨r, rfl⟩ : ∃ r, R = [r] := List.length_eq_one.mp (by simpa using hlen.symm)
    obtain ⟨b, gr, kr⟩ := r
    have hr := hmin (node b gr kr) (by simp) (hnext _ rfl)
    have hrF := filled_node.mp (hctxk (node b gr kr) (by simp))
    simp only [segs_node] at hr
    have hplug : plug [⟨p, [e], [], [node b gr kr]⟩] (node a g ks) = node p [e] [node a g ks, node b gr kr] := rfl
    rw [hplug] at hgl ⊢
    obtain ⟨s', hc, -, hsh, hwalk⟩ := Around.collapseRoot ⟨some l0, i0⟩
      (h.around.up : Around s [] (node p [e] [node a g ks, node b gr kr]))
      (fun k hk => by rcases List.mem_append.mp hk with hk | hk; exacts [hkids k hk, hrF.2.2 k hk])
      (by simp [hu, minDegree]) (by simp [hu, hr, minDegree, maxDegree])
    rw [hgl, hc]
    exact repaired_of_relabel hwalk hsh hgl (retarget_collapse _ _ _ _ _ _)
  · -- the short node is the second child
    obtain rfl : R = [] := List.length_eq_zero.mp (by simpa using hlen.symm)
    obtain ⟨b, gl, kl⟩ := l
    have hl := hmin (node b gl kl) (by simp) (hprev _ rfl)
    have hlF := filled_node.mp (hctxk (node b gl kl) (by simp))
    simp only [segs_node] at hl
    have hplug : plug [⟨p, [e], [node b gl kl], []⟩] (node a g ks) = node p [e] [node b gl kl, node a g ks] := rfl
    rw [hplug] at hgl ⊢
    obtain ⟨s', hc, -, hsh, hwalk⟩ := Around.collapseRoot ⟨some l0, i0⟩
      (h.around.up : Around s [] (node p [e] [node b gl kl, node a g ks]))
      (fun k hk => by rcases List.mem_append.mp hk with hk | hk; exacts [hlF.2.2 k hk, hkids k hk])
      (by simp [hl, minDegree]) (by simp [hu, hl, minDegree, maxDegree])
    rw [hgl, hc]
    exact repaired_of_relabel hwalk hsh hgl (retarget_collapse _ _ _ _ _ _)
  · simp at hlen
    omega

/-- After a merge below the node `p` of the frame, `p` with one segment less is the node the
loop repairs next: it keeps the invariant, and the gap, renamed, is in its subtree. -/
theorem Around.next_of_merge {S' : List (FileRange × V)} {ks' : List (Tree V)} {old : Tree V}
    {σ τ : Nat × Nat → Nat × Nat} {l0 i0 : Nat} (h : Around s' fs (node p S' ks')) (hkids : ∀ k ∈ ks', Filled k)
    (hctx : CtxFilled (⟨p, S, L, R⟩ :: fs)) (hS' : S'.length + 1 = S.length) (hS : S.length ≠ 1)
    (hwp : walk (plug fs (node p S' ks')) = (walk (plug fs old)).map (Pos.relabel σ τ))
    (hww : (walk old).map (Pos.relabel σ τ) = walk (node p S' ks')) (hgl : gapAt (plug fs old) j = ⟨some l0, i0⟩)
    (hgw : .gap l0 i0 ∈ walk old) :
    gapAt (plug fs (node p S' ks')) j = ⟨some (σ (l0, i0)).1, (σ (l0, i0)).2⟩ ∧ Short s' fs (node p S' ks') ∧
      GapIn (plug fs (node p S' ks')) j (node p S' ks') ∧ seq (plug fs (node p S' ks')) = seq (plug fs old) := by
  obtain ⟨-, hpos, hle, hmin, -⟩ := hctx
  dsimp only at hpos hle hmin
  have hg := gapAt_relabel hwp hgl
  refine ⟨hg, h.short hkids (by simp; omega) (fun hne => by have := hmin hne; simp; omega)
    (fun _ hemp => by simp only [segs_node] at hemp; simp [hemp] at hS'; omega),
    ⟨_, _, hg, hww ▸ List.mem_map_of_mem _ hgw⟩, (iters_of_relabel hwp).1⟩

/-- The short node `u` and a sibling that cannot spare a segment merge, and the parent, which
loses a segment, is the node to repair next. -/
theorem Short.mergeSiblings_step (h : Short s (⟨p, S, L, R⟩ :: fs) u) (hin : GapIn (plug (⟨p, S, L, R⟩ :: fs) u) j u)
    (hu : u.segs.length = minDegree - 2) (hprev : ∀ l, L.getLast? = some l → l.segs.length < minDegree)
    (hnext : ∀ r, R.head? = some r → r.segs.length < minDegree) (hS : S.length ≠ 1) :
    ∃ s' p', s.mergeSiblings fns u.id p (gapAt (plug (⟨p, S, L, R⟩ :: fs) u) j) = some (s', gapAt (plug fs p') j) ∧
      p'.id = p ∧ Short s' fs p' ∧ GapIn (plug fs p') j p' ∧ seq (plug fs p') = seq (plug (⟨p, S, L, R⟩ :: fs) u) := by
  obtain ⟨a, g, ks⟩ := u
  obtain ⟨-, -, -, -, hlen⟩ := h.around.frame
  have hctxk : ∀ k ∈ L ++ R, Filled k := h.ctx.1
  have hle : S.length ≤ maxDegree - 1 := h.ctx.2.2.1
  have hkids : ∀ k ∈ ks, Filled k := h.kids
  simp only [segs_node] at hu
  obtain ⟨l0, i0, hgl, hgw⟩ := hin
  have hgw' : .gap l0 i0 ∈ walk (Frame.fill ⟨p, S, L, R⟩ (node a g ks)) := by
    rw [Frame.walk_fill _ _ (h.fits _ (List.mem_cons_self _ _))]
    simp [hgw]
  rcases L.eq_nil_or_concat with rfl | ⟨L, l, rfl⟩
  · -- no previous sibling: the short node takes in the next one
    obtain ⟨r, R, rfl⟩ : ∃ r R', R = r :: R' := by
      cases R with
      | nil =>
        have hpos : 0 < S.length := h.ctx.2.1
        rw [hlen] at hpos
        simp at hpos
      | cons r R => exact ⟨r, R, rfl⟩
    obtain ⟨b, gr, kr⟩ := r
    have hr := segs_eq_of_not_spare (hctxk (node b gr kr) (by simp)) (hnext _ rfl)
    have hrF := filled_node.mp (hctxk (node b gr kr) (by simp))
    simp only [segs_node] at hr
    obtain ⟨S1, e, S2, rfl, hS1⟩ := exists_split_at (show ([] : List (Tree V)).length < S.length by simp at hlen ⊢; omega)
    obtain ⟨s', hm, -, hA', hwp, hww⟩ := Around.mergeSiblings fns ⟨some l0, i0⟩
      (h.around.up : Around s fs (node p (S1 ++ e :: S2) ([] ++ node a g ks :: node b gr kr :: R))) hS1
      (.inr ⟨rfl, rfl⟩) (by simp [hu, hr, minDegree, maxDegree]) hle
    have hkf : ∀ k ∈ [] ++ node a (g ++ e :: gr) (ks ++ kr) :: R, Filled k := fun k hk => by
      simp only [List.nil_append, List.mem_cons] at hk
      rcases hk with rfl | hk
      · refine filled_node.mpr ⟨by simp [hu, hr, minDegree], by simp [hu, hr, minDegree, maxDegree], fun k hk => ?_⟩
        rcases List.mem_append.mp hk with hk | hk
        exacts [hkids k hk, hrF.2.2 k hk]
      · exact hctxk k (by simp [hk])
    obtain ⟨hg, hsh, hin', hseq⟩ := hA'.next_of_merge hkf h.ctx (by simp; omega) hS hwp hww hgl hgw'
    refine ⟨s', node p (S1 ++ S2) ([] ++ node a (g ++ e :: gr) (ks ++ kr) :: R), ?_, rfl, hsh, hin', hseq⟩
    dsimp only [id_node] at hm ⊢
    rw [hgl, hm, retarget_merge, hg]
  · -- the previous sibling takes in the short node
    obtain ⟨b, gl, kl⟩ := l
    have hl := segs_eq_of_not_spare (hctxk (node b gl kl) (by simp)) (hprev _ (by simp))
    have hlF := filled_node.mp (hctxk (node b gl kl) (by simp))
    simp only [segs_node] at hl
    simp only [List.concat_eq_append, List.length_append, List.length_singleton] at hlen
    obtain ⟨S1, e, S2, rfl, hS1⟩ := exists_split_at (show L.length < S.length by omega)
    have hplug : plug (⟨p, S1 ++ e :: S2, L.concat (node b gl kl), R⟩ :: fs) (node a g ks) =
        plug fs (node p (S1 ++ e :: S2) (L ++ node b gl kl :: node a g ks :: R)) := by simp [Frame.fill]
    rw [hplug] at hgl ⊢
    obtain ⟨s', hm, -, hA', hwp, hww⟩ := Around.mergeSiblings fns ⟨some l0, i0⟩
      (by simpa [Frame.fill] using h.around.up) hS1 (.inl rfl) (by simp [hu, hl, minDegree, maxDegree]) hle
    have hkf : ∀ k ∈ L ++ node b (gl ++ e :: g) (kl ++ ks) :: R, Filled k := fun k hk => by
      simp only [List.mem_append, List.mem_cons] at hk
      rcases hk with hk | rfl | hk
      · exact hctxk k (by simp [hk])
      · refine filled_node.mpr ⟨by simp [hu, hl, minDegree], by simp [hu, hl, minDegree, maxDegree], fun k hk => ?_⟩
        rcases List.mem_append.mp hk with hk | hk
        exacts [hlF.2.2 k hk, hkids k hk]
      · exact hctxk k (by simp [hk])
    obtain ⟨hg, hsh, hin', hseq⟩ := hA'.next_of_merge hkf h.ctx (by simp; omega) hS hwp hww hgl
      (by simpa [Frame.fill] using hgw')
    refine ⟨s', node p (S1 ++ S2) (L ++ node b (gl ++ e :: g) (kl ++ ks) :: R), ?_, rfl, hsh, hin', hseq⟩
    rw [id_node, hgl, hm, retarget_merge, hg]

/-- The loop of `rebalanceAfterRemove`, run from a node one segment short on a path of
`fs.length` frames, with more fuel than frames: it returns a heap storing a tree of the same
segments, and the gap it returns is the `j`th gap of that tree, as it was before the loop. -/
theorem rebalanceAfterRemove_spec : ∀ (fs : List (Frame V)) (fuel : Nat) (s : ReclaimSet V) (u : Tree V),
    Short s fs u → fs.length < fuel → GapIn (plug fs u) j u →
    Repaired (s.rebalanceAfterRemove fns fuel u.id (gapAt (plug fs u) j)) (plug fs u) j
  | _, 0, _, _, _, hfuel, _ => absurd hfuel (Nat.not_lt_zero _)
  | fs, fuel + 1, s, u, h, hfuel, hin => by
    have hu := ((rep_plug fs u).mp h.rep).2.holds
    by_cases hfull : minDegree - 1 ≤ u.segs.length
    · rw [ReclaimSet.rebalanceAfterRemove_of_full fns (by rw [hu.nrSegments]; exact hfull)]
      exact ⟨s, plug fs u, rfl, h.shape fun _ => hfull, rfl⟩
    have hnr : (s.nodes u.id).nrSegments < minDegree - 1 := by rw [hu.nrSegments]; omega
    rcases fs with _ | ⟨⟨p, S, L, R⟩, fs⟩
    · rw [ReclaimSet.rebalanceAfterRemove_of_root fns hnr (ReclaimNode.link_eq_none.mp hu.link)]
      exact ⟨s, plug [] u, rfl, h.shape fun h => absurd rfl h, rfl⟩
    have hshort : u.segs.length = minDegree - 2 := by have := h.short (List.cons_ne_nil _ _); omega
    obtain ⟨hP, hL, hR, -, hlen⟩ := h.around.frame
    by_cases hspare : ∃ l, L.getLast? = some l ∧ minDegree ≤ l.segs.length
    · -- the previous sibling can spare a segment
      obtain ⟨l, hl, hls⟩ := hspare
      obtain ⟨L, rfl⟩ := List.getLast?_eq_some_iff.mp hl
      have hsib := ((repKids_append _ _ _ _).mp hL).2.1.holds.nrSegments
      rw [ReclaimSet.rebalanceAfterRemove_of_prev fns hnr h.around.parent
        (by rw [h.around.prevSibling, hl]; rfl) (by rw [hsib]; exact hls)]
      exact h.borrowFromPrev_step fns hin hshort hls
    have hprev : ∀ l, L.getLast? = some l → l.segs.length < minDegree := fun l hl =>
      Nat.lt_of_not_le fun hls => hspare ⟨l, hl, hls⟩
    have hprev' : ∀ b, s.prevSibling u.id = some b → (s.nodes b).nrSegments < minDegree := by
      intro b hb
      rw [h.around.prevSibling, Option.map_eq_some'] at hb
      obtain ⟨l, hl, rfl⟩ := hb
      obtain ⟨L, rfl⟩ := List.getLast?_eq_some_iff.mp hl
      rw [((repKids_append _ _ _ _).mp hL).2.1.holds.nrSegments]
      exact hprev l hl
    by_cases hspare : ∃ r, R.head? = some r ∧ minDegree ≤ r.segs.length
    · -- the next sibling can spare a segment
      obtain ⟨r, hr, hrs⟩ := hspare
      obtain ⟨R, rfl⟩ := List.head?_eq_some_iff.mp hr
      rw [ReclaimSet.rebalanceAfterRemove_of_next fns hnr h.around.parent hprev'
        (by rw [h.around.nextSibling, hr]; rfl) (by rw [hR.1.holds.nrSegments]; exact hrs)]
      exact h.borrowFromNext_step fns hin hshort hrs
    have hnext : ∀ r, R.head? = some r → r.segs.length < minDegree := fun r hr =>
      Nat.lt_of_not_le fun hrs => hspare ⟨r, hr, hrs⟩
    have hnext' : ∀ b, s.nextSibling u.id = some b → (s.nodes b).nrSegments < minDegree := by
      intro b hb
      rw [h.around.nextSibling, Option.map_eq_some'] at hb
      obtain ⟨r, hr, rfl⟩ := hb
      obtain ⟨R, rfl⟩ := List.head?_eq_some_iff.mp hr
      rw [hR.1.holds.nrSegments]
      exact hnext r hr
    rw [ReclaimSet.rebalanceAfterRemove_of_parent fns hnr h.around.parent hprev' hnext', hP.nrSegments]
    split_ifs with hS
    · -- the parent is a root of one segment
      obtain rfl : fs = [] := by
        by_contra hne
        have := h.ctx.2.2.2.1 hne
        simp only [hS, minDegree] at this
        omega
      exact h.collapseRoot_step hin hshort hprev hnext hS
    · -- the short node merges with a sibling, and the loop goes on from the parent
      obtain ⟨s', p', hm, rfl, hsh, hin', hseq⟩ := h.mergeSiblings_step fns hin hshort hprev hnext hS
      rw [hm, Option.some_bind]
      exact (rebalanceAfterRemove_spec fs fuel s' p' hsh (by simpa using hfuel) hin').congr hseq

end Steps

/-! ### Removal -/

theorem eraseIdx_middle {α : Type} (B g A : List α) {i : Nat} (hi : i < g.length) :
    (B ++ g ++ A).eraseIdx (B.length + i) = B ++ g.eraseIdx i ++ A := by
  rw [List.append_assoc, List.eraseIdx_append_of_length_le (by omega), Nat.add_sub_cancel_left,
    List.eraseIdx_append_of_lt_length hi, List.append_assoc]

/-- Copying element `i` over element `i + 1` and then erasing element `i` erases element `i + 1`. -/
theorem eraseIdx_set_prev {α : Type} (l : List α) {i : Nat} (hi : i + 1 < l.length) :
    (l.set (i + 1) l[i]).eraseIdx i = l.eraseIdx (i + 1) := by
  obtain ⟨A, x, z, B, rfl, rfl⟩ : ∃ A x z B, l = A ++ x :: z :: B ∧ A.length = i := by
    refine ⟨l.take i, l[i], l[i + 1], l.drop (i + 2), ?_, by simp; omega⟩
    simp [List.getElem_cons_drop]
  simp [List.set_append_right, List.eraseIdx_append_of_length_le, List.getElem_append_right]

/-- Writing segment `k` of a node changes the traversal at that segment's place only. -/
theorem walk_plug_set {fs : List (Frame V)} (hfit : ctxFits fs) {x : Nat} {g1 g2 : List (FileRange × V)}
    {ks : List (Tree V)} (hks : ks = [] ∨ ks.length = g1.length + g2.length + 2) (e y : FileRange × V) :
    ∃ pre post, walk (plug fs (node x (g1 ++ e :: g2) ks)) = pre ++ .seg x g1.length e :: post ∧
      walk (plug fs (node x (g1 ++ y :: g2) ks)) = pre ++ .seg x g1.length y :: post := by
  obtain ⟨ks1, ks2, rfl, hks'⟩ : ∃ ks1 ks2, ks = ks1 ++ ks2 ∧
      (ks1 = [] ∧ ks2 = [] ∨ ks1.length = g1.length + 1 ∧ ks2 ≠ []) := by
    rcases hks with rfl | hlen
    · exact ⟨[], [], rfl, .inl ⟨rfl, rfl⟩⟩
    · refine ⟨ks.take (g1.length + 1), ks.drop (g1.length + 1), (List.take_append_drop _ _).symm,
        .inr ⟨by simp; omega, fun h => ?_⟩⟩
      have := congrArg List.length h
      simp only [List.length_drop, List.length_nil] at this
      omega
  have hw : ∀ z : FileRange × V, walk (plug fs (node x (g1 ++ z :: g2) (ks1 ++ ks2))) =
      (ctxBefore fs ++ walkAt x 0 g1 ks1) ++ .seg x g1.length z :: (walkAt x (g1.length + 1) g2 ks2 ++ ctxAfter fs) :=
    fun z => by
      rw [walk_plug fs _ hfit, walk_eq_walkAt, walkAt_split x 0 z hks']
      simp
  exact ⟨_, _, hw e, hw y⟩

/-- Two traversals that differ in one segment's value only have the same gap and segment
iterators, and segment sequences that differ at that segment's index. -/
theorem iters_of_set {t t' : Tree V} {pre post : List (Pos V)} {b i : Nat} {e y : FileRange × V}
    (ht : walk t = pre ++ .seg b i e :: post) (ht' : walk t' = pre ++ .seg b i y :: post) :
    gapIters t' = gapIters t ∧ segIters t' = segIters t ∧ segAt t (segsOf pre).length = ⟨some b, i⟩ ∧
      seq t' = (seq t).set (segsOf pre).length y := by
  refine ⟨by simp [gapIters, ht, ht', Pos.gap?], by simp [segIters, entries, ht, ht', Pos.entry?], ?_, ?_⟩
  · refine segAt_of_getElem? ?_
    rw [segIters, entries, ht, List.filterMap_append, List.map_append,
      List.getElem?_append_right (by simp [length_entries_eq_segsOf])]
    simp [length_entries_eq_segsOf, Pos.entry?]
  · rw [seq_eq_segsOf, seq_eq_segsOf, ht, ht']
    simp [List.set_append_right]

section Removal

variable (fns : SetFunctions V) {fs : List (Frame V)} {x : Nat} {g : List (FileRange × V)} {ks : List (Tree V)}

/-- Below the root, the node at the end of a path of a shaped tree is filled. -/
theorem Shape.min_of_plug {u : Tree V} (h : Shape s (plug fs u)) (hne : fs ≠ []) : minDegree - 1 ≤ u.segs.length := by
  obtain ⟨-, hu⟩ := (rootFilled_plug fs u hne).mp ⟨h.filled, h.rootSize, h.rootEmpty⟩
  obtain ⟨a, g, ks⟩ := u
  exact (filled_node.mp hu).1

theorem Shape.not_mem_ctx (h : Shape s (plug fs (node x g ks))) : x ∉ ctxIds fs := fun hx =>
  (List.nodup_append.mp ((ids_plug_perm fs _).nodup_iff.mp h.nodup)).2.2 hx (List.mem_cons_self _ _)

/-- Removing segment `i` of a leaf leaves the leaf at most one segment short, as
`rebalanceAfterRemove` expects. -/
theorem Shape.eraseLeaf {i : Nat} (h : Shape s (plug fs (node x g []))) (hfit : ctxFits fs) (hi : i < g.length) :
    Short (s.modify x fun m => { m with
        keys := copySlice m.keys i (maxDegree - 1) m.keys (i + 1) m.nrSegments
        values := clearAt fns (copySlice m.values i (maxDegree - 1) m.values (i + 1) m.nrSegments) (m.nrSegments - 1)
        nrSegments := m.nrSegments - 1 }) fs (node x (g.eraseIdx i) []) := by
  have hs := h.short hfit
  have hu := ((rep_plug fs _).mp h.rep).2
  have hxc := h.not_mem_ctx
  have hlen : (g.eraseIdx i).length + 1 = g.length := by rw [List.length_eraseIdx, if_pos hi]; omega
  generalize hs' : s.modify x _ = s'
  have hctx : ∀ y ∈ ctxIds fs, s'.nodes y = s.nodes y := fun y hy => by
    rw [← hs', ReclaimSet.modify_nodes, if_neg (show y ≠ x from fun h => hxc (h ▸ hy))]
  have hrep : Rep s' (node x (g.eraseIdx i) []) (linkTo fs) := by
    refine rep_node.mpr ⟨?_, trivial⟩
    rw [← hs', ReclaimSet.modify_nodes, if_pos rfl]
    exact (rep_node.mp hu).1.eraseLeaf hi hs.size fns
  refine hs.replace rfl hctx hrep (fun n hn => by cases n <;> simp_all [HasHeight]) (by simp)
    (by have := hs.size; simp only [segs_node] at this ⊢; omega) (fun hne => ?_) (fun _ _ => rfl)
    (by simp [ids, idsList]) (fun y hy => .inl hy) (fun y hy => by rw [← hs']; exact h.fresh y (mem_ids_plug fs hy))
    (by rw [← hs']; rfl)
  have := h.min_of_plug hne
  simp only [segs_node] at this ⊢
  omega

/-- `Remove`'s branch for a segment of a leaf: the segment leaves `seq`, and the gap returned is
the one left in its place. -/
theorem removeLeaf_spec {i : Nat} (h : Shape s (plug fs (node x g []))) (hfit : ctxFits fs) (hi : i < g.length) :
    ∃ s' t', s.removeLeaf fns ⟨some x, i⟩ = some (s', gapAt t' ((segsOf (ctxBefore fs)).length + i)) ∧
      Shape s' t' ∧ seq t' = (seq (plug fs (node x g []))).eraseIdx ((segsOf (ctxBefore fs)).length + i) := by
  have hsh := h.eraseLeaf fns hfit hi
  have hle : i ≤ (g.eraseIdx i).length := by rw [List.length_eraseIdx, if_pos hi]; omega
  obtain ⟨n', hn', -⟩ := hsh.height
  have hgl := gapAt_plug_leaf hfit hle (alternates_walk n' _ hn')
  obtain ⟨s', t', hr, hs', hseq⟩ := rebalanceAfterRemove_spec fns fs s.fresh _ _ hsh (length_lt_of_height h.height)
    ⟨x, i, hgl, by simpa using gap_mem_leafWalk x 0 i _ hle⟩
  refine ⟨s', t', ?_, hs', ?_⟩
  · rw [← hr, hgl]
    rfl
  · rw [hseq, seq_plug hfit, seq_plug hfit, seq_leaf, seq_leaf, eraseIdx_middle _ _ _ hi]

/-- Writing the key and then the value of segment `g1.length` of node `x`, as `SetRangeUnchecked`
and `SetValue` do, stores the tree with that segment replaced. -/
theorem Shape.setSeg {g1 g2 : List (FileRange × V)} {e : FileRange × V} (h : Shape s (plug fs (node x (g1 ++ e :: g2) ks)))
    (hfit : ctxFits fs) (y : FileRange × V) :
    Shape ((s.modify x fun m => { m with keys := Function.update m.keys g1.length y.1 }).modify x
        fun m => { m with values := Function.update m.values g1.length y.2 }) (plug fs (node x (g1 ++ y :: g2) ks)) := by
  have hs := h.short hfit
  have hxc := h.not_mem_ctx
  have hnd := nodup_ids_of_plug fs h.nodup
  obtain ⟨hx, hk⟩ := rep_node.mp ((rep_plug fs _).mp h.rep).2
  generalize hs' : (ReclaimSet.modify _ x _).modify x _ = s'
  have hne : ∀ b, b ≠ x → s'.nodes b = s.nodes b := fun b hb => by
    simp only [← hs', ReclaimSet.modify_nodes, if_neg hb]
  have hrep : Rep s' (node x (g1 ++ y :: g2) ks) (linkTo fs) := by
    refine rep_node.mpr ⟨?_, (repKids_congr x 0 ks fun b hb => hne b fun h => ?_).mpr hk⟩
    · rw [← hs', ReclaimSet.modify_nodes, ReclaimSet.modify_nodes, if_pos rfl, if_pos rfl]
      simpa [List.set_append_right] using hx.setSeg (i := g1.length) (by simp) y
    · subst h
      exact (List.nodup_cons.mp hnd).1 hb
  have hsh : Short s' fs (node x (g1 ++ y :: g2) ks) := hs.replace rfl (fun b hb => hne b fun h => hxc (h ▸ hb)) hrep
    (fun n hn => by cases n <;> simpa [HasHeight] using hn) hs.kids (by simpa using hs.size)
    (fun hne' => by simpa using hs.short hne') (fun _ h => by simp at h) hnd (fun b hb => .inl hb)
    (fun b hb => by rw [← hs']; exact h.fresh b (mem_ids_plug fs hb)) (by rw [← hs']; rfl)
  exact hsh.shape fun hne' => by simpa using h.min_of_plug hne'

/-- Writing the key and the value of segment `j` in its node, as `SetRangeUnchecked` and
`SetValue` do, stores the tree with segment `j` replaced, and every iterator keeps its place. -/
theorem Shape.setAt {t : Tree V} {j : Nat} (h : Shape s t) (hj : j < (seq t).length) (y : FileRange × V) :
    ∃ a k t', segAt t j = ⟨some a, k⟩ ∧
      Shape ((s.modify a fun m => { m with keys := Function.update m.keys k y.1 }).modify a
        fun m => { m with values := Function.update m.values k y.2 }) t' ∧
      gapIters t' = gapIters t ∧ segIters t' = segIters t ∧ seq t' = (seq t).set j y := by
  obtain ⟨a, k, hseg, hm, -⟩ := h.reads hj
  obtain ⟨n, hn, -⟩ := h.height
  obtain ⟨fs, g, ks, rfl, hfit, hgk⟩ := exists_node_of_seg n t hn hm
  obtain ⟨g1, e, g2, rfl, rfl⟩ := exists_split_at (List.getElem?_eq_some_iff.mp hgk).1
  have hks : ks = [] ∨ ks.length = g1.length + g2.length + 2 := by
    obtain ⟨m, hm', -⟩ := hasHeight_of_plug fs hn
    cases m with
    | zero => exact .inl hm'
    | succ m => exact .inr (by simpa [Nat.add_assoc] using (hasHeight_succ.mp hm').1)
  obtain ⟨pre, post, hw, hw'⟩ := walk_plug_set hfit hks e y
  obtain ⟨hgi, hsi, hat, hseq⟩ := iters_of_set hw hw'
  have hpre : (segsOf pre).length = j := h.segAt_inj (by rw [seq_eq_segsOf, hw]; simp) hj (hat.trans hseg.symm)
  exact ⟨a, g1.length, _, hseg, h.setSeg hfit y, hgi, hsi, hpre ▸ hseq⟩

/-- The segment before a segment of an internal node is the last of a leaf, and the gap
between them is that leaf's last. -/
theorem Shape.prev_of_internal {t : Tree V} {j a k : Nat} (h : Shape s t) (hj : j < (seq t).length)
    (hseg : segAt t j = ⟨some a, k⟩) (hc : (s.nodes a).hasChildren = true) :
    ∃ j' b i, j = j' + 1 ∧ segAt t j' = ⟨some b, i⟩ ∧ gapAt t j = ⟨some b, i + 1⟩ ∧
      (s.nodes b).hasChildren = false := by
  -- `PrevGap` of an internal node's segment is the gap after its `PrevSegment`
  have hprev : ∀ r, ReclaimIterator.prevSegment ⟨some a, k⟩ s = some r →
      ReclaimIterator.prevGap ⟨some a, k⟩ s = some ⟨r.node, r.index + 1⟩ := fun r hr => by
    simp only [ReclaimIterator.prevSegment, ReclaimIterator.prevGap, Option.bind_eq_bind, Option.some_bind, hc,
      ↓reduceIte] at hr ⊢
    rw [hr]
    rfl
  obtain ⟨-, hps, -, hpg⟩ := h.seg_steps hj
  rw [hseg] at hps hpg
  rw [hprev _ hps] at hpg
  obtain ⟨l, i1, hgl, hgw⟩ := h.gapAt_mem hj.le
  rw [hgl, Option.some.injEq, ReclaimGapIterator.mk.injEq] at hpg
  obtain ⟨j', rfl⟩ : ∃ j', j = j' + 1 := by
    cases j with
    | zero => simp [segBefore] at hpg
    | succ j' => exact ⟨j', rfl⟩
  obtain ⟨b, i, hv, -⟩ := h.reads (j := j') (by omega)
  simp only [segBefore, Nat.add_one_ne_zero, ↓reduceIte, Nat.add_sub_cancel, hv, Option.some.injEq] at hpg
  obtain ⟨rfl, rfl⟩ := hpg
  obtain ⟨n, hn, -⟩ := h.height
  exact ⟨j', b, i, rfl, hv, hgl, (Rep.gap_mem n t none h.rep hn hgw).1⟩

/-- `Remove`'s branch for a segment of a leaf, at its index `j` in `seq`. -/
theorem removeLeaf_at {t : Tree V} {j b i : Nat} (h : Shape s t) (hj : j < (seq t).length)
    (hseg : segAt t j = ⟨some b, i⟩) (hleaf : (s.nodes b).hasChildren = false) :
    ∃ s' t', s.removeLeaf fns ⟨some b, i⟩ = some (s', gapAt t' j) ∧ Shape s' t' ∧ seq t' = (seq t).eraseIdx j := by
  obtain ⟨b', i', hseg', hm, -⟩ := h.reads hj
  rw [hseg, ReclaimIterator.mk.injEq, Option.some.injEq] at hseg'
  obtain ⟨rfl, rfl⟩ := hseg'
  obtain ⟨n, hn, -⟩ := h.height
  obtain ⟨fs, g, ks, rfl, hfit, hgk⟩ := exists_node_of_seg n t hn hm
  have hk := (List.getElem?_eq_some_iff.mp hgk).1
  obtain rfl : ks = [] := by
    cases ks with
    | nil => rfl
    | cons k ks => simp [((rep_plug fs _).mp h.rep).2.hasChildren_node] at hleaf
  have hB : (segsOf (ctxBefore fs)).length + i = j := by
    refine h.segAt_inj ?_ hj ((segAt_plug_leaf hfit hk).trans hseg.symm)
    rw [seq_plug hfit, seq_leaf]
    simp only [List.length_append]
    omega
  exact hB ▸ removeLeaf_spec fns h hfit hk

/-- `Remove` at segment `j`: the segment leaves `seq`, and the gap returned is the one left in
its place. A segment of an internal node first takes the range and value of the segment before
it, the last of a leaf, which is then removed instead. -/
theorem remove_spec {t : Tree V} {j : Nat} (h : Shape s t) (hj : j < (seq t).length) :
    ∃ s' t', s.remove fns (segAt t j) = some (s', gapAt t' j) ∧ Shape s' t' ∧ seq t' = (seq t).eraseIdx j := by
  obtain ⟨a, k, hseg, -⟩ := h.reads hj
  cases hc : (s.nodes a).hasChildren
  · -- a segment of a leaf is removed where it is
    obtain ⟨s', t', hr, hs', hseq⟩ := removeLeaf_at fns h hj hseg hc
    refine ⟨s', t', ?_, hs', hseq⟩
    rw [hseg, ← hr]
    simp [ReclaimSet.remove, hc]
  -- a segment of an internal node takes the one before it, the last of a leaf, which then goes
  obtain ⟨j', b, i, rfl, hv, -, hleaf⟩ := h.prev_of_internal hj hseg hc
  obtain ⟨-, -, -, -, -, hrange, hvalue⟩ := h.reads (j := j') (by omega)
  obtain ⟨a', k', t2, hseg', hS2, hgi, hsi, hseq2⟩ := h.setAt hj (seq t)[j']
  rw [hseg, ReclaimIterator.mk.injEq, Option.some.injEq] at hseg'
  obtain ⟨rfl, rfl⟩ := hseg'
  have hlen2 : (seq t2).length = (seq t).length := by rw [hseq2, List.length_set]
  have hsat : ∀ i, segAt t2 i = segAt t i := fun i => by
    unfold segAt
    rw [hsi]
  have hba : b ≠ a := fun hba => by rw [hba, hc] at hleaf; cases hleaf
  obtain ⟨s', t', hr, hs', hseq⟩ := removeLeaf_at fns hS2 (j := j') (by omega) ((hsat j').trans hv)
    (by simpa [ReclaimSet.modify_nodes, hba] using hleaf)
  have hlen' : (seq t').length + 1 = (seq t).length := by
    rw [hseq, List.length_eraseIdx, if_pos (by omega), hlen2]
    omega
  have hng := (hs'.gap_steps (j := j') (by omega)).2.2.1
  have hns := (hS2.seg_steps (j := j' + 1) (by omega)).1
  have hps := (h.seg_steps hj).2.1
  rw [hsat, hseg] at hns
  rw [hseg] at hps
  simp only [segBefore, Nat.add_one_ne_zero, ↓reduceIte, Nat.add_sub_cancel, hv] at hps
  rw [hv] at hrange hvalue
  refine ⟨s', t', ?_, hs', ?_⟩
  · rw [hseg]
    simp only [ReclaimSet.remove, Option.bind_eq_bind, Option.some_bind, hc, ↓reduceIte, hps, hrange, hvalue,
      ReclaimIterator.setRangeUnchecked, ReclaimIterator.updateKey, ReclaimIterator.setValue, Option.map_some', hns,
      hr, hng]
    rfl
  · rw [hseq, hseq2, eraseIdx_set_prev _ (by omega)]

end Removal

section Rebalancing

variable [Inhabited V] (fns : SetFunctions V) {fs : List (Frame V)} {u : Tree V} {j : Nat}

end Rebalancing

end Tree

end Gvisor.Segment
