import Mathlib.Data.List.Chain
import Gvisor.Segment.Rep

/-!
# Navigation follows the traversal

Every step of a `reclaimIterator` or a `reclaimGapIterator` goes to the next or previous place
of the in-order traversal `walk`: `chain_steps` says that any two consecutive places of the
walk of a stored, shaped tree are each other's step (`NextSegment`/`PrevGap` from a gap to
the segment after it, `NextGap`/`PrevSegment` from a segment to the gap after it). It rests
on the spine lemmas: the climbs of `segmentAfterPosition` and `segmentBeforePosition` go up
the last or first path of a subtree, and the descents of `lastSegment` and `firstSegment`
go down it.

Scope. The loops run on the fuel `fresh`; a tree of height `h` needs `h < fresh`.
-/

set_option autoImplicit false

namespace Gvisor.Segment

variable {V : Type}

namespace ReclaimSet

variable {s : ReclaimSet V}

/-! ### One step of each loop -/

theorem after_succ_of_ne {fuel a i : Nat} (h : i ≠ (s.nodes a).nrSegments) :
    s.segmentAfterPositionLoop (fuel + 1) a i = some ⟨some a, i⟩ := by
  simp [segmentAfterPositionLoop, h]

theorem after_succ_of_root {fuel a i : Nat} (h : i = (s.nodes a).nrSegments) (hp : (s.nodes a).link = none) :
    s.segmentAfterPositionLoop (fuel + 1) a i = some ⟨none, 0⟩ := by
  simp [segmentAfterPositionLoop, h, ReclaimNode.link_eq_none.mp hp]

theorem after_succ_of_up {fuel a i p j : Nat} (h : i = (s.nodes a).nrSegments) (hp : (s.nodes a).link = some (p, j)) :
    s.segmentAfterPositionLoop (fuel + 1) a i = s.segmentAfterPositionLoop fuel p j := by
  obtain ⟨hpar, rfl⟩ := ReclaimNode.link_eq_some.mp hp
  simp [segmentAfterPositionLoop, h, hpar]

theorem before_succ_of_ne {fuel a i : Nat} (h : i ≠ 0) :
    s.segmentBeforePositionLoop (fuel + 1) a i = some ⟨some a, i - 1⟩ := by
  simp [segmentBeforePositionLoop, h]

theorem before_succ_of_root {fuel a : Nat} (hp : (s.nodes a).link = none) :
    s.segmentBeforePositionLoop (fuel + 1) a 0 = some ⟨none, 0⟩ := by
  simp [segmentBeforePositionLoop, ReclaimNode.link_eq_none.mp hp]

theorem before_succ_of_up {fuel a p j : Nat} (hp : (s.nodes a).link = some (p, j)) :
    s.segmentBeforePositionLoop (fuel + 1) a 0 = s.segmentBeforePositionLoop fuel p j := by
  obtain ⟨hpar, rfl⟩ := ReclaimNode.link_eq_some.mp hp
  simp [segmentBeforePositionLoop, hpar]

theorem descendFirst_succ_of_leaf {fuel a : Nat} (h : (s.nodes a).hasChildren = false) :
    s.descendFirst (fuel + 1) a = some a := by
  simp [descendFirst, h]

theorem descendFirst_succ_of_child {fuel a c : Nat} (h : (s.nodes a).hasChildren = true)
    (hc : (s.nodes a).children 0 = some c) : s.descendFirst (fuel + 1) a = s.descendFirst fuel c := by
  simp [descendFirst, h, hc]

theorem descendLast_succ_of_leaf {fuel a : Nat} (h : (s.nodes a).hasChildren = false) :
    s.descendLast (fuel + 1) a = some a := by
  simp [descendLast, h]

theorem descendLast_succ_of_child {fuel a c : Nat} (h : (s.nodes a).hasChildren = true)
    (hc : (s.nodes a).children (s.nodes a).nrSegments = some c) : s.descendLast (fuel + 1) a = s.descendLast fuel c := by
  simp [descendLast, h, hc]

theorem after_mono : ∀ {fuel a i : Nat} {r : ReclaimIterator}, s.segmentAfterPositionLoop fuel a i = some r →
    s.segmentAfterPositionLoop (fuel + 1) a i = some r
  | 0, _, _, _, h => by simp [segmentAfterPositionLoop] at h
  | fuel + 1, a, i, r, h => by
    unfold segmentAfterPositionLoop at h ⊢
    split_ifs at h ⊢ with hi
    · split at h <;> simp_all [after_mono]
    · exact h

theorem before_mono : ∀ {fuel a i : Nat} {r : ReclaimIterator}, s.segmentBeforePositionLoop fuel a i = some r →
    s.segmentBeforePositionLoop (fuel + 1) a i = some r
  | 0, _, _, _, h => by simp [segmentBeforePositionLoop] at h
  | fuel + 1, a, i, r, h => by
    unfold segmentBeforePositionLoop at h ⊢
    split_ifs at h ⊢ with hi
    · split at h <;> simp_all [before_mono]
    · exact h

/-! ### Steps between segments -/

theorem fresh_pos_of_after {a i : Nat} {y : ReclaimIterator} (h : s.segmentAfterPositionLoop s.fresh a i = some y) :
    ∃ f, s.fresh = f + 1 := by
  cases hf : s.fresh with
  | zero => rw [hf] at h; simp [segmentAfterPositionLoop] at h
  | succ f => exact ⟨f, rfl⟩

theorem fresh_pos_of_before {a i : Nat} {y : ReclaimIterator} (h : s.segmentBeforePositionLoop s.fresh a i = some y) :
    ∃ f, s.fresh = f + 1 := by
  cases hf : s.fresh with
  | zero => rw [hf] at h; simp [segmentBeforePositionLoop] at h
  | succ f => exact ⟨f, rfl⟩

/-- `NextSegment` of a segment is `NextSegment` of the gap after it, when that gap is not the
first of an empty leaf. -/
theorem nextSegment_of_nextGap {a i : Nat} (hi : i < (s.nodes a).nrSegments) {g : ReclaimGapIterator}
    {y : ReclaimIterator} (hg : ReclaimIterator.nextGap ⟨some a, i⟩ s = some g) (hy : g.nextSegment s = some y)
    (hne : (s.nodes a).hasChildren = true → ∀ l, g.node = some l → (s.nodes l).nrSegments ≠ 0) :
    ReclaimIterator.nextSegment ⟨some a, i⟩ s = some y := by
  cases hc : (s.nodes a).hasChildren
  · simp [ReclaimIterator.nextGap, hc] at hg
    subst hg
    simp [ReclaimGapIterator.nextSegment, segmentAfterPosition] at hy
    obtain ⟨f, hf⟩ := fresh_pos_of_after hy
    rw [hf] at hy
    simp [ReclaimIterator.nextSegment, hc]
    split_ifs with hlt
    · rwa [after_succ_of_ne (by omega)] at hy
    · unfold segmentAfterPositionLoop at hy
      rw [if_pos (by omega)] at hy
      split at hy
      · exact hy
      · rw [segmentAfterPosition, hf]
        exact after_mono hy
  · simp [ReclaimIterator.nextGap, hc] at hg
    obtain ⟨first, hfirst, hg⟩ := Option.bind_eq_some.mp hg
    obtain ⟨c, -, hfs⟩ := Option.bind_eq_some.mp hfirst
    obtain ⟨l, -, rfl⟩ := Option.map_eq_some'.mp hfs
    cases Option.some.inj hg
    simp [ReclaimGapIterator.nextSegment, segmentAfterPosition] at hy
    obtain ⟨f, hf⟩ := fresh_pos_of_after hy
    rw [hf, after_succ_of_ne (Ne.symm (hne hc l rfl))] at hy
    simp [ReclaimIterator.nextSegment, hc, hfirst, hy]

/-- `PrevSegment` of a segment is `PrevSegment` of the gap before it. -/
theorem prevSegment_of_prevGap {a i : Nat} {g : ReclaimGapIterator} {y : ReclaimIterator}
    (hg : ReclaimIterator.prevGap ⟨some a, i⟩ s = some g) (hy : g.prevSegment s = some y) :
    ReclaimIterator.prevSegment ⟨some a, i⟩ s = some y := by
  cases hc : (s.nodes a).hasChildren
  · simp [ReclaimIterator.prevGap, hc] at hg
    subst hg
    simp [ReclaimGapIterator.prevSegment, segmentBeforePosition] at hy
    obtain ⟨f, hf⟩ := fresh_pos_of_before hy
    rw [hf] at hy
    simp [ReclaimIterator.prevSegment, hc]
    split_ifs with hlt
    · rwa [before_succ_of_ne (by omega)] at hy
    · unfold segmentBeforePositionLoop at hy
      rw [if_pos (by omega)] at hy
      split at hy
      · exact hy
      · rw [segmentBeforePosition, hf]
        exact before_mono hy
  · simp [ReclaimIterator.prevGap, hc] at hg
    obtain ⟨last, hlast, hg⟩ := Option.bind_eq_some.mp hg
    obtain ⟨c, -, hls⟩ := Option.bind_eq_some.mp hlast
    obtain ⟨l, -, rfl⟩ := Option.map_eq_some'.mp hls
    cases Option.some.inj hg
    simp [ReclaimGapIterator.prevSegment, segmentBeforePosition] at hy
    obtain ⟨f, hf⟩ := fresh_pos_of_before hy
    rw [hf, before_succ_of_ne (Nat.succ_ne_zero _)] at hy
    simp [ReclaimIterator.prevSegment, hc, hlast, ← hy]

end ReclaimSet

namespace Tree

/-! ### The ends of a traversal -/

theorem leafWalk_head? (a i : Nat) (g : List (FileRange × V)) : (leafWalk a i g).head? = some (.gap a i) := by
  cases g <;> rfl

theorem leafWalk_getLast? (a : Nat) : ∀ (i : Nat) (g : List (FileRange × V)),
    (leafWalk a i g).getLast? = some (.gap a (i + g.length))
  | i, [] => rfl
  | i, x :: g => by
    simp [leafWalk, List.getLast?_cons, leafWalk_getLast? a (i + 1) g, Nat.add_assoc, Nat.add_comm 1]

theorem weave_getLast? (a : Nat) : ∀ (i : Nat) (k : Tree V) (g : List (FileRange × V)) (ks : List (Tree V)),
    ks.length = g.length → (∀ k' ∈ k :: ks, walk k' ≠ []) →
    (walk k ++ weave a i g ks).getLast? = (walk ((k :: ks).getLast (List.cons_ne_nil _ _))).getLast?
  | _, k, [], [], _, _ => by simp [weave]
  | i, k, x :: g, k' :: ks, hlen, hne => by
    have ih := weave_getLast? a (i + 1) k' g ks (by simpa using hlen) fun k'' h => hne k'' (by simp_all)
    have hne' : walk k' ++ weave a (i + 1) g ks ≠ [] := by simp [hne k' (by simp)]
    obtain ⟨y, hy⟩ := Option.ne_none_iff_exists'.mp (mt List.getLast?_eq_none_iff.mp hne')
    simp only [weave]
    rw [List.getLast?_append_of_ne_nil _ (by simp), List.getLast?_cons, hy, List.getLast_cons (List.cons_ne_nil _ _),
      ← ih, hy]
    rfl
  | _, _, [], _ :: _, hlen, _ => by simp at hlen
  | _, _, _ :: _, [], hlen, _ => by simp at hlen

theorem walk_ne_nil {h : Nat} {t : Tree V} (ht : HasHeight h t) : walk t ≠ [] := (alternates_walk h t ht).ne_nil

/-- The last place of an internal node's traversal is the last place of its last child's. -/
theorem walk_getLast?_node {h a : Nat} {g : List (FileRange × V)} {k : Tree V} {ks : List (Tree V)}
    (ht : HasHeight (h + 1) (node a g (k :: ks))) (hj : g.length < (k :: ks).length) :
    (walk (node a g (k :: ks))).getLast? = (walk (k :: ks)[g.length]).getLast? := by
  obtain ⟨hlen, hks⟩ := hasHeight_succ.mp ht
  rw [walk, weave_getLast? a 0 k g ks (by simpa using hlen) fun k' hk' => walk_ne_nil (hks k' hk'),
    List.getLast_eq_getElem]
  simp only [List.length_cons] at hlen ⊢
  simp [hlen]

theorem walk_head?_node {h a : Nat} {g : List (FileRange × V)} {k : Tree V} {ks : List (Tree V)}
    (ht : HasHeight (h + 1) (node a g (k :: ks))) : (walk (node a g (k :: ks))).head? = (walk k).head? := by
  rw [walk, List.head?_append_of_ne_nil _ (walk_ne_nil ((hasHeight_succ.mp ht).2 k (by simp)))]

/-! ### What the heap holds of a node -/

variable {s : ReclaimSet V}

theorem Rep.nrSegments {t : Tree V} {up : Option (Nat × Nat)} (h : Rep s t up) :
    (s.nodes t.id).nrSegments = t.segs.length := h.holds.nrSegments

theorem Rep.link {t : Tree V} {up : Option (Nat × Nat)} (h : Rep s t up) : (s.nodes t.id).link = up := h.holds.link

theorem Rep.child {a : Nat} {g : List (FileRange × V)} {kids : List (Tree V)} {up : Option (Nat × Nat)}
    (h : Rep s (node a g kids) up) {j : Nat} (hj : j < kids.length) :
    (s.nodes a).children j = some kids[j].id ∧ Rep s kids[j] (some (a, j)) := by
  obtain ⟨hh, hk⟩ := rep_node.mp h
  refine ⟨?_, by simpa using (repKids_iff a 0 kids).mp hk j hj⟩
  rw [hh.children j]
  simp [hj]

theorem Rep.hasChildren_leaf {a : Nat} {g : List (FileRange × V)} {up : Option (Nat × Nat)}
    (h : Rep s (node a g []) up) : (s.nodes a).hasChildren = false := by
  simpa using (rep_node.mp h).1.hasChildren

theorem Rep.hasChildren_node {a : Nat} {g : List (FileRange × V)} {k : Tree V} {ks : List (Tree V)}
    {up : Option (Nat × Nat)} (h : Rep s (node a g (k :: ks)) up) : (s.nodes a).hasChildren = true := by
  simpa using (rep_node.mp h).1.hasChildren

/-! ### Spines -/

/-- `segmentAfterPosition` from the last gap of a subtree climbs to the subtree's root, past
its last segment. -/
theorem climb_last : ∀ (h : Nat) (t : Tree V) (up : Option (Nat × Nat)), Rep s t up → HasHeight h t →
    ∀ (fuel b n : Nat), (walk t).getLast? = some (.gap b n) →
      s.segmentAfterPositionLoop (fuel + h) b n = s.segmentAfterPositionLoop fuel t.id t.segs.length
  | 0, node a g kids, up, _, ht, fuel, b, n, hl => by
    cases (ht : kids = [])
    rw [walk_leaf, leafWalk_getLast?] at hl
    cases hl
    simp
  | h + 1, node a g [], _, _, ht, _, _, _, _ => by simp [HasHeight] at ht
  | h + 1, node a g (k :: ks), up, hr, ht, fuel, b, n, hl => by
    have hj : g.length < (k :: ks).length := by simp [(hasHeight_succ.mp ht).1]
    obtain ⟨-, hrk⟩ := hr.child hj
    rw [walk_getLast?_node ht hj] at hl
    have hkh := (hasHeight_succ.mp ht).2 _ (List.getElem_mem hj)
    rw [show fuel + (h + 1) = fuel + 1 + h by omega, climb_last h _ _ hrk hkh (fuel + 1) b n hl,
      ReclaimSet.after_succ_of_up hrk.nrSegments.symm hrk.link]
    rfl

/-- `segmentBeforePosition` from the first gap of a subtree climbs to the subtree's root,
before its first segment. -/
theorem climb_first : ∀ (h : Nat) (t : Tree V) (up : Option (Nat × Nat)), Rep s t up → HasHeight h t →
    ∀ (fuel b n : Nat), (walk t).head? = some (.gap b n) →
      s.segmentBeforePositionLoop (fuel + h) b n = s.segmentBeforePositionLoop fuel t.id 0
  | 0, node a g kids, up, _, ht, fuel, b, n, hl => by
    cases (ht : kids = [])
    rw [walk_leaf, leafWalk_head?] at hl
    cases hl
    simp
  | h + 1, node a g [], _, _, ht, _, _, _, _ => by simp [HasHeight] at ht
  | h + 1, node a g (k :: ks), up, hr, ht, fuel, b, n, hl => by
    obtain ⟨-, hrk⟩ := hr.child (j := 0) (by simp)
    simp only [List.getElem_cons_zero] at hrk
    rw [walk_head?_node ht] at hl
    have hkh := (hasHeight_succ.mp ht).2 k (by simp)
    rw [show fuel + (h + 1) = fuel + 1 + h by omega, climb_first h k _ hrk hkh (fuel + 1) b n hl,
      ReclaimSet.before_succ_of_up hrk.link]
    rfl

/-- `firstSegment`'s descent from a subtree's root ends at the leaf of its first gap. -/
theorem descend_first : ∀ (h : Nat) (t : Tree V) (up : Option (Nat × Nat)), Rep s t up → HasHeight h t →
    ∀ (fuel b n : Nat), (walk t).head? = some (.gap b n) → s.descendFirst (fuel + h + 1) t.id = some b ∧ n = 0
  | 0, node a g kids, up, hr, ht, fuel, b, n, hl => by
    cases (ht : kids = [])
    rw [walk_leaf, leafWalk_head?] at hl
    cases hl
    exact ⟨ReclaimSet.descendFirst_succ_of_leaf hr.hasChildren_leaf, rfl⟩
  | h + 1, node a g [], _, _, ht, _, _, _, _ => by simp [HasHeight] at ht
  | h + 1, node a g (k :: ks), up, hr, ht, fuel, b, n, hl => by
    obtain ⟨hc, hrk⟩ := hr.child (j := 0) (by simp)
    simp only [List.getElem_cons_zero] at hc hrk
    rw [walk_head?_node ht] at hl
    rw [id_node, show fuel + (h + 1) + 1 = fuel + h + 1 + 1 by omega,
      ReclaimSet.descendFirst_succ_of_child hr.hasChildren_node hc]
    exact descend_first h k _ hrk ((hasHeight_succ.mp ht).2 k (by simp)) fuel b n hl

/-- `lastSegment`'s descent from a subtree's root ends at the leaf of its last gap. -/
theorem descend_last : ∀ (h : Nat) (t : Tree V) (up : Option (Nat × Nat)), Rep s t up → HasHeight h t →
    ∀ (fuel b n : Nat), (walk t).getLast? = some (.gap b n) →
      s.descendLast (fuel + h + 1) t.id = some b ∧ (s.nodes b).nrSegments = n
  | 0, node a g kids, up, hr, ht, fuel, b, n, hl => by
    cases (ht : kids = [])
    rw [walk_leaf, leafWalk_getLast?] at hl
    cases hl
    exact ⟨ReclaimSet.descendLast_succ_of_leaf hr.hasChildren_leaf, by simpa using hr.nrSegments⟩
  | h + 1, node a g [], _, _, ht, _, _, _, _ => by simp [HasHeight] at ht
  | h + 1, node a g (k :: ks), up, hr, ht, fuel, b, n, hl => by
    have hj : g.length < (k :: ks).length := by simp [(hasHeight_succ.mp ht).1]
    obtain ⟨hc, hrk⟩ := hr.child hj
    rw [walk_getLast?_node ht hj] at hl
    have hnr : (s.nodes a).nrSegments = g.length := hr.nrSegments
    rw [id_node, show fuel + (h + 1) + 1 = fuel + h + 1 + 1 by omega,
      ReclaimSet.descendLast_succ_of_child hr.hasChildren_node (by rw [hnr]; exact hc)]
    exact descend_last h _ _ hrk ((hasHeight_succ.mp ht).2 _ (List.getElem_mem hj)) fuel b n hl

/-- A filled tree's last leaf holds a segment. -/
theorem Filled.last_pos : ∀ (h : Nat) (t : Tree V), Filled t → HasHeight h t →
    ∀ (b n : Nat), (walk t).getLast? = some (.gap b n) → 0 < n
  | 0, node a g kids, hf, ht, b, n, hl => by
    cases (ht : kids = [])
    rw [walk_leaf, leafWalk_getLast?] at hl
    cases hl
    have := (filled_node.mp hf).1
    simp [minDegree] at this ⊢; omega
  | h + 1, node a g [], _, ht, _, _, _ => by simp [HasHeight] at ht
  | h + 1, node a g (k :: ks), hf, ht, b, n, hl => by
    have hj : g.length < (k :: ks).length := by simp [(hasHeight_succ.mp ht).1]
    rw [walk_getLast?_node ht hj] at hl
    exact Filled.last_pos h _ ((filled_node.mp hf).2.2 _ (List.getElem_mem hj))
      ((hasHeight_succ.mp ht).2 _ (List.getElem_mem hj)) b n hl

/-! ### Steps -/

/-- Two consecutive places of the traversal: each is the other's step. -/
def Steps (s : ReclaimSet V) : Pos V → Pos V → Prop
  | .gap a i, .seg b j _ => ReclaimGapIterator.nextSegment ⟨some a, i⟩ s = some ⟨some b, j⟩ ∧
      ReclaimIterator.prevGap ⟨some b, j⟩ s = some ⟨some a, i⟩
  | .seg b j _, .gap a i => ReclaimIterator.nextGap ⟨some b, j⟩ s = some ⟨some a, i⟩ ∧
      ReclaimGapIterator.prevSegment ⟨some a, i⟩ s = some ⟨some b, j⟩
  | _, _ => False

theorem chain_leafWalk {a : Nat} (hleaf : (s.nodes a).hasChildren = false) (hfresh : 0 < s.fresh) :
    ∀ (i : Nat) (g : List (FileRange × V)), i + g.length = (s.nodes a).nrSegments →
      List.Chain' (Steps s) (leafWalk a i g)
  | i, [], _ => List.chain'_singleton _
  | i, x :: g, hn => by
    simp only [List.length_cons] at hn
    obtain ⟨f, hf⟩ : ∃ f, s.fresh = f + 1 := ⟨s.fresh - 1, by omega⟩
    rw [leafWalk, List.chain'_cons, List.chain'_cons', leafWalk_head?]
    refine ⟨⟨?_, ?_⟩, fun y hy => ?_, chain_leafWalk hleaf hfresh (i + 1) g (by omega)⟩
    · simp [ReclaimGapIterator.nextSegment, ReclaimSet.segmentAfterPosition, hf,
        ReclaimSet.after_succ_of_ne (show i ≠ (s.nodes a).nrSegments by omega)]
    · simp [ReclaimIterator.prevGap, hleaf]
    · cases Option.mem_some_iff.mp hy
      exact ⟨by simp [ReclaimIterator.nextGap, hleaf], by simp [ReclaimGapIterator.prevSegment,
        ReclaimSet.segmentBeforePosition, hf, ReclaimSet.before_succ_of_ne (Nat.succ_ne_zero i)]⟩

theorem chain_weave {a h : Nat} (hint : (s.nodes a).hasChildren = true) (hfresh : h + 1 < s.fresh) :
    ∀ (i : Nat) (k : Tree V) (g : List (FileRange × V)) (ks : List (Tree V)),
      ks.length = g.length → i + g.length = (s.nodes a).nrSegments →
      (∀ j (hj : j < (k :: ks).length), (s.nodes a).children (i + j) = some (k :: ks)[j].id ∧
        Rep s (k :: ks)[j] (some (a, i + j)) ∧ HasHeight h (k :: ks)[j] ∧ Filled (k :: ks)[j] ∧
        List.Chain' (Steps s) (walk (k :: ks)[j])) →
      List.Chain' (Steps s) (walk k ++ weave a i g ks)
  | _, k, [], [], _, _, hk => by simpa [weave] using (hk 0 (by simp)).2.2.2.2
  | i, k, x :: g, k' :: ks, hlen, hn, hk => by
    simp only [List.length_cons] at hlen hn
    obtain ⟨F, hF⟩ : ∃ F, s.fresh = F + 1 + h + 1 := ⟨s.fresh - h - 2, by omega⟩
    obtain ⟨hc, hr, hh, hf, hch⟩ := hk 0 (by simp)
    obtain ⟨hc', hr', hh', -, -⟩ := hk 1 (by simp)
    simp only [List.getElem_cons_zero, List.getElem_cons_succ, Nat.add_zero] at hc hr hh hf hch hc' hr' hh'
    have ih := chain_weave hint hfresh (i + 1) k' g ks (by omega) (by omega) fun j hj => by
      simpa [Nat.add_assoc, Nat.add_comm 1] using hk (j + 1) (by simpa using hj)
    simp only [weave]
    rw [List.chain'_append, List.chain'_cons']
    obtain ⟨b, n, hlast⟩ := (alternates_walk h k hh).getLast?
    obtain ⟨b', n', hhead⟩ := (alternates_walk h k' hh').head?
    obtain ⟨hdesc', rfl⟩ := descend_first h k' _ hr' hh' (F + 1) b' n' hhead
    obtain ⟨hdesc, hnr⟩ := descend_last h k _ hr hh (F + 1) b n hlast
    have hpos := Filled.last_pos h k hf hh b n hlast
    refine ⟨hch, ⟨fun y hy => ?_, ih⟩, fun y hy z hz => ?_⟩
    · rw [List.head?_append_of_ne_nil _ (walk_ne_nil hh'), hhead] at hy
      cases Option.mem_some_iff.mp hy
      refine ⟨?_, ?_⟩
      · simp [ReclaimIterator.nextGap, ReclaimSet.firstSegment, hint, hc', hF, hdesc']
      · have hup := climb_first h k' _ hr' hh' (F + 1 + 1) b' 0 hhead
        rw [show F + 1 + 1 + h = s.fresh by omega, ReclaimSet.before_succ_of_up hr'.link,
          ReclaimSet.before_succ_of_ne (by omega : i + 1 ≠ 0)] at hup
        simp [ReclaimGapIterator.prevSegment, ReclaimSet.segmentBeforePosition, hup]
    · rw [hlast] at hy
      cases Option.mem_some_iff.mp hy
      cases Option.mem_some_iff.mp hz
      refine ⟨?_, ?_⟩
      · have hup := climb_last h k _ hr hh (F + 1 + 1) b n hlast
        rw [show F + 1 + 1 + h = s.fresh by omega, ReclaimSet.after_succ_of_up hr.nrSegments.symm hr.link,
          ReclaimSet.after_succ_of_ne (show i ≠ (s.nodes a).nrSegments by omega)] at hup
        simp [ReclaimGapIterator.nextSegment, ReclaimSet.segmentAfterPosition, hup]
      · simp [ReclaimIterator.prevGap, ReclaimSet.lastSegment, hint, hc, hF, hdesc, hnr, Nat.sub_add_cancel hpos]
  | _, _, [], _ :: _, hlen, _, _ => by simp at hlen
  | _, _, _ :: _, [], hlen, _, _ => by simp at hlen

/-- Any two consecutive places of the traversal of a stored, shaped tree whose children are
filled are each other's step. -/
theorem chain_steps : ∀ (h : Nat) (t : Tree V) (up : Option (Nat × Nat)), Rep s t up → HasHeight h t →
    (∀ k ∈ t.kids, Filled k) → h < s.fresh → List.Chain' (Steps s) (walk t)
  | 0, node a g kids, up, hr, ht, _, hfresh => by
    cases (ht : kids = [])
    rw [walk_leaf]
    exact chain_leafWalk hr.hasChildren_leaf hfresh 0 g (by simpa using hr.nrSegments.symm)
  | h + 1, node a g [], _, _, ht, _, _ => by simp [HasHeight] at ht
  | h + 1, node a g (k :: ks), up, hr, ht, hf, hfresh => by
    obtain ⟨hlen, hks⟩ := hasHeight_succ.mp ht
    rw [walk]
    refine chain_weave hr.hasChildren_node hfresh 0 k g ks (by simpa using hlen) (by simpa using hr.nrSegments.symm)
      fun j hj => ?_
    obtain ⟨hc, hrj⟩ := hr.child hj
    have hfj := hf _ (List.getElem_mem hj)
    refine ⟨by simpa using hc, by simpa using hrj, hks _ (List.getElem_mem hj), hfj,
      chain_steps h _ _ hrj (hks _ (List.getElem_mem hj)) (fun k' hk' => hfj.kid hk') (by omega)⟩

/-! ### What an iterator reads -/

/-- A segment of the traversal is what its iterator reads. -/
theorem Rep.reads : ∀ (h : Nat) (t : Tree V) (up : Option (Nat × Nat)), Rep s t up → HasHeight h t →
    ∀ {a i : Nat} {e : FileRange × V}, .seg a i e ∈ walk t →
      i < (s.nodes a).nrSegments ∧ (s.nodes a).keys i = e.1 ∧ (s.nodes a).values i = e.2
  | 0, node b g kids, up, hr, ht, a, i, e, hm => by
    cases (ht : kids = [])
    rw [walk_leaf] at hm
    rcases mem_leafWalk hm with ⟨j, -, h⟩ | ⟨j, e', he, h⟩
    · cases h
    · cases h
      simpa using hr.holds.reads he
  | h + 1, node b g [], _, _, ht, _, _, _, _ => by simp [HasHeight] at ht
  | h + 1, node b g (k :: ks), up, hr, ht, a, i, e, hm => by
    rcases mem_walk_node hm with ⟨k', hk', hm'⟩ | ⟨j, e', he, h⟩
    · obtain ⟨j, hj, rfl⟩ := List.getElem_of_mem hk'
      exact Rep.reads h _ _ (hr.child hj).2 ((hasHeight_succ.mp ht).2 _ hk') hm'
    · cases h
      exact hr.holds.reads he

/-- A gap of the traversal is a gap of a node without children. -/
theorem Rep.gap_mem : ∀ (h : Nat) (t : Tree V) (up : Option (Nat × Nat)), Rep s t up → HasHeight h t →
    ∀ {l n : Nat}, .gap l n ∈ walk t → (s.nodes l).hasChildren = false ∧ n ≤ (s.nodes l).nrSegments ∧
      (Filled t → minDegree - 1 ≤ (s.nodes l).nrSegments)
  | 0, node b g kids, up, hr, ht, l, n, hm => by
    cases (ht : kids = [])
    rw [walk_leaf] at hm
    rcases mem_leafWalk hm with ⟨j, hj, h⟩ | ⟨j, e', he, h⟩
    · cases h
      have hnr : (s.nodes b).nrSegments = g.length := hr.nrSegments
      exact ⟨hr.hasChildren_leaf, by simpa [hnr] using hj, fun hf => hnr ▸ (filled_node.mp hf).1⟩
    · cases h
  | h + 1, node b g [], _, _, ht, _, _, _ => by simp [HasHeight] at ht
  | h + 1, node b g (k :: ks), up, hr, ht, l, n, hm => by
    rcases mem_walk_node hm with ⟨k', hk', hm'⟩ | ⟨j, e', he, h⟩
    · obtain ⟨j, hj, rfl⟩ := List.getElem_of_mem hk'
      obtain ⟨h1, h2, h3⟩ := Rep.gap_mem h _ _ (hr.child hj).2 ((hasHeight_succ.mp ht).2 _ hk') hm'
      exact ⟨h1, h2, fun hf => h3 (hf.kid hk')⟩
    · cases h

/-! ### The ends of the set -/

theorem first_gap_prevSegment {h : Nat} {t : Tree V} (hr : Rep s t none) (ht : HasHeight h t) (hfresh : h < s.fresh)
    {b n : Nat} (hl : (walk t).head? = some (.gap b n)) : ReclaimGapIterator.prevSegment ⟨some b, n⟩ s = some ⟨none, 0⟩ := by
  obtain ⟨F, hF⟩ : ∃ F, s.fresh = F + 1 + h := ⟨s.fresh - h - 1, by omega⟩
  obtain ⟨-, rfl⟩ := descend_first h t none hr ht F b n hl
  have hup := climb_first h t none hr ht (F + 1) b 0 hl
  rw [← hF, ReclaimSet.before_succ_of_root hr.link] at hup
  simp [ReclaimGapIterator.prevSegment, ReclaimSet.segmentBeforePosition, hup]

theorem last_gap_nextSegment {h : Nat} {t : Tree V} (hr : Rep s t none) (ht : HasHeight h t) (hfresh : h < s.fresh)
    {b n : Nat} (hl : (walk t).getLast? = some (.gap b n)) : ReclaimGapIterator.nextSegment ⟨some b, n⟩ s = some ⟨none, 0⟩ := by
  obtain ⟨F, hF⟩ : ∃ F, s.fresh = F + 1 + h := ⟨s.fresh - h - 1, by omega⟩
  have hup := climb_last h t none hr ht (F + 1) b n hl
  rw [← hF, ReclaimSet.after_succ_of_root hr.nrSegments.symm hr.link] at hup
  simp [ReclaimGapIterator.nextSegment, ReclaimSet.segmentAfterPosition, hup]

end Tree

end Gvisor.Segment
