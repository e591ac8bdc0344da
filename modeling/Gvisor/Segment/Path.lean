import Mathlib.Data.List.Nodup
import Gvisor.Segment.Relabel
import Gvisor.Segment.Invariant

/-!
# Paths into the stored tree

The code that changes the tree changes one node, or a node and its neighbours, at the end of
a path from the root. This module says how the tree's traversal and shape split along such a
path. Every gap and every segment of the traversal is at the end of a path
(`exists_leaf_of_gap`, `exists_node_of_seg`), and a leaf's places sit in `seq` after the
segments before the path (`gapAt_plug_leaf`, `segAt_plug_leaf`); the set's iterators name
one position each (`Shape.gapAt_inj`, `Shape.segAt_inj`).

`Short s fs u` is `Shape` of the tree `plug fs u`, except that the root of `u` may hold one
segment too few, as a removal leaves it. `Short.replace` says what a new subtree in the
place of `u` must satisfy to keep it, and `Shape.short` and `Short.shape` go back and forth.
`Around s fs u` is the part of `Short` that does not bound `u` itself.
-/

set_option autoImplicit false

namespace Gvisor.Segment

variable {V : Type}

namespace Tree

/-! ### Locating a place -/

theorem plug_append (fs gs : List (Frame V)) (t : Tree V) : plug (fs ++ gs) t = plug gs (plug fs t) := by
  induction fs generalizing t with
  | nil => rfl
  | cons f fs ih => exact ih (f.fill t)

theorem plug_id_congr : ∀ (fs : List (Frame V)) {u u' : Tree V}, u'.id = u.id → (plug fs u').id = (plug fs u).id
  | [], _, _, h => h
  | _ :: fs, _, _, _ => plug_id_congr fs rfl

/-- A node is its child `m` in the place of a frame. -/
theorem fill_child {a m : Nat} {g : List (FileRange × V)} {kids : List (Tree V)} (hm : m < kids.length) :
    Frame.fill ⟨a, g, kids.take m, kids.drop (m + 1)⟩ kids[m] = node a g kids := by
  simp only [Frame.fill, List.getElem_cons_drop, List.take_append_drop]

/-- The path to child `m` of a node, extended by a frame of the node. -/
theorem plug_child {a m : Nat} {g : List (FileRange × V)} {kids : List (Tree V)} (hm : m < kids.length)
    (hlen : kids.length = g.length + 1) {fs : List (Frame V)} (hfit : ctxFits fs) {u : Tree V}
    (hu : kids[m] = plug fs u) :
    node a g kids = plug (fs ++ [⟨a, g, kids.take m, kids.drop (m + 1)⟩]) u ∧
      ctxFits (fs ++ [⟨a, g, kids.take m, kids.drop (m + 1)⟩]) := by
  refine ⟨by rw [plug_append, ← hu, plug_cons, plug_nil, fill_child hm], fun f hf => ?_⟩
  rcases List.mem_append.mp hf with hf | hf
  · exact hfit f hf
  · obtain rfl := List.mem_singleton.mp hf
    simp only [List.length_take]
    omega

/-- Every gap of the traversal is a gap of a leaf at the end of a path. -/
theorem exists_leaf_of_gap : ∀ (h : Nat) (t : Tree V), HasHeight h t → ∀ {l i : Nat}, .gap l i ∈ walk t →
    ∃ fs g, t = plug fs (node l g []) ∧ ctxFits fs ∧ i ≤ g.length
  | 0, node a g kids, ht, l, i, hm => by
    cases (ht : kids = [])
    rw [walk_leaf] at hm
    rcases mem_leafWalk hm with ⟨j, hj, h⟩ | ⟨_, _, _, h⟩
    · cases h
      exact ⟨[], g, rfl, by simp [ctxFits], by simpa using hj⟩
    · cases h
  | h + 1, node a g [], ht, _, _, _ => by simp [HasHeight] at ht
  | h + 1, node a g (k :: ks), ht, l, i, hm => by
    obtain ⟨hlen, hks⟩ := hasHeight_succ.mp ht
    rcases mem_walk_node hm with ⟨k', hk', hm'⟩ | ⟨_, _, _, h'⟩
    · obtain ⟨m, hmlt, rfl⟩ := List.getElem_of_mem hk'
      obtain ⟨fs, g', heq, hfit, hi⟩ := exists_leaf_of_gap h _ (hks _ hk') hm'
      obtain ⟨h1, h2⟩ := plug_child (a := a) hmlt hlen hfit heq
      exact ⟨_, g', h1, h2, hi⟩
    · cases h'

/-- Every segment of the traversal is a segment of the node at the end of a path. -/
theorem exists_node_of_seg : ∀ (h : Nat) (t : Tree V), HasHeight h t → ∀ {a k : Nat} {e : FileRange × V},
    .seg a k e ∈ walk t → ∃ fs g ks, t = plug fs (node a g ks) ∧ ctxFits fs ∧ g[k]? = some e
  | 0, node b g kids, ht, a, k, e, hm => by
    cases (ht : kids = [])
    rw [walk_leaf] at hm
    rcases mem_leafWalk hm with ⟨_, _, h⟩ | ⟨j, e', he, h⟩
    · cases h
    · cases h
      exact ⟨[], g, [], rfl, by simp [ctxFits], by simpa using he⟩
  | h + 1, node b g [], ht, _, _, _, _ => by simp [HasHeight] at ht
  | h + 1, node b g (k :: ks), ht, a, i, e, hm => by
    obtain ⟨hlen, hks⟩ := hasHeight_succ.mp ht
    rcases mem_walk_node hm with ⟨k', hk', hm'⟩ | ⟨j, e', he, h'⟩
    · obtain ⟨m, hmlt, rfl⟩ := List.getElem_of_mem hk'
      obtain ⟨fs, g', ks', heq, hfit, he⟩ := exists_node_of_seg h _ (hks _ hk') hm'
      obtain ⟨h1, h2⟩ := plug_child (a := b) hmlt hlen hfit heq
      exact ⟨_, g', ks', h1, h2, he⟩
    · cases h'
      exact ⟨[], g, k :: ks, rfl, by simp [ctxFits], by simpa using he⟩

/-! ### Positions along a path -/

theorem seq_plug {fs : List (Frame V)} (hfit : ctxFits fs) (u : Tree V) :
    seq (plug fs u) = segsOf (ctxBefore fs) ++ seq u ++ segsOf (ctxAfter fs) := by
  rw [seq_eq_segsOf, walk_plug fs u hfit, segsOf_append, segsOf_append, seq_eq_segsOf]

theorem length_entries_eq_segsOf (l : List (Pos V)) : (l.filterMap Pos.entry?).length = (segsOf l).length := by
  simp [segsOf]

/-- The traversal of a tree through a leaf, cut at the leaf's gap `i`. -/
theorem walk_plug_leaf_split {fs : List (Frame V)} (hfit : ctxFits fs) {l i : Nat} {g : List (FileRange × V)}
    (hi : i ≤ g.length) : ∃ pre post, walk (plug fs (node l g [])) = pre ++ .gap l i :: post ∧
      (segsOf pre).length = (segsOf (ctxBefore fs)).length + i ∧
      ∀ h : i < g.length, ∃ post', post = .seg l i g[i] :: post' := by
  obtain ⟨L, hL, hs⟩ := leafWalk_split l 0 g i hi
  have hdrop : ∃ rest, leafWalk l i (g.drop i) = .gap l i :: rest ∧
      ∀ h : i < g.length, ∃ rest', rest = .seg l i g[i] :: rest' := by
    rcases Nat.lt_or_ge i g.length with hlt | hge
    · rw [List.drop_eq_getElem_cons hlt, leafWalk]
      exact ⟨_, rfl, fun _ => ⟨_, rfl⟩⟩
    · rw [List.drop_eq_nil_of_le hge, leafWalk]
      exact ⟨[], rfl, fun h => absurd h (by omega)⟩
  obtain ⟨rest, hrest, hseg⟩ := hdrop
  refine ⟨ctxBefore fs ++ L, rest ++ ctxAfter fs, ?_, ?_, fun h => ?_⟩
  · rw [walk_plug fs _ hfit, walk_leaf, hL, Nat.zero_add, hrest]
    simp
  · simp [hs, Nat.min_eq_left hi]
  · obtain ⟨rest', rfl⟩ := hseg h
    exact ⟨rest' ++ ctxAfter fs, rfl⟩

/-- Gap `i` of a leaf comes after the segments before the path and the leaf's first `i`. -/
theorem gapAt_plug_leaf {fs : List (Frame V)} (hfit : ctxFits fs) {l i : Nat} {g : List (FileRange × V)}
    (hi : i ≤ g.length) (halt : Alternates (walk (plug fs (node l g [])))) :
    gapAt (plug fs (node l g [])) ((segsOf (ctxBefore fs)).length + i) = ⟨some l, i⟩ := by
  obtain ⟨pre, post, hw, hlen, -⟩ := walk_plug_leaf_split hfit hi
  have hg := halt.gaps_before_gap hw
  rw [length_entries_eq_segsOf, hlen] at hg
  refine gapAt_of_getElem? ?_
  rw [gapIters, hw, List.filterMap_append, List.getElem?_append_right (by omega), hg, Nat.sub_self]
  simp

/-- Segment `i` of a leaf comes after the segments before the path and the leaf's first `i`. -/
theorem segAt_plug_leaf {fs : List (Frame V)} (hfit : ctxFits fs) {a i : Nat} {g : List (FileRange × V)}
    (hi : i < g.length) : segAt (plug fs (node a g [])) ((segsOf (ctxBefore fs)).length + i) = ⟨some a, i⟩ := by
  obtain ⟨pre, post, hw, hlen, hpost⟩ := walk_plug_leaf_split (l := a) hfit hi.le
  obtain ⟨post', rfl⟩ := hpost hi
  refine segAt_of_getElem? ?_
  have hpre : ((pre ++ [Pos.gap a i]).filterMap Pos.entry?).length = (segsOf (ctxBefore fs)).length + i := by
    rw [length_entries_eq_segsOf, segsOf_append, List.length_append, hlen]
    rfl
  have hw' : walk (plug fs (node a g [])) = (pre ++ [Pos.gap a i]) ++ .seg a i g[i] :: post' := by simp [hw]
  rw [segIters, entries, hw', List.filterMap_append, List.getElem?_map, List.getElem?_append_right hpre.le, hpre,
    Nat.sub_self]
  simp

/-! ### Iterators name one position each -/

section Inj

variable {s : ReclaimSet V} {t : Tree V}

theorem Shape.gapAt_inj (hi : Shape s t) {j j' : Nat} (hj : j ≤ (seq t).length) (hj' : j' ≤ (seq t).length)
    (h : gapAt t j = gapAt t j') : j = j' := by
  -- the gaps after equal gaps are equal, up to the last gap, whose next is terminal
  wlog hlt : j < j' generalizing j j'
  · rcases Nat.lt_or_ge j' j with h' | h'
    · exact (this hj' hj h.symm h').symm
    · omega
  have hrun : ∀ m, j' + m ≤ (seq t).length → gapAt t (j + m) = gapAt t (j' + m) := by
    intro m
    induction m with
    | zero => intro _; exact h
    | succ m ih =>
      intro hm
      have h1 := (hi.gap_steps (j := j + m) (by omega)).2.2.1
      have h2 := (hi.gap_steps (j := j' + m) (by omega)).2.2.1
      rw [ih (by omega), h2] at h1
      exact Option.some.inj h1.symm
  have hlast := hrun ((seq t).length - j') (by omega)
  have h1 := (hi.gap_steps (j := j + ((seq t).length - j')) (by omega)).2.2.1
  rw [hlast, Nat.add_sub_cancel' hj', (hi.gap_steps le_rfl).2.2.1, gapAt_of_lt hi (by omega)] at h1
  obtain ⟨l, i, hg, -⟩ := hi.gapAt_mem (j := j + ((seq t).length - j') + 1) (by omega)
  rw [hg] at h1
  cases h1

theorem Shape.segAt_inj (hi : Shape s t) {j j' : Nat} (hj : j < (seq t).length) (hj' : j' < (seq t).length)
    (h : segAt t j = segAt t j') : j = j' := by
  wlog hlt : j < j' generalizing j j'
  · rcases Nat.lt_or_ge j' j with h' | h'
    · exact (this hj' hj h.symm h').symm
    · omega
  have hrun : ∀ m, j' + m < (seq t).length → segAt t (j + m) = segAt t (j' + m) := by
    intro m
    induction m with
    | zero => intro _; exact h
    | succ m ih =>
      intro hm
      have h1 := (hi.seg_steps (j := j + m) (by omega)).1
      have h2 := (hi.seg_steps (j := j' + m) (by omega)).1
      rw [ih (by omega), h2] at h1
      exact Option.some.inj h1.symm
  have hlast := hrun ((seq t).length - 1 - j') (by omega)
  have h1 := (hi.seg_steps (j := j + ((seq t).length - 1 - j')) (by omega)).1
  rw [hlast, (hi.seg_steps (j := j' + ((seq t).length - 1 - j')) (by omega)).1,
    segAt_of_le (by omega : (seq t).length ≤ j' + ((seq t).length - 1 - j') + 1)] at h1
  obtain ⟨b, k, hs, -⟩ := hi.reads (j := j + ((seq t).length - 1 - j') + 1) (by omega)
  rw [hs] at h1
  cases h1

end Inj

/-! ### The shape around a path -/

/-- The nodes of a path hold between one and `maxDegree - 1` segments, at least
`minDegree - 1` below the root, and the subtrees beside the path are filled. -/
def CtxFilled : List (Frame V) → Prop
  | [] => True
  | f :: fs => (∀ k ∈ f.left ++ f.right, Filled k) ∧ 0 < f.segs.length ∧ f.segs.length ≤ maxDegree - 1 ∧
      (fs ≠ [] → minDegree - 1 ≤ f.segs.length) ∧ CtxFilled fs

theorem filled_fill {f : Frame V} {u : Tree V} :
    Filled (f.fill u) ↔ minDegree - 1 ≤ f.segs.length ∧ f.segs.length ≤ maxDegree - 1 ∧
      (∀ k ∈ f.left ++ f.right, Filled k) ∧ Filled u := by
  simp only [Frame.fill, filled_node, List.mem_append, List.mem_cons]
  constructor
  · rintro ⟨h1, h2, h3⟩
    exact ⟨h1, h2, fun k hk => h3 k (by tauto), h3 u (by tauto)⟩
  · rintro ⟨h1, h2, h3, h4⟩
    refine ⟨h1, h2, fun k hk => ?_⟩
    rcases hk with hk | rfl | hk
    · exact h3 k (.inl hk)
    · exact h4
    · exact h3 k (.inr hk)

/-- Below a path, the root's bounds and the filled subtrees of `Shape` are the path's bounds
and a filled subtree at its end. -/
theorem rootFilled_plug : ∀ (fs : List (Frame V)) (u : Tree V), fs ≠ [] →
    ((∀ k ∈ (plug fs u).kids, Filled k) ∧ (plug fs u).segs.length ≤ maxDegree - 1 ∧
      ((plug fs u).segs = [] → (plug fs u).kids = []) ↔ CtxFilled fs ∧ Filled u)
  | [], _, h => absurd rfl h
  | [f], u, _ => by
    simp only [plug_cons, plug_nil, CtxFilled, Frame.fill, kids_node, segs_node, List.mem_append, List.mem_cons,
      ne_eq, not_true_eq_false, false_implies, and_true, List.append_eq_nil, reduceCtorEq, and_false, imp_false,
      List.length_pos]
    constructor
    · rintro ⟨h1, h2, h3⟩
      exact ⟨⟨fun k hk => h1 k (by tauto), h3, h2⟩, h1 u (by tauto)⟩
    · rintro ⟨⟨h1, h2, h3⟩, h4⟩
      refine ⟨fun k hk => ?_, h3, h2⟩
      rcases hk with hk | rfl | hk
      · exact h1 k (.inl hk)
      · exact h4
      · exact h1 k (.inr hk)
  | f :: g :: gs, u, _ => by
    rw [plug_cons, rootFilled_plug (g :: gs) (f.fill u) (List.cons_ne_nil _ _), filled_fill, CtxFilled]
    have : minDegree - 1 ≤ f.segs.length → 0 < f.segs.length := fun h => by simp [minDegree] at h; omega
    constructor
    · rintro ⟨hc, h1, h2, h3, h4⟩
      exact ⟨⟨h3, this h1, h2, fun _ => h1, hc⟩, h4⟩
    · rintro ⟨⟨h3, -, h2, h1, hc⟩, h4⟩
      exact ⟨hc, h1 (List.cons_ne_nil _ _), h2, h3, h4⟩

theorem hasHeight_plug_congr : ∀ (fs : List (Frame V)) {u u' : Tree V} {h : Nat}, HasHeight h (plug fs u) →
    (∀ n, HasHeight n u → HasHeight n u') → HasHeight h (plug fs u')
  | [], _, _, _, hh, hu => hu _ hh
  | f :: fs, u, u', h, hh, hu => by
    refine hasHeight_plug_congr fs hh fun n hn => ?_
    obtain ⟨a, g, L, R⟩ := f
    cases n with
    | zero => simp [Frame.fill, HasHeight] at hn
    | succ n =>
      simp only [Frame.fill, hasHeight_succ, List.length_append, List.length_cons, List.mem_append,
        List.mem_cons] at hn ⊢
      refine ⟨hn.1, fun k hk => ?_⟩
      rcases hk with hk | rfl | hk
      · exact hn.2 k (.inl hk)
      · exact hu n (hn.2 _ (.inr (.inl rfl)))
      · exact hn.2 k (.inr (.inr hk))

/-- `Shape` of the tree `plug fs u`, except that the root of `u` may hold one segment too few:
what a removal leaves for `rebalanceAfterRemove`. -/
structure Short (s : ReclaimSet V) (fs : List (Frame V)) (u : Tree V) : Prop where
  rep : Rep s (plug fs u) none
  root : (plug fs u).id = 0
  fits : ctxFits fs
  height : ∃ h, HasHeight h (plug fs u) ∧ h < s.fresh
  ctx : CtxFilled fs
  kids : ∀ k ∈ u.kids, Filled k
  size : u.segs.length ≤ maxDegree - 1
  short : fs ≠ [] → minDegree - 2 ≤ u.segs.length
  rootEmpty : fs = [] → u.segs = [] → u.kids = []
  nodup : (ids (plug fs u)).Nodup
  fresh : ∀ b ∈ ids (plug fs u), b < s.fresh

section Short

variable {s s' : ReclaimSet V} {fs : List (Frame V)} {u u' : Tree V}

theorem Shape.short (hs : Shape s (plug fs u)) (hfit : ctxFits fs) : Short s fs u := by
  rcases eq_or_ne fs [] with rfl | hne
  · exact ⟨hs.rep, hs.root, hfit, hs.height, trivial, hs.filled, hs.rootSize, fun h => absurd rfl h,
      fun _ => hs.rootEmpty, hs.nodup, hs.fresh⟩
  · obtain ⟨hc, hu⟩ := (rootFilled_plug fs u hne).mp ⟨hs.filled, hs.rootSize, hs.rootEmpty⟩
    obtain ⟨hmin, hmax, hk⟩ := filled_node.mp (show Filled (node u.id u.segs u.kids) by cases u; exact hu)
    exact ⟨hs.rep, hs.root, hfit, hs.height, hc, hk, hmax, fun _ => by omega, fun h => absurd h hne, hs.nodup,
      hs.fresh⟩

theorem Short.shape (h : Short s fs u) (hmin : fs ≠ [] → minDegree - 1 ≤ u.segs.length) : Shape s (plug fs u) := by
  rcases eq_or_ne fs [] with rfl | hne
  · exact ⟨h.rep, h.root, h.height, h.size, h.rootEmpty rfl, h.kids, h.nodup, h.fresh⟩
  · have hu : Filled u := by
      cases u
      exact filled_node.mpr ⟨hmin hne, h.size, h.kids⟩
    obtain ⟨h1, h2, h3⟩ := (rootFilled_plug fs u hne).mpr ⟨h.ctx, hu⟩
    exact ⟨h.rep, h.root, h.height, h2, h3, h1, h.nodup, h.fresh⟩

/-- What `Short` says of the tree around the subtree `u`, without `u`'s own bounds: what a step
of `rebalanceAfterRemove` keeps of the path above the node it repairs. -/
structure Around (s : ReclaimSet V) (fs : List (Frame V)) (u : Tree V) : Prop where
  rep : Rep s (plug fs u) none
  root : (plug fs u).id = 0
  fits : ctxFits fs
  height : ∃ h, HasHeight h (plug fs u) ∧ h < s.fresh
  ctx : CtxFilled fs
  nodup : (ids (plug fs u)).Nodup
  fresh : ∀ b ∈ ids (plug fs u), b < s.fresh

theorem Short.around (h : Short s fs u) : Around s fs u :=
  ⟨h.rep, h.root, h.fits, h.height, h.ctx, h.nodup, h.fresh⟩

theorem Around.short (h : Around s fs u) (hkids : ∀ k ∈ u.kids, Filled k) (hsize : u.segs.length ≤ maxDegree - 1)
    (hshort : fs ≠ [] → minDegree - 2 ≤ u.segs.length) (hempty : fs = [] → u.segs = [] → u.kids = []) :
    Short s fs u :=
  ⟨h.rep, h.root, h.fits, h.height, h.ctx, hkids, hsize, hshort, hempty, h.nodup, h.fresh⟩

/-- The tree around a node's child is the tree around the node, one frame up. -/
theorem Around.up {f : Frame V} (h : Around s (f :: fs) u) : Around s fs (f.fill u) :=
  ⟨h.rep, h.root, fun g hg => h.fits g (List.mem_cons_of_mem _ hg), h.height, h.ctx.2.2.2.2, h.nodup, h.fresh⟩

/-- A new subtree in the place of `u` keeps the tree around it when it has the same address and
height, is stored with the link `u` had, and its new nodes are fresh, while the heap keeps the
nodes of the path. -/
theorem Around.replace (h : Around s fs u) (hid : u'.id = u.id) (hctx : ∀ x ∈ ctxIds fs, s'.nodes x = s.nodes x)
    (hrep : Rep s' u' (linkTo fs)) (hh : ∀ n, HasHeight n u → HasHeight n u') (hnodup : (ids u').Nodup)
    (hnew : ∀ x ∈ ids u', x ∈ ids u ∨ s.fresh ≤ x) (hfresh : ∀ x ∈ ids u', x < s'.fresh) (hle : s.fresh ≤ s'.fresh) :
    Around s' fs u' := by
  have hperm := ids_plug_perm fs u
  have hnd : (ctxIds fs ++ ids u).Nodup := hperm.nodup_iff.mp h.nodup
  have hlt : ∀ x ∈ ctxIds fs, x < s.fresh := fun x hx => h.fresh x (hperm.mem_iff.mpr (List.mem_append_left _ hx))
  obtain ⟨hrc, -⟩ := (rep_plug fs u).mp h.rep
  obtain ⟨n, hn, hnf⟩ := h.height
  refine ⟨(rep_plug fs u').mpr ⟨hid ▸ (repCtx_congr fs u.id hctx).mpr hrc, hrep⟩, (plug_id_congr fs hid).trans h.root,
    h.fits, ⟨n, hasHeight_plug_congr fs hn hh, by omega⟩, h.ctx, ?_, fun x hx => ?_⟩
  · refine (ids_plug_perm fs u').nodup_iff.mpr (List.nodup_append.mpr ⟨(List.nodup_append.mp hnd).1, hnodup,
      fun x hx hy => ?_⟩)
    rcases hnew x hy with hy | hy
    · exact (List.nodup_append.mp hnd).2.2 hx hy
    · exact absurd (hlt x hx) (by omega)
  · rcases List.mem_append.mp ((ids_plug_perm fs u').mem_iff.mp hx) with hx | hx
    · exact lt_of_lt_of_le (hlt x hx) hle
    · exact hfresh x hx

/-- A new subtree in the place of `u` keeps `Short` when it has the same address, height and
bounds, is stored with the link `u` had, and its new nodes are fresh, while the heap keeps
the nodes of the path. -/
theorem Short.replace (h : Short s fs u) (hid : u'.id = u.id) (hctx : ∀ x ∈ ctxIds fs, s'.nodes x = s.nodes x)
    (hrep : Rep s' u' (linkTo fs)) (hh : ∀ n, HasHeight n u → HasHeight n u') (hkids : ∀ k ∈ u'.kids, Filled k)
    (hsize : u'.segs.length ≤ maxDegree - 1) (hshort : fs ≠ [] → minDegree - 2 ≤ u'.segs.length)
    (hempty : fs = [] → u'.segs = [] → u'.kids = []) (hnodup : (ids u').Nodup)
    (hnew : ∀ x ∈ ids u', x ∈ ids u ∨ s.fresh ≤ x) (hfresh : ∀ x ∈ ids u', x < s'.fresh) (hle : s.fresh ≤ s'.fresh) :
    Short s' fs u' :=
  (h.around.replace hid hctx hrep hh hnodup hnew hfresh hle).short hkids hsize hshort hempty

end Short

end Tree

end Gvisor.Segment
