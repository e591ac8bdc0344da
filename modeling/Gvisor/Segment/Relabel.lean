import Gvisor.Segment.Tree

/-!
# Rebalancing renames the places of the traversal

Splitting a full node moves segments and gaps to other nodes and indices but keeps their
order: the traversal after the split is the one before it with its places renamed, gaps by
one map and segments by another (`Pos.relabel`). So a split keeps `seq`, and a gap iterator
follows its gap by the gap map (`iters_of_relabel`). `walkAt` is the traversal of a node from
a given index on, the piece a split cuts a node's traversal into (`walkAt_split`).
`walk_splitNode` and `walk_splitChild` give the traversal after the root split and the split
of a child of `rebalanceBeforeInsert`.
-/

set_option autoImplicit false

namespace Gvisor.Segment

variable {V : Type}

namespace Pos

/-- The address of the node a place lies in. -/
def node : Pos V → Nat
  | gap a _ => a
  | seg a _ _ => a

/-- Renames a place: a gap by `σ`, a segment by `τ`. -/
def relabel (σ τ : Nat × Nat → Nat × Nat) : Pos V → Pos V
  | gap a i => gap (σ (a, i)).1 (σ (a, i)).2
  | seg a i e => seg (τ (a, i)).1 (τ (a, i)).2 e

variable {σ τ : Nat × Nat → Nat × Nat}

@[simp] theorem node_gap (a i : Nat) : (gap a i : Pos V).node = a := rfl
@[simp] theorem node_seg (a i : Nat) (e : FileRange × V) : (seg a i e).node = a := rfl

@[simp] theorem relabel_gap (a i : Nat) : (gap a i : Pos V).relabel σ τ = gap (σ (a, i)).1 (σ (a, i)).2 := rfl
@[simp] theorem relabel_seg (a i : Nat) (e : FileRange × V) :
    (seg a i e).relabel σ τ = seg (τ (a, i)).1 (τ (a, i)).2 e := rfl

theorem gap?_relabel (p : Pos V) : (p.relabel σ τ).gap? = p.gap?.map σ := by
  cases p <;> rfl

theorem entry?_relabel (p : Pos V) : (p.relabel σ τ).entry? = p.entry?.map fun x => (τ x.1, x.2) := by
  cases p <;> rfl

/-- A place whose node both maps leave alone keeps its name. -/
theorem relabel_of_fixed {p : Pos V} (h : ∀ i, σ (p.node, i) = (p.node, i) ∧ τ (p.node, i) = (p.node, i)) :
    p.relabel σ τ = p := by
  cases p with
  | gap a i => have h1 : σ (a, i) = (a, i) := (h i).1; simp [h1]
  | seg a i e => have h1 : τ (a, i) = (a, i) := (h i).2; simp [h1]

end Pos

namespace Tree

variable {σ τ : Nat × Nat → Nat × Nat}

/-- Renaming places keeps the segments, and maps the iterators of gaps and segments. -/
theorem iters_of_relabel {t t' : Tree V} (h : walk t' = (walk t).map (Pos.relabel σ τ)) :
    seq t' = seq t ∧ gapIters t' = (gapIters t).map σ ∧ segIters t' = (segIters t).map τ := by
  have he : entries t' = (entries t).map fun x => (τ x.1, x.2) := by
    simp only [entries, h, List.filterMap_map, List.map_filterMap]
    exact List.filterMap_congr fun p _ => Pos.entry?_relabel p
  refine ⟨by simp [seq, he], ?_, by simp [segIters, he]⟩
  simp only [gapIters, h, List.filterMap_map, List.map_filterMap]
  exact List.filterMap_congr fun p _ => Pos.gap?_relabel p

/-! ### The nodes of places -/

mutual
/-- Every place of a traversal lies in a node of the tree. -/
theorem node_mem_ids : ∀ (t : Tree V) {p : Pos V}, p ∈ walk t → p.node ∈ ids t
  | node a g [], p, h => by
    rw [walk_leaf] at h
    rcases mem_leafWalk h with ⟨j, -, rfl⟩ | ⟨j, e, -, rfl⟩ <;> simp [ids]
  | node a g (k :: ks), p, h => by
    simp only [walk, List.mem_append] at h
    rcases h with h | h
    · simp [ids, idsList, node_mem_ids k h]
    · rcases node_mem_weave a 0 g ks h with h | h <;> simp [ids, idsList, h]

theorem node_mem_weave : ∀ (a i : Nat) (g : List (FileRange × V)) (ks : List (Tree V)) {p : Pos V},
    p ∈ weave a i g ks → p.node = a ∨ p.node ∈ idsList ks
  | a, i, x :: g, k :: ks, p, h => by
    simp only [weave, List.mem_cons, List.mem_append] at h
    rcases h with rfl | h | h
    · simp
    · simp [idsList, node_mem_ids k h]
    · rcases node_mem_weave a (i + 1) g ks h with h | h <;> simp [idsList, h]
  | _, _, [], _, _, h => by simp [weave] at h
  | _, _, _ :: _, [], _, h => by simp [weave] at h
end

theorem mem_idsList {c : Nat} : ∀ {ks : List (Tree V)}, c ∈ idsList ks ↔ ∃ k ∈ ks, c ∈ ids k
  | [] => by simp [idsList]
  | k :: ks => by simp [idsList, mem_idsList]

/-- Both maps leave the places of node `c` alone. -/
def Fixes (σ τ : Nat × Nat → Nat × Nat) (c : Nat) : Prop := ∀ i, σ (c, i) = (c, i) ∧ τ (c, i) = (c, i)

/-- A tree whose nodes the maps leave alone keeps its traversal. -/
theorem walk_relabel_of_fixes {t : Tree V} (h : ∀ c ∈ ids t, Fixes σ τ c) : (walk t).map (Pos.relabel σ τ) = walk t :=
  (List.map_congr_left fun _ hp => Pos.relabel_of_fixed (h _ (node_mem_ids t hp))).trans (List.map_id _)

theorem node_mem_before (f : Frame V) {p : Pos V} (h : p ∈ f.before) : p.node = f.id ∨ p.node ∈ idsList f.left := by
  obtain ⟨a, g, left, right⟩ := f
  cases left with
  | nil => simp [Frame.before] at h
  | cons k ks =>
    simp only [Frame.before, List.mem_append, List.mem_map] at h
    rcases h with (h | h) | ⟨x, -, rfl⟩
    · simp [idsList, node_mem_ids k h]
    · rcases node_mem_weave a 0 g ks h with h | h <;> simp [idsList, h]
    · simp

theorem node_mem_after (f : Frame V) {p : Pos V} (h : p ∈ f.after) : p.node = f.id ∨ p.node ∈ idsList f.right :=
  node_mem_weave _ _ _ _ h

theorem node_mem_ctx : ∀ (fs : List (Frame V)) {p : Pos V}, p ∈ ctxBefore fs ∨ p ∈ ctxAfter fs → p.node ∈ ctxIds fs
  | [], _, h => by simp [ctxBefore, ctxAfter] at h
  | f :: fs, p, h => by
    simp only [ctxBefore, ctxAfter, List.mem_append] at h
    have hf := fun h' => node_mem_ctx fs (p := p) h'
    rcases h with (h | h) | (h | h)
    · simp [ctxIds, hf (.inl h)]
    · rcases node_mem_before f h with h | h <;> simp [ctxIds, h]
    · rcases node_mem_after f h with h | h <;> simp [ctxIds, h]
    · simp [ctxIds, hf (.inr h)]

/-- Renaming inside a subtree, with the path to it left alone, renames inside the tree. -/
theorem walk_plug_relabel {fs : List (Frame V)} (hfit : ctxFits fs) (hfix : ∀ c ∈ ctxIds fs, Fixes σ τ c)
    {u u' : Tree V} (h : (walk u).map (Pos.relabel σ τ) = walk u') :
    (walk (plug fs u)).map (Pos.relabel σ τ) = walk (plug fs u') := by
  have hctx : ∀ l : List (Pos V), (∀ p ∈ l, p ∈ ctxBefore fs ∨ p ∈ ctxAfter fs) → l.map (Pos.relabel σ τ) = l :=
    fun l hl => (List.map_congr_left fun p hp => Pos.relabel_of_fixed (hfix _ (node_mem_ctx fs (hl p hp)))).trans
      (List.map_id _)
  rw [walk_plug fs u hfit, walk_plug fs u' hfit, List.map_append, List.map_append, h,
    hctx _ fun p hp => .inl hp, hctx _ fun p hp => .inr hp]

/-! ### A node's traversal from an index -/

/-- The traversal of node `a` with the segments `g`, numbered from `d`, and the children `ks`:
the gaps and segments of a leaf, or a first child followed by separators and children. -/
def walkAt (a d : Nat) (g : List (FileRange × V)) : List (Tree V) → List (Pos V)
  | [] => leafWalk a d g
  | k :: ks => walk k ++ weave a d g ks

theorem walk_eq_walkAt (a : Nat) (g : List (FileRange × V)) (ks : List (Tree V)) :
    walk (node a g ks) = walkAt a 0 g ks := by
  cases ks <;> simp [walk, walkAt]

theorem leafWalk_append_cons (a : Nat) (e : FileRange × V) (g2 : List (FileRange × V)) :
    ∀ (d : Nat) (g1 : List (FileRange × V)),
    leafWalk a d (g1 ++ e :: g2) = leafWalk a d g1 ++ .seg a (d + g1.length) e :: leafWalk a (d + g1.length + 1) g2
  | d, [] => by simp [leafWalk]
  | d, x :: g1 => by
    simp [leafWalk, leafWalk_append_cons a e g2 (d + 1) g1, Nat.add_assoc, Nat.add_comm 1]

/-- Separators past the children are not visited. -/
theorem weave_append_segs (a : Nat) (g' : List (FileRange × V)) : ∀ (i : Nat) (g : List (FileRange × V))
    (ks : List (Tree V)), ks.length ≤ g.length → weave a i (g ++ g') ks = weave a i g ks
  | _, _, [], _ => by cases ‹List (FileRange × V)› <;> cases g' <;> simp [weave]
  | i, x :: g, k :: ks, h => by
    simp [weave, weave_append_segs a g' (i + 1) g ks (by simpa using h)]
  | _, [], _ :: _, h => by simp at h

/-- A node's traversal splits at a segment into the traversals before and after it. -/
theorem walkAt_split (a d : Nat) {g1 g2 : List (FileRange × V)} (e : FileRange × V) {ks1 ks2 : List (Tree V)}
    (hks : ks1 = [] ∧ ks2 = [] ∨ ks1.length = g1.length + 1 ∧ ks2 ≠ []) :
    walkAt a d (g1 ++ e :: g2) (ks1 ++ ks2) =
      walkAt a d g1 ks1 ++ .seg a (d + g1.length) e :: walkAt a (d + g1.length + 1) g2 ks2 := by
  rcases hks with ⟨rfl, rfl⟩ | ⟨hlen, hne⟩
  · exact leafWalk_append_cons a e g2 d g1
  · obtain ⟨k0, ks1, rfl⟩ := List.exists_cons_of_length_eq_add_one hlen
    obtain ⟨k, ks2, rfl⟩ := List.exists_cons_of_ne_nil hne
    have hl : ks1.length = g1.length := by simpa using hlen
    simp only [walkAt, List.cons_append, List.append_assoc]
    rw [weave_append a d _ ks1 _ (by simp; omega), weave_append_segs a _ d g1 ks1 hl.le, hl,
      List.drop_left]
    simp [weave]

theorem leafWalk_relabel {a b : Nat} : ∀ {d d' : Nat} {g : List (FileRange × V)},
    (∀ x ≤ g.length, σ (a, d + x) = (b, d' + x)) → (∀ x < g.length, τ (a, d + x) = (b, d' + x)) →
    (leafWalk a d g).map (Pos.relabel σ τ) = leafWalk b d' g
  | d, d', [], hσ, _ => by
    have h0 : σ (a, d) = (b, d') := hσ 0 le_rfl
    simp [leafWalk, h0]
  | d, d', x :: g, hσ, hτ => by
    have ih : (leafWalk a (d + 1) g).map (Pos.relabel σ τ) = leafWalk b (d' + 1) g := leafWalk_relabel
      (fun y hy => by simpa [Nat.add_assoc, Nat.add_comm 1] using hσ (y + 1) (by simp; omega))
      (fun y hy => by simpa [Nat.add_assoc, Nat.add_comm 1] using hτ (y + 1) (by simp; omega))
    have h0 : σ (a, d) = (b, d') := hσ 0 (Nat.zero_le _)
    have h1 : τ (a, d) = (b, d') := hτ 0 (by simp)
    simp [leafWalk, ih, h0, h1]

theorem weave_relabel {a b : Nat} : ∀ {d d' : Nat} {g : List (FileRange × V)} {ks : List (Tree V)},
    (∀ x < ks.length, τ (a, d + x) = (b, d' + x)) → (∀ k ∈ ks, (walk k).map (Pos.relabel σ τ) = walk k) →
    (weave a d g ks).map (Pos.relabel σ τ) = weave b d' g ks
  | _, _, [], _, _, _ => by simp [weave]
  | _, _, _ :: _, [], _, _ => by simp [weave]
  | d, d', x :: g, k :: ks, hτ, hks => by
    have ih : (weave a (d + 1) g ks).map (Pos.relabel σ τ) = weave b (d' + 1) g ks := weave_relabel
      (fun y hy => by simpa [Nat.add_assoc, Nat.add_comm 1] using hτ (y + 1) (by simp; omega))
      (fun k' hk' => hks k' (by simp [hk']))
    have h0 : τ (a, d) = (b, d') := hτ 0 (by simp)
    simp [weave, ih, hks k (by simp), h0]

/-- Renaming a node's places, numbered from `d`, to those of node `b`, from `d'`. -/
theorem walkAt_relabel {a b d d' : Nat} {g : List (FileRange × V)} {ks : List (Tree V)}
    (hσ : ∀ x ≤ g.length, σ (a, d + x) = (b, d' + x)) (hτ : ∀ x < g.length, τ (a, d + x) = (b, d' + x))
    (hks : ∀ k ∈ ks, (walk k).map (Pos.relabel σ τ) = walk k) (hlen : ks = [] ∨ ks.length = g.length + 1) :
    (walkAt a d g ks).map (Pos.relabel σ τ) = walkAt b d' g ks := by
  rcases hlen with rfl | hlen
  · exact leafWalk_relabel hσ hτ
  · obtain ⟨k, ks, rfl⟩ := List.exists_cons_of_length_eq_add_one hlen
    simp only [walkAt, List.map_append, hks k (by simp)]
    exact congrArg _ (weave_relabel (fun x hx => hτ x (by simp at hlen; omega)) fun k' hk' => hks k' (by simp [hk']))

/-! ### Splits -/

/-- Gap labels after node `a` splits at its segment `m` into nodes `l` and `r`. -/
def splitGap (a m l r : Nat) (x : Nat × Nat) : Nat × Nat :=
  if x.1 = a then (if x.2 ≤ m then (l, x.2) else (r, x.2 - (m + 1))) else x

/-- Segment labels after node `a` splits at its segment `m` into nodes `l` and `r`, the
segment `m` going to index `k` of node `p`, whose segments from `k` on move one up. -/
def splitSeg (a m l r p k : Nat) (x : Nat × Nat) : Nat × Nat :=
  if x.1 = a then (if x.2 < m then (l, x.2) else if x.2 = m then (p, k) else (r, x.2 - (m + 1)))
  else if x.1 = p ∧ k ≤ x.2 then (p, x.2 + 1) else x

theorem splitSeg_shift {a m l r p k i : Nat} (hpa : p ≠ a) (hk : k ≤ i) : splitSeg a m l r p k (p, i) = (p, i + 1) := by
  simp [splitSeg, hpa, hk]

theorem splitSeg_below {a m l r p k i : Nat} (hpa : p ≠ a) (hk : i < k) : splitSeg a m l r p k (p, i) = (p, i) := by
  simp [splitSeg, hpa]; omega

theorem fixes_split {a m l r p k c : Nat} (ha : c ≠ a) (hp : c ≠ p) : Fixes (splitGap a m l r) (splitSeg a m l r p k) c :=
  fun i => by simp [splitGap, splitSeg, ha, hp]

/-- A node split at its segment `m` is its lower half, that segment, and its upper half. -/
theorem walk_splitNode {a m l r p k : Nat} {g1 g2 : List (FileRange × V)} {e : FileRange × V}
    {ks1 ks2 : List (Tree V)} (hm : g1.length = m)
    (hks : ks1 = [] ∧ ks2 = [] ∨ ks1.length = g1.length + 1 ∧ ks2.length = g2.length + 1)
    (hfix : ∀ c ∈ idsList (ks1 ++ ks2), c ≠ a ∧ c ≠ p) :
    (walk (node a (g1 ++ e :: g2) (ks1 ++ ks2))).map (Pos.relabel (splitGap a m l r) (splitSeg a m l r p k)) =
      walk (node l g1 ks1) ++ .seg p k e :: walk (node r g2 ks2) := by
  subst hm
  have hks' : ∀ k' ∈ ks1 ++ ks2, (walk k').map (Pos.relabel (splitGap a g1.length l r) (splitSeg a g1.length l r p k)) =
      walk k' := fun k' hk' => walk_relabel_of_fixes fun c hc =>
    have h := hfix c (mem_idsList.mpr ⟨k', hk', hc⟩)
    fixes_split h.1 h.2
  have hne : ks1 = [] ∧ ks2 = [] ∨ ks1.length = g1.length + 1 ∧ ks2 ≠ [] := by
    rcases hks with h | ⟨h1, h2⟩
    · exact .inl h
    · exact .inr ⟨h1, fun h => by simp [h] at h2⟩
  rw [walk_eq_walkAt, walkAt_split a 0 e hne, List.map_append, List.map_cons, walk_eq_walkAt, walk_eq_walkAt]
  congr 1
  · refine walkAt_relabel (fun x hx => ?_) (fun x hx => ?_) (fun k' hk' => hks' k' (by simp [hk']))
      (hks.imp (·.1) (·.1))
    · simp [splitGap, hx]
    · simp [splitSeg, hx]
  · simp only [Pos.relabel_seg, Nat.zero_add]
    congr 1
    · simp [splitSeg]
    · refine walkAt_relabel (fun x _ => ?_) (fun x _ => ?_) (fun k' hk' => hks' k' (by simp [hk']))
        (hks.imp (·.2) (·.2))
      · simp [splitGap]; omega
      · simp only [splitSeg, if_true]
        rw [if_neg (by omega), if_neg (by omega)]
        simp

/-- A node's traversal around its child at index `k`: a part `B` that depends only on the
children and separators before it, the child's traversal, and the separators and children
after it. -/
theorem walkAt_child (p d : Nat) (g : List (FileRange × V)) (L : List (Tree V)) (h : L.length = g.length) :
    ∃ B : List (Pos V), (∀ g' u R, walkAt p d (g ++ g') (L ++ u :: R) = B ++ walk u ++ weave p (d + L.length) g' R) ∧
      ∀ σ τ : Nat × Nat → Nat × Nat, (∀ c ∈ idsList L, Fixes σ τ c) → (∀ j < d + L.length, τ (p, j) = (p, j)) →
        B.map (Pos.relabel σ τ) = B := by
  cases L with
  | nil =>
    obtain rfl : g = [] := List.eq_nil_of_length_eq_zero (by simpa using h.symm)
    exact ⟨[], fun g' u R => by simp [walkAt], fun _ _ _ _ => rfl⟩
  | cons k0 L =>
    have hlt : L.length < g.length := by simp at h; omega
    have hg : g.drop L.length = g[L.length] :: [] := by
      rw [List.drop_eq_getElem_cons hlt, List.drop_eq_nil_of_le (by simp at h; omega)]
    refine ⟨walk k0 ++ weave p d g L ++ [.seg p (d + L.length) g[L.length]], fun g' u R => ?_,
      fun σ τ hfix hτ => ?_⟩
    · have hL : L.length ≤ (g ++ g').length := by simp at h ⊢; omega
      simp only [walkAt, List.cons_append]
      rw [weave_append p d _ L _ hL, weave_append_segs p g' d g L (by simp at h; omega), List.drop_append_of_le_length
        (by simp at h; omega), hg]
      simp [weave, Nat.add_assoc]
    · have hk0 : (walk k0).map (Pos.relabel σ τ) = walk k0 :=
        walk_relabel_of_fixes fun c hc => hfix c (by simp [idsList, hc])
      have hw : (weave p d g L).map (Pos.relabel σ τ) = weave p d g L :=
        weave_relabel (fun x hx => hτ _ (by simp; omega)) fun k hk =>
          walk_relabel_of_fixes fun c hc => hfix c (by simp only [idsList, List.mem_append]; exact .inr (mem_idsList.mpr ⟨k, hk, hc⟩))
      have hs : τ (p, d + L.length) = (p, d + L.length) := hτ _ (by simp)
      simp [hk0, hw, hs]

/-- The child at index `k` of node `p` split at its segment `m`: the segment moves up to
index `k` of `p`, and the upper half becomes the child after it, node `r`. -/
theorem walk_splitChild {p a r : Nat} {segs g1 g2 : List (FileRange × V)} {e : FileRange × V}
    {L R ks1 ks2 : List (Tree V)} (hL : L.length ≤ segs.length)
    (hks : ks1 = [] ∧ ks2 = [] ∨ ks1.length = g1.length + 1 ∧ ks2.length = g2.length + 1)
    (hfix : ∀ c ∈ idsList (L ++ R ++ ks1 ++ ks2), c ≠ a ∧ c ≠ p) (hpa : p ≠ a) :
    (walk (node p segs (L ++ node a (g1 ++ e :: g2) (ks1 ++ ks2) :: R))).map
        (Pos.relabel (splitGap a g1.length a r) (splitSeg a g1.length a r p L.length)) =
      walk (node p (segs.take L.length ++ e :: segs.drop L.length) (L ++ node a g1 ks1 :: node r g2 ks2 :: R)) := by
  have hfixL : ∀ c ∈ idsList (L ++ R), Fixes (splitGap a g1.length a r) (splitSeg a g1.length a r p L.length) c :=
    fun c hc => have h := hfix c (by simp only [idsList_append, List.mem_append] at hc ⊢; tauto); fixes_split h.1 h.2
  have hu := walk_splitNode (l := a) (r := r) (p := p) (k := L.length) (e := e) rfl hks
    (fun c hc => hfix c (by simp only [idsList_append, List.mem_append] at hc ⊢; tauto))
  have hR : (weave p L.length (segs.drop L.length) R).map
      (Pos.relabel (splitGap a g1.length a r) (splitSeg a g1.length a r p L.length)) =
        weave p (L.length + 1) (segs.drop L.length) R :=
    weave_relabel (fun x _ => by rw [splitSeg_shift hpa (by omega), Nat.add_right_comm]) fun k hk =>
      walk_relabel_of_fixes fun c hc => hfixL c (by simp only [idsList_append, List.mem_append]; exact .inr (mem_idsList.mpr ⟨k, hk, hc⟩))
  obtain ⟨B, hB, hBfix⟩ := walkAt_child p 0 (segs.take L.length) L (by simp; omega)
  have hold := hB (segs.drop L.length) (node a (g1 ++ e :: g2) (ks1 ++ ks2)) R
  rw [List.take_append_drop, ← walk_eq_walkAt, Nat.zero_add] at hold
  rw [hold, walk_eq_walkAt p, hB, List.map_append, List.map_append, hu, hR,
    hBfix _ _ (fun c hc => hfixL c (by simp [hc])) fun j hj => splitSeg_below hpa (by omega)]
  simp [weave, Nat.zero_add]

end Tree

end Gvisor.Segment
