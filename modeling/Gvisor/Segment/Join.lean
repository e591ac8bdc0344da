import Gvisor.Segment.Relabel

/-!
# Merges and borrows rename the places of the traversal

`rebalanceAfterRemove` repairs a short node by merging it with a sibling, by taking the root's
two children into the root, or by borrowing a segment through the parent. Each keeps the order
of the traversal and renames its places, as the splits of `rebalanceBeforeInsert` do. A merge
undoes the split of a child (`walk_mergeChild`), the collapse of the root undoes the root split
(`walk_collapse`), and a borrow is a merge followed by a split at another segment
(`walk_borrowPrev`, `walk_borrowNext`): the renaming of a borrow is the composition of the two
(`walk_relabel_relabel`). That a renaming undone on every node leads back is
`walk_relabel_inv`.
-/

set_option autoImplicit false

namespace Gvisor.Segment

variable {V : Type}

namespace Pos

variable {σ τ σ' τ' : Nat × Nat → Nat × Nat}

theorem relabel_relabel (p : Pos V) : (p.relabel σ τ).relabel σ' τ' = p.relabel (σ' ∘ σ) (τ' ∘ τ) := by
  cases p <;> rfl

end Pos

namespace Tree

variable {σ τ σ' τ' : Nat × Nat → Nat × Nat}

theorem Fixes.comp {c : Nat} (h : Fixes σ τ c) (h' : Fixes σ' τ' c) : Fixes (σ' ∘ σ) (τ' ∘ τ) c := fun i => by
  simp only [Function.comp, (h i).1, (h i).2, (h' i).1, (h' i).2, and_self]

/-- Renaming twice is renaming by the composed maps. -/
theorem walk_relabel_relabel {t t' t'' : Tree V} (h : (walk t).map (Pos.relabel σ τ) = walk t')
    (h' : (walk t').map (Pos.relabel σ' τ') = walk t'') :
    (walk t).map (Pos.relabel (σ' ∘ σ) (τ' ∘ τ)) = walk t'' := by
  rw [← h', ← h, List.map_map]
  exact List.map_congr_left fun p _ => (Pos.relabel_relabel p).symm

/-- A renaming undone on every node of `t` leads back from the renamed traversal to `t`'s. -/
theorem walk_relabel_inv {t t' : Tree V} (h : (walk t).map (Pos.relabel σ τ) = walk t')
    (hinv : ∀ c ∈ ids t, Fixes (σ' ∘ σ) (τ' ∘ τ) c) : (walk t').map (Pos.relabel σ' τ') = walk t := by
  rw [← h, List.map_map]
  exact (List.map_congr_left fun p hp => (Pos.relabel_relabel p).trans
    (Pos.relabel_of_fixed (hinv _ (node_mem_ids t hp)))).trans (List.map_id _)

/-! ### Merging two children -/

/-- Gap labels after node `r` is appended to node `l`, which holds `m` segments, behind one
more segment. -/
def joinGap (l m r : Nat) (x : Nat × Nat) : Nat × Nat := if x.1 = r then (l, x.2 + (m + 1)) else x

/-- Segment labels after node `r` is appended to node `l` behind the separator `k` of their
parent `p`, whose segments after it move one down. -/
def joinSeg (l m r p k : Nat) (x : Nat × Nat) : Nat × Nat :=
  if x.1 = r then (l, x.2 + (m + 1))
  else if x.1 = p then (if x.2 = k then (l, m) else if k < x.2 then (p, x.2 - 1) else x) else x

theorem fixes_join {l m r p k c : Nat} (hr : c ≠ r) (hp : c ≠ p) : Fixes (joinGap l m r) (joinSeg l m r p k) c :=
  fun i => by simp [joinGap, joinSeg, hr, hp]

/-- Merging the children `l` and `r` of `p` around their separator `e`: the traversal of the
merged node is the one before with the places of `r` and of `p` from `e` on renamed. -/
theorem walk_mergeChild {p l r : Nat} {S1 S2 g1 g2 : List (FileRange × V)} {e : FileRange × V}
    {L R ks1 ks2 : List (Tree V)} (hS1 : S1.length = L.length)
    (hks : ks1 = [] ∧ ks2 = [] ∨ ks1.length = g1.length + 1 ∧ ks2.length = g2.length + 1)
    (hfix : ∀ c ∈ idsList (L ++ R ++ ks1 ++ ks2), c ≠ l ∧ c ≠ p ∧ c ≠ r) (hpl : p ≠ l) (hpr : p ≠ r) (hlr : l ≠ r) :
    (walk (node p (S1 ++ e :: S2) (L ++ node l g1 ks1 :: node r g2 ks2 :: R))).map
        (Pos.relabel (joinGap l g1.length r) (joinSeg l g1.length r p L.length)) =
      walk (node p (S1 ++ S2) (L ++ node l (g1 ++ e :: g2) (ks1 ++ ks2) :: R)) := by
  have hsplit := walk_splitChild (r := r) (e := e) (by simp; omega : L.length ≤ (S1 ++ S2).length) hks
    (fun c hc => ⟨(hfix c hc).1, (hfix c hc).2.1⟩) hpl
  rw [List.take_left' hS1, List.drop_left' hS1] at hsplit
  refine walk_relabel_inv hsplit fun c hc i => ?_
  have hc' : c = p ∨ c = l ∨ c ∈ idsList (L ++ R ++ ks1 ++ ks2) := by
    simp only [ids, idsList, idsList_append, List.mem_cons, List.mem_append] at hc ⊢
    tauto
  have hcr : c ≠ r := by
    rcases hc' with rfl | rfl | hc'
    · exact hpr
    · exact hlr
    · exact (hfix c hc').2.2
  simp only [Function.comp, splitGap, splitSeg, joinGap, joinSeg]
  by_cases hcl : c = l
  · subst hcl
    constructor <;> split_ifs <;> simp_all <;> omega
  · by_cases hcp : c = p
    · subst hcp
      refine ⟨by simp [hcl, hcr], ?_⟩
      split_ifs <;> simp_all <;> omega
    · simp [hcl, hcp, hcr]

/-! ### Collapsing the root -/

/-- Gap labels after the root `p` takes in its children `l`, which holds `m` segments, and `r`. -/
def collapseGap (p l m r : Nat) (x : Nat × Nat) : Nat × Nat :=
  if x.1 = l then (p, x.2) else if x.1 = r then (p, x.2 + (m + 1)) else x

/-- Segment labels after the root `p` takes in its children `l`, which holds `m` segments, and
`r`, its one segment becoming segment `m`. -/
def collapseSeg (p l m r : Nat) (x : Nat × Nat) : Nat × Nat :=
  if x.1 = l then (p, x.2) else if x.1 = r then (p, x.2 + (m + 1)) else if x.1 = p then (p, x.2 + m) else x

theorem fixes_collapse {p l m r c : Nat} (hp : c ≠ p) (hl : c ≠ l) (hr : c ≠ r) :
    Fixes (collapseGap p l m r) (collapseSeg p l m r) c :=
  fun i => by simp [collapseGap, collapseSeg, hp, hl, hr]

/-- The root `p` with one segment `e` taking in its two children: the traversal of the new root
is the one before with the places of the children and of `e` renamed. -/
theorem walk_collapse {p l r : Nat} {g1 g2 : List (FileRange × V)} {e : FileRange × V} {ks1 ks2 : List (Tree V)}
    (hks : ks1 = [] ∧ ks2 = [] ∨ ks1.length = g1.length + 1 ∧ ks2.length = g2.length + 1)
    (hfix : ∀ c ∈ idsList (ks1 ++ ks2), c ≠ p ∧ c ≠ l ∧ c ≠ r) (hpl : p ≠ l) (hpr : p ≠ r) (hlr : l ≠ r) :
    (walk (node p [e] [node l g1 ks1, node r g2 ks2])).map
        (Pos.relabel (collapseGap p l g1.length r) (collapseSeg p l g1.length r)) =
      walk (node p (g1 ++ e :: g2) (ks1 ++ ks2)) := by
  have hsplit := walk_splitNode (a := p) (l := l) (r := r) (p := p) (k := 0) (e := e) rfl hks
    fun c hc => ⟨(hfix c hc).1, (hfix c hc).1⟩
  rw [show walk (node l g1 ks1) ++ .seg p 0 e :: walk (node r g2 ks2) =
    walk (node p [e] [node l g1 ks1, node r g2 ks2]) by simp [walk, weave]] at hsplit
  refine walk_relabel_inv hsplit fun c hc i => ?_
  rcases (by simpa [ids] using hc : c = p ∨ c ∈ idsList (ks1 ++ ks2)) with rfl | hc
  · simp only [Function.comp, splitGap, splitSeg, collapseGap, collapseSeg]
    constructor <;> split_ifs <;> simp_all <;> omega
  · obtain ⟨hp, hl, hr⟩ := hfix c hc
    exact (fixes_split hp hp).comp (fixes_collapse hp hl hr) i

/-! ### Borrowing through the parent -/

/-- The short child `y` of `p` borrows from its previous sibling `x`: `x`'s last segment `z`
moves up into `p` and the separator `e` down to the front of `y`, with `x`'s last child `ks0`.
It is the merge of `x` and `y` followed by the split at `z`. -/
theorem walk_borrowPrev {p x y : Nat} {S1 S2 gl gr : List (FileRange × V)} {e z : FileRange × V}
    {L R ks1 ks0 ks2 : List (Tree V)} (hS1 : S1.length = L.length)
    (hks : ks1 = [] ∧ ks0 = [] ∧ ks2 = [] ∨ ks1.length = gl.length + 1 ∧ ks0.length = 1 ∧ ks2.length = gr.length + 1)
    (hfix : ∀ c ∈ idsList (L ++ R ++ ks1 ++ ks0 ++ ks2), c ≠ x ∧ c ≠ p ∧ c ≠ y) (hpx : p ≠ x) (hpy : p ≠ y)
    (hxy : x ≠ y) :
    (walk (node p (S1 ++ e :: S2) (L ++ node x (gl ++ [z]) (ks1 ++ ks0) :: node y gr ks2 :: R))).map
        (Pos.relabel (splitGap x gl.length x y ∘ joinGap x (gl.length + 1) y)
          (splitSeg x gl.length x y p L.length ∘ joinSeg x (gl.length + 1) y p L.length)) =
      walk (node p (S1 ++ z :: S2) (L ++ node x gl ks1 :: node y (e :: gr) (ks0 ++ ks2) :: R)) := by
  have hfix' : ∀ c ∈ idsList (L ++ R ++ ks1 ++ (ks0 ++ ks2)), c ≠ x ∧ c ≠ p ∧ c ≠ y := fun c hc =>
    hfix c (by simpa [List.append_assoc] using hc)
  have hmerge : (walk (node p (S1 ++ e :: S2) (L ++ node x (gl ++ [z]) (ks1 ++ ks0) :: node y gr ks2 :: R))).map
      (Pos.relabel (joinGap x (gl.length + 1) y) (joinSeg x (gl.length + 1) y p L.length)) =
      walk (node p (S1 ++ S2) (L ++ node x (gl ++ z :: e :: gr) (ks1 ++ (ks0 ++ ks2)) :: R)) := by
    have h := @walk_mergeChild V p x y S1 S2 (gl ++ [z]) gr e L R (ks1 ++ ks0) ks2 hS1 (by
      rcases hks with ⟨rfl, rfl, rfl⟩ | ⟨h1, h0, h2⟩
      · exact .inl ⟨rfl, rfl⟩
      · exact .inr ⟨by simp [h1, h0], h2⟩)
      (fun c hc => hfix' c (by simpa [List.append_assoc] using hc)) hpx hpy hxy
    simpa only [List.append_assoc, List.singleton_append, List.length_append, List.length_singleton] using h
  have hsplit : (walk (node p (S1 ++ S2) (L ++ node x (gl ++ z :: e :: gr) (ks1 ++ (ks0 ++ ks2)) :: R))).map
      (Pos.relabel (splitGap x gl.length x y) (splitSeg x gl.length x y p L.length)) =
      walk (node p (S1 ++ z :: S2) (L ++ node x gl ks1 :: node y (e :: gr) (ks0 ++ ks2) :: R)) := by
    have h := walk_splitChild (r := y) (e := z) (by simp; omega : L.length ≤ (S1 ++ S2).length) (by
      rcases hks with ⟨rfl, rfl, rfl⟩ | ⟨h1, h0, h2⟩
      · exact .inl ⟨rfl, rfl⟩
      · exact .inr ⟨h1, by simp [h0, h2]; omega⟩ :
        ks1 = [] ∧ ks0 ++ ks2 = [] ∨ ks1.length = gl.length + 1 ∧ (ks0 ++ ks2).length = (e :: gr).length + 1)
      (fun c hc => ⟨(hfix' c hc).1, (hfix' c hc).2.1⟩) hpx
    rwa [List.take_left' hS1, List.drop_left' hS1] at h
  exact walk_relabel_relabel hmerge hsplit

/-- The short child `x` of `p` borrows from its next sibling `y`: `y`'s first segment `z` moves
up into `p` and the separator `e` down to the end of `x`, with `y`'s first child `ks0`. It is the
merge of `x` and `y` followed by the split at `z`. -/
theorem walk_borrowNext {p x y : Nat} {S1 S2 gl gr : List (FileRange × V)} {e z : FileRange × V}
    {L R ks1 ks0 ks2 : List (Tree V)} (hS1 : S1.length = L.length)
    (hks : ks1 = [] ∧ ks0 = [] ∧ ks2 = [] ∨ ks1.length = gl.length + 1 ∧ ks0.length = 1 ∧ ks2.length = gr.length + 1)
    (hfix : ∀ c ∈ idsList (L ++ R ++ ks1 ++ ks0 ++ ks2), c ≠ x ∧ c ≠ p ∧ c ≠ y) (hpx : p ≠ x) (hpy : p ≠ y)
    (hxy : x ≠ y) :
    (walk (node p (S1 ++ e :: S2) (L ++ node x gl ks1 :: node y (z :: gr) (ks0 ++ ks2) :: R))).map
        (Pos.relabel (splitGap x (gl.length + 1) x y ∘ joinGap x gl.length y)
          (splitSeg x (gl.length + 1) x y p L.length ∘ joinSeg x gl.length y p L.length)) =
      walk (node p (S1 ++ z :: S2) (L ++ node x (gl ++ [e]) (ks1 ++ ks0) :: node y gr ks2 :: R)) := by
  have hfix' : ∀ c ∈ idsList (L ++ R ++ (ks1 ++ ks0) ++ ks2), c ≠ x ∧ c ≠ p ∧ c ≠ y := fun c hc =>
    hfix c (by simpa [List.append_assoc] using hc)
  have hmerge : (walk (node p (S1 ++ e :: S2) (L ++ node x gl ks1 :: node y (z :: gr) (ks0 ++ ks2) :: R))).map
      (Pos.relabel (joinGap x gl.length y) (joinSeg x gl.length y p L.length)) =
      walk (node p (S1 ++ S2) (L ++ node x ((gl ++ [e]) ++ z :: gr) ((ks1 ++ ks0) ++ ks2) :: R)) := by
    have h := @walk_mergeChild V p x y S1 S2 gl (z :: gr) e L R ks1 (ks0 ++ ks2) hS1 (by
      rcases hks with ⟨rfl, rfl, rfl⟩ | ⟨h1, h0, h2⟩
      · exact .inl ⟨rfl, rfl⟩
      · exact .inr ⟨h1, by simp [h0, h2]; omega⟩)
      (fun c hc => hfix' c (by simpa [List.append_assoc] using hc)) hpx hpy hxy
    simpa only [List.append_assoc, List.singleton_append, List.cons_append] using h
  have hsplit : (walk (node p (S1 ++ S2) (L ++ node x ((gl ++ [e]) ++ z :: gr) ((ks1 ++ ks0) ++ ks2) :: R))).map
      (Pos.relabel (splitGap x (gl.length + 1) x y) (splitSeg x (gl.length + 1) x y p L.length)) =
      walk (node p (S1 ++ z :: S2) (L ++ node x (gl ++ [e]) (ks1 ++ ks0) :: node y gr ks2 :: R)) := by
    have h := walk_splitChild (r := y) (e := z) (by simp; omega : L.length ≤ (S1 ++ S2).length) (by
      rcases hks with ⟨rfl, rfl, rfl⟩ | ⟨h1, h0, h2⟩
      · exact .inl ⟨rfl, rfl⟩
      · exact .inr ⟨by simp [h1, h0], h2⟩ :
        ks1 ++ ks0 = [] ∧ ks2 = [] ∨ (ks1 ++ ks0).length = (gl ++ [e]).length + 1 ∧ ks2.length = gr.length + 1)
      (fun c hc => ⟨(hfix' c hc).1, (hfix' c hc).2.1⟩) hpx
    rw [List.take_left' hS1, List.drop_left' hS1] at h
    simpa only [List.length_append, List.length_singleton] using h
  exact walk_relabel_relabel hmerge hsplit

end Tree

end Gvisor.Segment
