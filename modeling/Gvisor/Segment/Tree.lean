import Mathlib.Data.List.Chain
import Gvisor.Segment.Node

/-!
# The tree a reclaim set holds

The ghost B-tree that a `reclaimSet`'s heap represents: each node with its address, its
segments and its children. Its in-order traversal `walk` lists the gaps of the leaves and
the segments, each segment with the iterator that reaches it; a shaped tree's walk starts
and ends with a gap and alternates (`alternates_walk`). The segments of the walk, `seq`, are
the sorted list the set stands for; its gaps, `gapIters`, are the gap iterators the set's
code hands out.

A path into a tree is a list of `Frame`s, innermost first; `plug` puts a subtree back in its
place, and `walk_plug` splits the traversal around it.
-/

set_option autoImplicit false

namespace Gvisor.Segment

/-- A ghost node: the address of the `reclaimnode`, its segments and its children. -/
inductive Tree (V : Type) where
  | node (id : Nat) (segs : List (FileRange × V)) (kids : List (Tree V))

/-- A place of the in-order traversal: gap `i` of leaf `a`, or segment `i` of node `a` with
its range and value. -/
inductive Pos (V : Type) where
  | gap (a i : Nat)
  | seg (a i : Nat) (e : FileRange × V)

namespace Pos

variable {V : Type}

def gap? : Pos V → Option (Nat × Nat)
  | gap a i => some (a, i)
  | seg .. => none

def entry? : Pos V → Option ((Nat × Nat) × (FileRange × V))
  | gap .. => none
  | seg a i e => some ((a, i), e)

@[simp] theorem gap?_gap (a i : Nat) : (gap a i : Pos V).gap? = some (a, i) := rfl
@[simp] theorem gap?_seg (a i : Nat) (e : FileRange × V) : (seg a i e).gap? = none := rfl
@[simp] theorem entry?_gap (a i : Nat) : (gap a i : Pos V).entry? = none := rfl
@[simp] theorem entry?_seg (a i : Nat) (e : FileRange × V) : (seg a i e).entry? = some ((a, i), e) := rfl

end Pos

namespace Tree

variable {V : Type}

def id : Tree V → Nat
  | node a _ _ => a

def segs : Tree V → List (FileRange × V)
  | node _ g _ => g

def kids : Tree V → List (Tree V)
  | node _ _ k => k

@[simp] theorem id_node (a : Nat) (g : List (FileRange × V)) (k : List (Tree V)) : (node a g k).id = a := rfl
@[simp] theorem segs_node (a : Nat) (g : List (FileRange × V)) (k : List (Tree V)) : (node a g k).segs = g := rfl
@[simp] theorem kids_node (a : Nat) (g : List (FileRange × V)) (k : List (Tree V)) : (node a g k).kids = k := rfl

/-! ### The traversal -/

/-- The traversal of leaf `a` from its gap `i` on. -/
def leafWalk (a : Nat) : Nat → List (FileRange × V) → List (Pos V)
  | i, [] => [.gap a i]
  | i, g :: gs => .gap a i :: .seg a i g :: leafWalk a (i + 1) gs

mutual
/-- The in-order traversal: the gaps of the leaves and the segments, in key order. -/
def walk : Tree V → List (Pos V)
  | node a segs [] => leafWalk a 0 segs
  | node a segs (k :: ks) => walk k ++ weave a 0 segs ks

/-- The traversal of node `a` after a child: separator `i`, the next child, and so on. -/
def weave : Nat → Nat → List (FileRange × V) → List (Tree V) → List (Pos V)
  | a, i, g :: gs, k :: ks => .seg a i g :: (walk k ++ weave a (i + 1) gs ks)
  | _, _, _, _ => []
end

/-- The segments in key order, each with the iterator that reaches it. -/
def entries (t : Tree V) : List ((Nat × Nat) × (FileRange × V)) := (walk t).filterMap Pos.entry?

/-- The segments in key order: what the set stands for. -/
def seq (t : Tree V) : List (FileRange × V) := (entries t).map (·.2)

/-- The iterators of the segments, in key order. -/
def segIters (t : Tree V) : List (Nat × Nat) := (entries t).map (·.1)

/-- The gaps of the leaves, in key order. -/
def gapIters (t : Tree V) : List (Nat × Nat) := (walk t).filterMap Pos.gap?

mutual
/-- The addresses of the nodes, each node before its children. -/
def ids : Tree V → List Nat
  | node a _ kids => a :: idsList kids

def idsList : List (Tree V) → List Nat
  | [] => []
  | k :: ks => ids k ++ idsList ks
end

mutual
/-- All leaves are at depth `h`, and an internal node has one child more than segments. -/
def HasHeight : Nat → Tree V → Prop
  | 0, node _ _ kids => kids = []
  | h + 1, node _ segs kids => kids.length = segs.length + 1 ∧ AllHeight h kids

def AllHeight : Nat → List (Tree V) → Prop
  | _, [] => True
  | h, k :: ks => HasHeight h k ∧ AllHeight h ks
end

mutual
/-- Every node holds between `minDegree - 1` and `maxDegree - 1` segments. -/
def Filled : Tree V → Prop
  | node _ segs kids => minDegree - 1 ≤ segs.length ∧ segs.length ≤ maxDegree - 1 ∧ AllFilled kids

def AllFilled : List (Tree V) → Prop
  | [] => True
  | k :: ks => Filled k ∧ AllFilled ks
end

theorem allFilled_iff {ks : List (Tree V)} : AllFilled ks ↔ ∀ k ∈ ks, Filled k := by
  induction ks with
  | nil => simp [AllFilled]
  | cons k ks ih => simp [AllFilled, ih]

theorem filled_node {a : Nat} {g : List (FileRange × V)} {ks : List (Tree V)} :
    Filled (node a g ks) ↔ minDegree - 1 ≤ g.length ∧ g.length ≤ maxDegree - 1 ∧ ∀ k ∈ ks, Filled k := by
  simp [Filled, allFilled_iff]

theorem Filled.kid {t : Tree V} (h : Filled t) {k : Tree V} (hk : k ∈ t.kids) : Filled k := by
  cases t; exact (filled_node.mp h).2.2 k hk

@[simp] theorem walk_leaf (a : Nat) (g : List (FileRange × V)) : walk (node a g []) = leafWalk a 0 g := by
  simp [walk]

@[simp] theorem idsList_append (l l' : List (Tree V)) : idsList (l ++ l') = idsList l ++ idsList l' := by
  induction l with
  | nil => simp [idsList]
  | cons k l ih => simp [idsList, ih]

theorem allHeight_iff {h : Nat} {ks : List (Tree V)} : AllHeight h ks ↔ ∀ k ∈ ks, HasHeight h k := by
  induction ks with
  | nil => simp [AllHeight]
  | cons k ks ih => simp [AllHeight, ih]

theorem hasHeight_succ {h a : Nat} {g : List (FileRange × V)} {ks : List (Tree V)} :
    HasHeight (h + 1) (node a g ks) ↔ ks.length = g.length + 1 ∧ ∀ k ∈ ks, HasHeight h k := by
  simp [HasHeight, allHeight_iff]

theorem weave_append (a : Nat) : ∀ (i : Nat) (g : List (FileRange × V)) (ks rest : List (Tree V)),
    ks.length ≤ g.length → weave a i g (ks ++ rest) = weave a i g ks ++ weave a (i + ks.length) (g.drop ks.length) rest
  | _, _, [], _, _ => by cases ‹List (FileRange × V)› <;> simp [weave]
  | i, x :: g, k :: ks, rest, h => by
    have := weave_append a (i + 1) g ks rest (by simpa using h)
    simp [weave, this, Nat.add_assoc, Nat.add_comm 1]
  | _, [], _ :: _, _, h => by simp at h

/-! ### Membership -/

theorem mem_leafWalk {a : Nat} {p : Pos V} : ∀ {i : Nat} {g : List (FileRange × V)}, p ∈ leafWalk a i g →
    (∃ j ≤ g.length, p = .gap a (i + j)) ∨ ∃ j, ∃ e ∈ g[j]?, p = .seg a (i + j) e
  | i, [], h => .inl ⟨0, by simp, by simpa [leafWalk] using h⟩
  | i, x :: g, h => by
    simp only [leafWalk, List.mem_cons] at h
    rcases h with rfl | rfl | h
    · exact .inl ⟨0, by simp, rfl⟩
    · exact .inr ⟨0, x, by simp, rfl⟩
    · rcases mem_leafWalk h with ⟨j, hj, rfl⟩ | ⟨j, e, he, rfl⟩
      · exact .inl ⟨j + 1, by simp [hj], by simp [Nat.add_assoc, Nat.add_comm 1]⟩
      · exact .inr ⟨j + 1, e, by simpa using he, by simp [Nat.add_assoc, Nat.add_comm 1]⟩

theorem mem_weave {a : Nat} {p : Pos V} : ∀ {i : Nat} {g : List (FileRange × V)} {ks : List (Tree V)},
    p ∈ weave a i g ks → (∃ k ∈ ks, p ∈ walk k) ∨ ∃ j, ∃ e ∈ g[j]?, p = .seg a (i + j) e
  | _, [], _, h => by simp [weave] at h
  | _, _ :: _, [], h => by simp [weave] at h
  | i, x :: g, k :: ks, h => by
    simp only [weave, List.mem_cons, List.mem_append] at h
    rcases h with rfl | h | h
    · exact .inr ⟨0, x, by simp, rfl⟩
    · exact .inl ⟨k, by simp, h⟩
    · rcases mem_weave h with ⟨k', hk', h'⟩ | ⟨j, e, he, rfl⟩
      · exact .inl ⟨k', by simp [hk'], h'⟩
      · exact .inr ⟨j + 1, e, by simpa using he, by simp [Nat.add_assoc, Nat.add_comm 1]⟩

/-- A place of an internal node's traversal is a place of a child's, or one of its segments. -/
theorem mem_walk_node {a : Nat} {g : List (FileRange × V)} {k : Tree V} {ks : List (Tree V)} {p : Pos V}
    (h : p ∈ walk (node a g (k :: ks))) : (∃ k' ∈ k :: ks, p ∈ walk k') ∨ ∃ j, ∃ e ∈ g[j]?, p = .seg a j e := by
  simp only [walk, List.mem_append] at h
  rcases h with h | h
  · exact .inl ⟨k, by simp, h⟩
  · rcases mem_weave h with ⟨k', hk', h'⟩ | ⟨j, e, he, rfl⟩
    · exact .inl ⟨k', by simp [hk'], h'⟩
    · exact .inr ⟨j, e, he, by simp⟩

/-! ### Alternation -/

/-- A traversal that starts and ends with a gap and alternates between gaps and segments. -/
inductive Alternates : List (Pos V) → Prop
  | last (a i : Nat) : Alternates [.gap a i]
  | cons (a i b j : Nat) (e : FileRange × V) (l : List (Pos V)) : Alternates l →
      Alternates (.gap a i :: .seg b j e :: l)

theorem Alternates.append_seg {l l' : List (Pos V)} (h : Alternates l) (h' : Alternates l') (b j : Nat)
    (e : FileRange × V) : Alternates (l ++ .seg b j e :: l') := by
  induction h with
  | last a i => exact .cons a i b j e l' h'
  | cons a i c k e' l _ ih => exact .cons a i c k e' _ ih

theorem alternates_leafWalk (a : Nat) : ∀ (i : Nat) (g : List (FileRange × V)), Alternates (leafWalk a i g)
  | i, [] => .last a i
  | i, x :: g => .cons a i a i x _ (alternates_leafWalk a (i + 1) g)

theorem alternates_weave (a : Nat) : ∀ (i : Nat) (k : Tree V) (g : List (FileRange × V)) (ks : List (Tree V)),
    (∀ k' ∈ k :: ks, Alternates (walk k')) → ks.length = g.length → Alternates (walk k ++ weave a i g ks)
  | _, k, [], [], hk, _ => by simpa [weave] using hk k (by simp)
  | i, k, x :: g, k' :: ks, hk, hlen => by
    simp only [weave]
    exact (hk k (by simp)).append_seg
      (alternates_weave a (i + 1) k' g ks (fun k'' h => hk k'' (by simp_all)) (by simpa using hlen)) a i x
  | _, _, [], _ :: _, _, hlen => by simp at hlen
  | _, _, _ :: _, [], _, hlen => by simp at hlen

/-- A shaped tree's traversal alternates, from a gap to a gap. -/
theorem alternates_walk : ∀ (h : Nat) (t : Tree V), HasHeight h t → Alternates (walk t)
  | 0, node a g kids, ht => by
    cases ht; simpa using alternates_leafWalk a 0 g
  | h + 1, node a g [], ht => by simp [HasHeight] at ht
  | h + 1, node a g (k :: ks), ht => by
    rw [hasHeight_succ] at ht
    simp only [walk]
    exact alternates_weave a 0 k g ks (fun k' hk' => alternates_walk h k' (ht.2 k' hk')) (by simpa using ht.1)

/-- An alternating traversal has one gap more than segments. -/
theorem Alternates.length_gaps {l : List (Pos V)} (h : Alternates l) :
    (l.filterMap Pos.gap?).length = (l.filterMap Pos.entry?).length + 1 := by
  induction h with
  | last => rfl
  | cons a i b j e l _ ih => simp [ih]

theorem Alternates.ne_nil {l : List (Pos V)} (h : Alternates l) : l ≠ [] := by
  cases h <;> simp

theorem Alternates.head? {l : List (Pos V)} (h : Alternates l) : ∃ a i, l.head? = some (.gap a i) := by
  cases h <;> exact ⟨_, _, rfl⟩

theorem Alternates.getLast? {l : List (Pos V)} (h : Alternates l) : ∃ a i, l.getLast? = some (.gap a i) := by
  induction h with
  | last a i => exact ⟨a, i, rfl⟩
  | cons a i b j e l hl ih =>
    obtain ⟨c, k, hc⟩ := ih
    refine ⟨c, k, ?_⟩
    rw [List.getLast?_cons_cons, List.getLast?_cons, hc]
    rfl

/-- An alternating traversal's first place is its first gap. -/
theorem Alternates.first_gap {l : List (Pos V)} (h : Alternates l) :
    ∃ a i, l.head? = some (.gap a i) ∧ (l.filterMap Pos.gap?)[0]? = some (a, i) := by
  cases h <;> exact ⟨_, _, rfl, by simp⟩

/-- An alternating traversal's last place is its last gap, the one after every segment. -/
theorem Alternates.last_gap {l : List (Pos V)} (h : Alternates l) :
    ∃ a i, l.getLast? = some (.gap a i) ∧ (l.filterMap Pos.gap?)[(l.filterMap Pos.entry?).length]? = some (a, i) := by
  induction h with
  | last a i => exact ⟨a, i, rfl, rfl⟩
  | cons a i b j e l hl ih =>
    obtain ⟨c, k, hc, hk⟩ := ih
    refine ⟨c, k, ?_, by simpa using hk⟩
    rw [List.getLast?_cons_cons, List.getLast?_cons, hc]
    rfl

/-- In an alternating traversal, the `j`th gap, the `j`th segment and the next gap are
consecutive. -/
theorem Alternates.steps {R : Pos V → Pos V → Prop} {l : List (Pos V)} (h : Alternates l) (hc : l.Chain' R) :
    ∀ {j a i b k a' i' : Nat} {e : FileRange × V}, (l.filterMap Pos.gap?)[j]? = some (a, i) →
      (l.filterMap Pos.entry?)[j]? = some ((b, k), e) → (l.filterMap Pos.gap?)[j + 1]? = some (a', i') →
      R (.gap a i) (.seg b k e) ∧ R (.seg b k e) (.gap a' i') := by
  induction h with
  | last a i => intro j _ _ _ _ _ _ _ _ he; simp at he
  | cons a i b k e l hl ih =>
    intro j a₁ i₁ b₁ k₁ a₂ i₂ e₁ hg he hg'
    rw [List.chain'_cons] at hc
    cases j with
    | zero =>
      obtain ⟨c, n, hhead⟩ := hl.head?
      obtain ⟨l', rfl⟩ : ∃ l', l = .gap c n :: l' := by
        cases l with
        | nil => simp at hhead
        | cons x l' => simp at hhead; exact ⟨l', by rw [hhead]⟩
      simp at hg he hg'
      obtain ⟨rfl, rfl⟩ := hg
      obtain ⟨⟨rfl, rfl⟩, rfl⟩ := he
      obtain ⟨rfl, rfl⟩ := hg'
      exact ⟨hc.1, (List.chain'_cons.mp hc.2).1⟩
    | succ j =>
      simp only [List.filterMap_cons, Pos.gap?_gap, Pos.gap?_seg, Pos.entry?_gap, Pos.entry?_seg,
        List.getElem?_cons_succ] at hg he hg'
      exact ih hc.2.tail hg he hg'

/-- In an alternating traversal, the places before a gap hold as many gaps as segments. -/
theorem Alternates.gaps_before_gap {l : List (Pos V)} (h : Alternates l) : ∀ {pre post : List (Pos V)} {a i : Nat},
    l = pre ++ .gap a i :: post → (pre.filterMap Pos.gap?).length = (pre.filterMap Pos.entry?).length := by
  induction h with
  | last a i =>
    intro pre post a' i' he
    match pre, he with
    | [], _ => rfl
    | _ :: pre, he => simp at he
  | cons a i b k e l _ ih =>
    intro pre post a' i' he
    match pre, he with
    | [], _ => rfl
    | [_], he => simp at he
    | _ :: _ :: pre, he =>
      simp only [List.cons_append, List.cons.injEq] at he
      obtain ⟨rfl, rfl, hl'⟩ := he
      simp [ih hl']

/-! ### Paths -/

/-- A node on a path, with the child on the path left out: its children `left` before it and
`right` after it. -/
structure Frame (V : Type) where
  id : Nat
  segs : List (FileRange × V)
  left : List (Tree V)
  right : List (Tree V)

namespace Frame

/-- The node of the frame with `t` in the place left out. -/
def fill (f : Frame V) (t : Tree V) : Tree V := node f.id f.segs (f.left ++ t :: f.right)

/-- The traversal of the frame's node before the child left out, up to its separator. -/
def before (f : Frame V) : List (Pos V) :=
  match f.left with
  | [] => []
  | k :: ks => walk k ++ weave f.id 0 f.segs ks ++ ((f.segs.drop ks.length).take 1).map (.seg f.id ks.length)

/-- The traversal of the frame's node after the child left out, from its separator. -/
def after (f : Frame V) : List (Pos V) := weave f.id f.left.length (f.segs.drop f.left.length) f.right

@[simp] theorem fill_id (f : Frame V) (t : Tree V) : (f.fill t).id = f.id := rfl

/-- The traversal of a frame's node goes around the child left out. -/
theorem walk_fill (f : Frame V) (t : Tree V) (h : f.left.length ≤ f.segs.length) :
    walk (f.fill t) = f.before ++ walk t ++ f.after := by
  obtain ⟨a, g, left, right⟩ := f
  cases left with
  | nil => simp [fill, walk, before, after]
  | cons k ks =>
    simp only [List.length_cons] at h
    have hdrop : g.drop ks.length = g[ks.length] :: g.drop (ks.length + 1) := by
      rw [List.drop_eq_getElem_cons (by omega)]
    simp only [fill, List.cons_append, walk, before, after, List.length_cons, List.append_eq]
    rw [weave_append a 0 g ks (t :: right) (by omega), hdrop]
    simp only [weave, List.take_succ_cons, List.take_zero, List.map_cons, List.map_nil, List.append_assoc,
      List.singleton_append, List.cons_append, List.nil_append, Nat.zero_add]

theorem ids_fill (f : Frame V) (t : Tree V) :
    ids (f.fill t) = f.id :: (idsList f.left ++ ids t ++ idsList f.right) := by
  simp [fill, ids, idsList]

end Frame

/-- A tree from a path and the subtree at its end. -/
def plug : List (Frame V) → Tree V → Tree V
  | [], t => t
  | f :: fs, t => plug fs (f.fill t)

/-- The traversal of a tree before the subtree at the end of a path. -/
def ctxBefore : List (Frame V) → List (Pos V)
  | [] => []
  | f :: fs => ctxBefore fs ++ f.before

/-- The traversal of a tree after the subtree at the end of a path. -/
def ctxAfter : List (Frame V) → List (Pos V)
  | [] => []
  | f :: fs => f.after ++ ctxAfter fs

/-- The addresses of the nodes of a path and of the subtrees beside it. -/
def ctxIds : List (Frame V) → List Nat
  | [] => []
  | f :: fs => f.id :: (idsList f.left ++ idsList f.right ++ ctxIds fs)

/-- Every frame leaves out a child that is first or has a separator before it. -/
def ctxFits (fs : List (Frame V)) : Prop := ∀ f ∈ fs, f.left.length ≤ f.segs.length

@[simp] theorem plug_nil (t : Tree V) : plug [] t = t := rfl
@[simp] theorem plug_cons (f : Frame V) (fs : List (Frame V)) (t : Tree V) : plug (f :: fs) t = plug fs (f.fill t) := rfl

theorem walk_plug : ∀ (fs : List (Frame V)) (t : Tree V), ctxFits fs →
    walk (plug fs t) = ctxBefore fs ++ walk t ++ ctxAfter fs
  | [], t, _ => by simp [ctxBefore, ctxAfter]
  | f :: fs, t, h => by
    rw [plug_cons, walk_plug fs _ fun g hg => h g (List.mem_cons_of_mem _ hg),
      Frame.walk_fill f t (h f (List.mem_cons_self _ _))]
    simp [ctxBefore, ctxAfter]

theorem ids_plug_perm : ∀ (fs : List (Frame V)) (t : Tree V), (ids (plug fs t)).Perm (ctxIds fs ++ ids t)
  | [], t => by simp [ctxIds]
  | f :: fs, t => by
    refine (ids_plug_perm fs (f.fill t)).trans (List.perm_iff_count.2 fun x => ?_)
    simp only [Frame.ids_fill, ctxIds, List.count_append, List.count_cons, List.cons_append]
    omega

/-! ### Segments among places -/

/-- The segments among some places of a traversal, in order. -/
def segsOf (l : List (Pos V)) : List (FileRange × V) := (l.filterMap Pos.entry?).map (·.2)

@[simp] theorem segsOf_nil : segsOf ([] : List (Pos V)) = [] := rfl
@[simp] theorem segsOf_append (l l' : List (Pos V)) : segsOf (l ++ l') = segsOf l ++ segsOf l' := by
  simp [segsOf]
@[simp] theorem segsOf_gap (a i : Nat) (l : List (Pos V)) : segsOf (.gap a i :: l) = segsOf l := rfl
@[simp] theorem segsOf_seg (a i : Nat) (e : FileRange × V) (l : List (Pos V)) :
    segsOf (.seg a i e :: l) = e :: segsOf l := rfl

theorem seq_eq_segsOf (t : Tree V) : seq t = segsOf (walk t) := rfl

@[simp] theorem segsOf_leafWalk (a : Nat) : ∀ (i : Nat) (g : List (FileRange × V)), segsOf (leafWalk a i g) = g
  | _, [] => rfl
  | i, x :: g => by simp [leafWalk, segsOf_leafWalk a (i + 1) g]

/-- A leaf's traversal up to its gap `i`, and from it. -/
theorem leafWalk_split (a : Nat) : ∀ (j : Nat) (g : List (FileRange × V)) (i : Nat), i ≤ g.length →
    ∃ L, leafWalk a j g = L ++ leafWalk a (j + i) (g.drop i) ∧ segsOf L = g.take i
  | j, g, 0, _ => ⟨[], by simp⟩
  | j, [], i + 1, h => by simp at h
  | j, x :: g, i + 1, h => by
    obtain ⟨L, hL, hs⟩ := leafWalk_split a (j + 1) g i (by simpa using h)
    refine ⟨.gap a j :: .seg a j x :: L, ?_, by simp [hs]⟩
    rw [leafWalk, hL]
    simp [Nat.add_assoc, Nat.add_comm 1]

/-- An internal node's traversal around its child `i`: the separator before the child ends
what comes before, and the separator after it starts what comes after. -/
theorem walk_node_split {a : Nat} {g : List (FileRange × V)} {kids : List (Tree V)}
    (hlen : kids.length = g.length + 1) {i : Nat} (hi : i < kids.length) :
    ∃ B C, walk (node a g kids) = B ++ walk kids[i] ++ C ∧
      (i = 0 ∧ B = [] ∨ ∃ B' e, 0 < i ∧ g[i - 1]? = some e ∧ B = B' ++ [.seg a (i - 1) e]) ∧
      (i = g.length ∧ C = [] ∨ ∃ C' e, g[i]? = some e ∧ C = .seg a i e :: C') := by
  have hfill : Frame.fill ⟨a, g, kids.take i, kids.drop (i + 1)⟩ kids[i] = node a g kids := by
    simp only [Frame.fill, List.getElem_cons_drop, List.take_append_drop]
  have hleft : (kids.take i).length = i := by simp; omega
  refine ⟨Frame.before ⟨a, g, kids.take i, kids.drop (i + 1)⟩, Frame.after ⟨a, g, kids.take i, kids.drop (i + 1)⟩,
    by rw [← hfill, Frame.walk_fill _ _ (by simp; omega)], ?_, ?_⟩
  · cases i with
    | zero => exact .inl ⟨rfl, by simp [Frame.before]⟩
    | succ i =>
      right
      obtain ⟨k, ks, hks⟩ : ∃ k ks, kids.take (i + 1) = k :: ks :=
        List.exists_cons_of_ne_nil (by intro h; simp [h] at hleft)
      have hlks : ks.length = i := by simpa [hks] using hleft
      have hdrop : g.drop i = g[i] :: g.drop (i + 1) := List.drop_eq_getElem_cons (by omega)
      refine ⟨walk k ++ weave a 0 g ks, g[i], by omega, by simp, ?_⟩
      simp only [Frame.before, hks, hlks, hdrop, List.take_succ_cons, List.take_zero, List.map_cons, List.map_nil,
        Nat.add_sub_cancel]
  · rcases Nat.lt_or_ge i g.length with hig | hig
    · right
      have hdrop : g.drop i = g[i] :: g.drop (i + 1) := List.drop_eq_getElem_cons hig
      have hkd : kids.drop (i + 1) = kids[i + 1] :: kids.drop (i + 2) :=
        List.drop_eq_getElem_cons (by omega)
      refine ⟨walk kids[i + 1] ++ weave a (i + 1) (g.drop (i + 1)) (kids.drop (i + 2)), g[i], by simp, ?_⟩
      simp only [Frame.after, hleft, hdrop, hkd, weave]
    · left
      have hkd : kids.drop (i + 1) = [] := List.drop_eq_nil_of_le (by omega)
      refine ⟨by omega, ?_⟩
      simp only [Frame.after, hkd]
      cases g.drop (kids.take i).length <;> rfl

end Tree

end Gvisor.Segment
