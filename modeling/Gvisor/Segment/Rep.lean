import Gvisor.Segment.Tree
import Gvisor.Segment.Heap

/-!
# The heap stores the tree

`Rep s t up` says that the heap of `s` stores the ghost tree `t`: every node of `t` sits at
its address, holds its segments in the first cells of `keys` and `values`, its children's
addresses in `children` and nil after them, `hasChildren` exactly when it has children, and
the link to its parent, `up` for the root of `t`. `RepCtx` says the same of a path and the
subtrees beside it; `rep_plug` splits `Rep` at any subtree, and `rep_congr` and
`repCtx_congr` say that writes elsewhere in the heap keep it.
-/

set_option autoImplicit false

namespace Gvisor.Segment

variable {V : Type}

namespace ReclaimNode

/-- The link to its parent a node stores: none at the root. -/
def link (n : ReclaimNode V) : Option (Nat × Nat) := n.parent.map (·, n.parentIndex)

/-- A node stores the segments `segs`, the children `kids` and the parent link `up`. -/
structure Holds (n : ReclaimNode V) (segs : List (FileRange × V)) (kids : List Nat) (up : Option (Nat × Nat)) :
    Prop where
  nrSegments : n.nrSegments = segs.length
  keys : Agree n.keys (segs.map (·.1))
  values : Agree n.values (segs.map (·.2))
  hasChildren : n.hasChildren = !kids.isEmpty
  children : AgreeAll n.children kids
  link : n.link = up

theorem link_eq_some {n : ReclaimNode V} {p i : Nat} : n.link = some (p, i) ↔ n.parent = some p ∧ n.parentIndex = i := by
  cases h : n.parent <;> simp [link, h, eq_comm]

theorem link_eq_none {n : ReclaimNode V} : n.link = none ↔ n.parent = none := by
  cases h : n.parent <;> simp [link, h]

theorem Holds.reads {n : ReclaimNode V} {segs : List (FileRange × V)} {kids : List Nat} {up : Option (Nat × Nat)}
    (h : n.Holds segs kids up) {j : Nat} {e : FileRange × V} (he : segs[j]? = some e) :
    j < n.nrSegments ∧ n.keys j = e.1 ∧ n.values j = e.2 := by
  obtain ⟨hj, rfl⟩ := List.getElem?_eq_some_iff.mp he
  refine ⟨h.nrSegments ▸ hj, ?_, ?_⟩
  · rw [h.keys j (by simpa using hj), List.getElem_map]
  · rw [h.values j (by simpa using hj), List.getElem_map]

end ReclaimNode

namespace Tree

mutual
/-- The heap stores the tree, whose root has the parent link `up`. -/
def Rep (s : ReclaimSet V) : Tree V → Option (Nat × Nat) → Prop
  | node a segs kids, up => (s.nodes a).Holds segs (kids.map Tree.id) up ∧ RepKids s a 0 kids

/-- The heap stores the children `ks` of node `a`, the first at index `i`. -/
def RepKids (s : ReclaimSet V) (a : Nat) : Nat → List (Tree V) → Prop
  | _, [] => True
  | i, k :: ks => Rep s k (some (a, i)) ∧ RepKids s a (i + 1) ks
end

variable {s s' : ReclaimSet V}

theorem rep_node {a : Nat} {segs : List (FileRange × V)} {kids : List (Tree V)} {up : Option (Nat × Nat)} :
    Rep s (node a segs kids) up ↔ (s.nodes a).Holds segs (kids.map Tree.id) up ∧ RepKids s a 0 kids := by
  simp [Rep]

theorem Rep.holds {t : Tree V} {up : Option (Nat × Nat)} (h : Rep s t up) :
    (s.nodes t.id).Holds t.segs (t.kids.map Tree.id) up := by
  cases t; exact (rep_node.mp h).1

theorem Rep.kids {t : Tree V} {up : Option (Nat × Nat)} (h : Rep s t up) : RepKids s t.id 0 t.kids := by
  cases t; exact (rep_node.mp h).2

theorem repKids_append (a : Nat) : ∀ (i : Nat) (l l' : List (Tree V)),
    RepKids s a i (l ++ l') ↔ RepKids s a i l ∧ RepKids s a (i + l.length) l'
  | i, [], l' => by simp [RepKids]
  | i, k :: l, l' => by
    simp [RepKids, repKids_append a (i + 1) l l', Nat.add_assoc, Nat.add_comm 1, and_assoc]

theorem repKids_iff (a : Nat) : ∀ (i : Nat) (ks : List (Tree V)),
    RepKids s a i ks ↔ ∀ j (h : j < ks.length), Rep s ks[j] (some (a, i + j))
  | i, [] => by simp [RepKids]
  | i, k :: ks => by
    rw [RepKids, repKids_iff a (i + 1) ks]
    constructor
    · rintro ⟨hk, hks⟩ j hj
      cases j with
      | zero => exact hk
      | succ j => simpa [Nat.add_assoc, Nat.add_comm 1] using hks j (by simpa using hj)
    · intro h
      exact ⟨h 0 (by simp), fun j hj => by simpa [Nat.add_assoc, Nat.add_comm 1] using h (j + 1) (by simpa using hj)⟩

mutual
/-- Writes to nodes outside a tree keep the heap storing it. -/
theorem rep_congr : ∀ (t : Tree V) (up : Option (Nat × Nat)), (∀ b ∈ ids t, s'.nodes b = s.nodes b) →
    (Rep s' t up ↔ Rep s t up)
  | node a segs kids, up, h => by
    simp only [ids, List.mem_cons] at h
    rw [rep_node, rep_node, h a (.inl rfl), repKids_congr a 0 kids fun b hb => h b (.inr hb)]

theorem repKids_congr (a : Nat) : ∀ (i : Nat) (ks : List (Tree V)), (∀ b ∈ idsList ks, s'.nodes b = s.nodes b) →
    (RepKids s' a i ks ↔ RepKids s a i ks)
  | _, [], _ => by simp [RepKids]
  | i, k :: ks, h => by
    simp only [idsList, List.mem_append] at h
    rw [RepKids, RepKids, rep_congr k _ fun b hb => h b (.inl hb), repKids_congr a (i + 1) ks fun b hb => h b (.inr hb)]
end

/-! ### Paths -/

/-- The parent link of the subtree at the end of a path. -/
def linkTo : List (Frame V) → Option (Nat × Nat)
  | [] => none
  | f :: _ => some (f.id, f.left.length)

@[simp] theorem linkTo_cons (f : Frame V) (fs : List (Frame V)) : linkTo (f :: fs) = some (f.id, f.left.length) := rfl

/-- The heap stores a path that ends at node `b`: each frame's node, with `b` or the next
frame's node in the place left out, and the subtrees beside the path. -/
def RepCtx (s : ReclaimSet V) : List (Frame V) → Nat → Prop
  | [], _ => True
  | f :: fs, b => (s.nodes f.id).Holds f.segs (f.left.map Tree.id ++ b :: f.right.map Tree.id) (linkTo fs) ∧
      RepKids s f.id 0 f.left ∧ RepKids s f.id (f.left.length + 1) f.right ∧ RepCtx s fs f.id

/-- The heap stores a tree exactly when it stores the path to a subtree and the subtree. -/
theorem rep_plug : ∀ (fs : List (Frame V)) (t : Tree V),
    Rep s (plug fs t) none ↔ RepCtx s fs t.id ∧ Rep s t (linkTo fs)
  | [], t => by simp [RepCtx, linkTo]
  | f :: fs, t => by
    rw [plug_cons, rep_plug fs (f.fill t), Frame.fill, rep_node, repKids_append, RepKids, Nat.zero_add]
    simp only [RepCtx, linkTo_cons, List.map_append, List.map_cons, id_node]
    tauto

theorem repCtx_congr : ∀ (fs : List (Frame V)) (b : Nat), (∀ x ∈ ctxIds fs, s'.nodes x = s.nodes x) →
    (RepCtx s' fs b ↔ RepCtx s fs b)
  | [], _, _ => Iff.rfl
  | f :: fs, b, h => by
    simp only [ctxIds, List.mem_cons, List.mem_append] at h
    rw [RepCtx, RepCtx, h f.id (.inl rfl), repKids_congr f.id 0 f.left fun x hx => h x (.inr (.inl (.inl hx))),
      repKids_congr f.id _ f.right fun x hx => h x (.inr (.inl (.inr hx))),
      repCtx_congr fs f.id fun x hx => h x (.inr (.inr hx))]

end Tree

end Gvisor.Segment
