import Gvisor.Segment.Insert

/-!
# Lookups follow the sorted list

`Find` descends from the root by binary search in each node (`searchNode_spec`) and stops at
the place of the traversal that holds its key: a segment containing it, or a gap with every
segment before it ending at or before the key and every segment after it starting after
(`findLoop_spec`). By position in `seq t` (`Inv.find_cases`): the first segment that ends
after the key if it contains the key, else the gap before it. The bounds searches return the
neighbouring positions (`Inv.bounds`), and `lookups_follow_seq` collects what the lookups and
the iterators' steps do. A gap's range ends at `MaxKey` past the last segment, so it never
contains `MaxKey` itself (`find_maxKey_gap_excludes_key`).
-/

set_option autoImplicit false

namespace Gvisor.Segment

variable {V : Type}

theorem Ordered.getElem? {l : List (FileRange × V)} (h : Ordered l) {i j : Nat} {x y : FileRange × V} (hij : i < j)
    (hx : l[i]? = some x) (hy : l[j]? = some y) : x.1.end ≤ y.1.start := by
  obtain ⟨hi, rfl⟩ := List.getElem?_eq_some_iff.mp hx
  obtain ⟨hj, rfl⟩ := List.getElem?_eq_some_iff.mp hy
  exact List.pairwise_iff_getElem.mp h.1 i j hi hj hij

theorem Ordered.wf? {l : List (FileRange × V)} (h : Ordered l) {i : Nat} {x : FileRange × V} (hx : l[i]? = some x) :
    x.1.start < x.1.end := h.2 x (List.getElem?_mem hx)

theorem Ordered.sublist {l l' : List (FileRange × V)} (h : Ordered l') (hs : l.Sublist l') : Ordered l :=
  ⟨h.1.sublist hs, fun e he => h.2 e (hs.subset he)⟩

theorem Ordered.before {l l' : List (FileRange × V)} {x : FileRange × V} (h : Ordered (l ++ x :: l')) :
    ∀ e ∈ l, e.1.end ≤ x.1.start := fun e he =>
  (List.pairwise_append.mp h.1).2.2 e he x (List.mem_cons_self _ _)

theorem Ordered.after {l l' : List (FileRange × V)} {x : FileRange × V} (h : Ordered (l ++ x :: l')) :
    ∀ e ∈ l', x.1.end ≤ e.1.start := fun e he =>
  (List.pairwise_cons.mp (List.pairwise_append.mp h.1).2.1).1 e he

/-! ### The sorted-list model of the lookups -/

/-- The position of the first segment of `l` that ends after `k`, or `l.length`. -/
def firstEndAfter (l : List (FileRange × V)) (k : Nat) : Nat := l.findIdx fun e => k < e.1.end

/-- The position of the first segment of `l` that starts after `k`, or `l.length`: the one
before it is the last that starts at or before `k`. -/
def firstStartAfter (l : List (FileRange × V)) (k : Nat) : Nat := l.findIdx fun e => k < e.1.start

/-- The range of the `j`th gap of `l`, the one before its `j`th segment: from the end of the
segment before it, or `MinKey`, to the start of the segment after it, or `MaxKey`. -/
def gapRange (fns : SetFunctions V) (l : List (FileRange × V)) (j : Nat) : FileRange :=
  ⟨if j = 0 then fns.minKey else (l[j - 1]?.map (·.1.end)).getD fns.minKey,
    (l[j]?.map (·.1.start)).getD fns.maxKey⟩

theorem findIdx_split {α : Type} {p : α → Bool} {L R : List α} (hL : ∀ x ∈ L, p x = false)
    (hR : ∀ x ∈ R.head?, p x = true) : (L ++ R).findIdx p = L.length := by
  rw [List.findIdx_append, List.findIdx_eq_length_of_false hL, if_neg (Nat.lt_irrefl _)]
  cases R with
  | nil => simp
  | cons x R => simp [List.findIdx_cons, hR x rfl]

theorem gapRange_split (fns : SetFunctions V) (L R : List (FileRange × V)) :
    gapRange fns (L ++ R) L.length =
      ⟨(L.getLast?.map (·.1.end)).getD fns.minKey, (R.head?.map (·.1.start)).getD fns.maxKey⟩ := by
  rcases List.eq_nil_or_concat L with rfl | ⟨L', x, rfl⟩ <;> cases R <;>
    simp [gapRange, List.getElem?_append_right, List.getElem_append_right]

namespace ReclaimSet

/-- `Find`'s binary search in a node holding the ordered segments `segs`: a segment that
contains `key`, or the index that splits the segments ending at or before `key` from those
starting after it. -/
theorem searchNode_spec {n : ReclaimNode V} {key : Nat} {segs : List (FileRange × V)}
    (hk : Agree n.keys (segs.map (·.1))) (ho : Ordered segs) : ∀ lower upper, lower ≤ upper → upper ≤ segs.length →
      (∀ j e, j < lower → segs[j]? = some e → e.1.end ≤ key) →
      (∀ j e, upper ≤ j → segs[j]? = some e → key < e.1.start) →
      match searchNode n key lower upper with
      | .inl i => ∃ e, segs[i]? = some e ∧ e.1.start ≤ key ∧ key < e.1.end
      | .inr i => i ≤ segs.length ∧ (∀ j e, j < i → segs[j]? = some e → e.1.end ≤ key) ∧
          (∀ j e, i ≤ j → segs[j]? = some e → key < e.1.start) := by
  intro lower upper
  induction lower, upper using searchNode.induct n key with
  | case1 lower upper hlt i hend hstart =>
    intro _ hu _ _
    have hi_def : i = lower + (upper - lower) / 2 := rfl
    have hi : i < segs.length := by omega
    have hkey : n.keys (i) = segs[i].1 := by
      rw [hk _ (by simpa using hi), List.getElem_map]
    rw [searchNode, dif_pos hlt]
    simp only [hend, hstart, if_true]
    exact ⟨_, List.getElem?_eq_getElem hi, hkey ▸ hstart, hkey ▸ hend⟩
  | case2 lower upper hlt i hend hstart ih =>
    intro hlu hu hlo hhi
    have hi_def : i = lower + (upper - lower) / 2 := rfl
    have hi : i < segs.length := by omega
    have hkey : n.keys (i) = segs[i].1 := by
      rw [hk _ (by simpa using hi), List.getElem_map]
    rw [searchNode, dif_pos hlt]
    simp only [hend, hstart, if_true, if_false]
    refine ih (by omega) (by omega) hlo fun j e hj he => ?_
    rcases Nat.eq_or_lt_of_le hj with rfl | hj
    · rw [List.getElem?_eq_getElem hi] at he
      cases he
      rw [← hkey]; omega
    · have := ho.getElem? hj (List.getElem?_eq_getElem hi) he
      have := ho.wf? (List.getElem?_eq_getElem hi)
      rw [← hkey] at *; omega
  | case3 lower upper hlt i hend ih =>
    intro hlu hu hlo hhi
    have hi_def : i = lower + (upper - lower) / 2 := rfl
    have hi : i < segs.length := by omega
    have hkey : n.keys (i) = segs[i].1 := by
      rw [hk _ (by simpa using hi), List.getElem_map]
    rw [searchNode, dif_pos hlt]
    simp only [hend, if_false]
    refine ih (by omega) hu (fun j e hj he => ?_) hhi
    rcases Nat.lt_succ_iff_lt_or_eq.mp hj with hj | rfl
    · have := ho.getElem? hj he (List.getElem?_eq_getElem hi)
      have := ho.wf? (List.getElem?_eq_getElem hi)
      rw [← hkey] at *; omega
    · rw [List.getElem?_eq_getElem hi] at he
      cases he
      rw [← hkey]; omega
  | case4 lower upper hlt =>
    intro hlu hu hlo hhi
    rw [searchNode, dif_neg hlt]
    exact ⟨by omega, hlo, fun j e hj he => hhi j e (by omega) he⟩

end ReclaimSet


namespace Tree

theorem segs_sublist_weave (a : Nat) : ∀ (i : Nat) (g : List (FileRange × V)) (ks : List (Tree V)),
    ks.length = g.length → g.Sublist (segsOf (weave a i g ks))
  | _, [], [], _ => by simp [weave]
  | i, x :: g, k :: ks, hlen => by
    simp only [weave, segsOf_seg, segsOf_append]
    exact ((segs_sublist_weave a (i + 1) g ks (by simpa using hlen)).trans
      (List.sublist_append_right _ _)).cons₂ x
  | _, [], _ :: _, hlen => by simp at hlen
  | _, _ :: _, [], hlen => by simp at hlen

/-- A node's own segments are among those of its subtree, in order. -/
theorem segs_sublist_seq {h : Nat} {t : Tree V} (ht : HasHeight h t) : t.segs.Sublist (seq t) := by
  obtain ⟨a, g, kids⟩ := t
  cases h with
  | zero =>
    cases (ht : kids = [])
    show g.Sublist (segsOf (walk (node a g [])))
    rw [walk_leaf, segsOf_leafWalk]
  | succ h =>
    obtain ⟨hlen, -⟩ := hasHeight_succ.mp ht
    obtain ⟨k, ks, rfl⟩ := List.exists_cons_of_length_pos (by omega : 0 < kids.length)
    rw [seq_eq_segsOf, walk, segsOf_append]
    exact (segs_sublist_weave a 0 g ks (by simpa using hlen)).trans (List.sublist_append_right _ _)

/-- What `Find` returns when it stops at a place of the traversal. -/
def found : Pos V → ReclaimIterator × ReclaimGapIterator
  | .gap a i => (⟨none, 0⟩, ⟨some a, i⟩)
  | .seg a i _ => (⟨some a, i⟩, ⟨none, 0⟩)

/-- Where `Find` may stop for `key`: at a segment that contains it, or at a gap with every
segment before it ending at or before `key` and every segment after it starting after. -/
def FindsAt (key : Nat) (pre : List (Pos V)) : Pos V → List (Pos V) → Prop
  | .seg _ _ e, _ => e.1.start ≤ key ∧ key < e.1.end
  | .gap _ _, post => (∀ e ∈ segsOf pre, e.1.end ≤ key) ∧ ∀ e ∈ segsOf post, key < e.1.start

variable {s : ReclaimSet V}

theorem exists_of_mem_take {l : List (FileRange × V)} {i : Nat} {e : FileRange × V} (h : e ∈ l.take i) :
    ∃ j < i, l[j]? = some e := by
  obtain ⟨j, hj⟩ := List.mem_iff_getElem?.mp h
  rw [List.getElem?_take] at hj
  split_ifs at hj with hji
  exact ⟨j, hji, hj⟩

theorem exists_of_mem_drop {l : List (FileRange × V)} {i : Nat} {e : FileRange × V} (h : e ∈ l.drop i) :
    ∃ j ≥ i, l[j]? = some e := by
  obtain ⟨j, hj⟩ := List.mem_iff_getElem?.mp h
  rw [List.getElem?_drop] at hj
  exact ⟨i + j, by omega, hj⟩

theorem leafWalk_eq_gap_cons (a i : Nat) (g : List (FileRange × V)) :
    ∃ T, leafWalk a i g = .gap a i :: T ∧ segsOf T = g := by
  cases g with
  | nil => exact ⟨[], rfl, rfl⟩
  | cons x g => exact ⟨_, rfl, by simp⟩

/-- `Find`'s descent from the root of a stored, ordered subtree stops at the place of its
traversal that holds `key`. -/
theorem findLoop_spec (key : Nat) : ∀ (h : Nat) (u : Tree V) (up : Option (Nat × Nat)), Rep s u up →
    HasHeight h u → Ordered (seq u) → ∀ fuel, h < fuel → ∃ pre p post, walk u = pre ++ p :: post ∧
      s.findLoop key fuel u.id = some (found p) ∧ FindsAt key pre p post
  | _, _, _, _, _, _, 0, hf => absurd hf (Nat.not_lt_zero _)
  | h, node a g kids, up, hr, ht, ho, fuel + 1, hf => by
    have hnr : (s.nodes a).nrSegments = g.length := hr.nrSegments
    have hog : Ordered g := ho.sublist (segs_sublist_seq ht)
    have hspec := @ReclaimSet.searchNode_spec _ _ key g hr.holds.keys hog 0 g.length (Nat.zero_le _)
      le_rfl (fun _ _ hj _ => absurd hj (Nat.not_lt_zero _))
      (fun j e hj he => by rw [List.getElem?_eq_none hj] at he; cases he)
    simp only [id_node, ← hnr] at hspec
    simp only [ReclaimSet.findLoop, id_node]
    split
    · rename_i i hsn
      rw [hsn] at hspec
      obtain ⟨e, he, hk1, hk2⟩ := hspec
      have hi : i < g.length := (List.getElem?_eq_some_iff.mp he).1
      refine ?_
      cases h with
      | zero =>
        cases (ht : kids = [])
        obtain ⟨L, hL, -⟩ := leafWalk_split a 0 g i hi.le
        rw [List.drop_eq_getElem_cons hi, (List.getElem?_eq_some_iff.mp he).2, Nat.zero_add] at hL
        exact ⟨L ++ [.gap a i], .seg a i e, leafWalk a (i + 1) (g.drop (i + 1)), by rw [walk_leaf, hL]; simp [leafWalk],
          rfl, hk1, hk2⟩
      | succ h =>
        obtain ⟨hlen, -⟩ := hasHeight_succ.mp ht
        obtain ⟨B, C, hw, hB, -⟩ := walk_node_split hlen (i := i + 1) (by omega)
        rcases hB with ⟨h0, -⟩ | ⟨B', e', -, he', rfl⟩
        · omega
        · rw [Nat.add_sub_cancel, he] at he'
          cases he'
          simp only [Nat.add_sub_cancel] at hw
          exact ⟨B', .seg a i e, walk kids[i + 1] ++ C, by rw [hw]; simp, rfl, hk1, hk2⟩
    · rename_i i hsn
      rw [hsn, hnr] at hspec
      obtain ⟨hi, hlo, hhi⟩ := hspec
      cases h with
      | zero =>
        cases (ht : kids = [])
        rw [if_neg (by simp [hr.hasChildren_leaf])]
        obtain ⟨L, hL, hLs⟩ := leafWalk_split a 0 g i hi
        obtain ⟨T, hT, hTs⟩ := leafWalk_eq_gap_cons a i (g.drop i)
        rw [Nat.zero_add] at hL
        refine ⟨L, .gap a i, T, by rw [walk_leaf, hL, hT], rfl, fun e he => ?_, fun e he => ?_⟩
        · rw [hLs] at he
          obtain ⟨j, hj, hje⟩ := exists_of_mem_take he
          exact hlo j e hj hje
        · rw [hTs] at he
          obtain ⟨j, hj, hje⟩ := exists_of_mem_drop he
          exact hhi j e hj hje
      | succ h =>
        obtain ⟨hlen, hks⟩ := hasHeight_succ.mp ht
        obtain ⟨k, ks, rfl⟩ := List.exists_cons_of_length_pos (by omega : 0 < kids.length)
        have hik : i < (k :: ks).length := by omega
        obtain ⟨hc, hrk⟩ := hr.child hik
        rw [if_pos hr.hasChildren_node, hc]
        simp only [Option.bind_eq_bind, Option.some_bind]
        obtain ⟨B, C, hw, hB, hC⟩ := walk_node_split hlen hik
        have hok : Ordered (seq (k :: ks)[i]) :=
          ho.sublist (by rw [seq_eq_segsOf, seq_eq_segsOf, hw]; simp [List.sublist_append_left, List.sublist_append_right])
        obtain ⟨pre, p, post, hwk, hfind, hat⟩ :=
          findLoop_spec key h _ _ hrk (hks _ (List.getElem_mem hik)) hok fuel (by omega)
        refine ⟨B ++ pre, p, post ++ C, by rw [hw, hwk]; simp, hfind, ?_⟩
        cases p with
        | seg b j e => exact hat
        | gap b j =>
          have hoB : ∀ e ∈ segsOf B, e.1.end ≤ key := by
            rcases hB with ⟨-, rfl⟩ | ⟨B', e', hi0, he', rfl⟩
            · simp
            · have hkey := hlo (i - 1) e' (by omega) he'
              have hbefore := @Ordered.before _ (segsOf B') (seq (k :: ks)[i] ++ segsOf C) e'
                (by rw [seq_eq_segsOf, hw] at ho; simpa using ho)
              have hwf := ho.2 e' (by rw [seq_eq_segsOf, hw]; simp)
              intro e he
              simp only [segsOf_append, segsOf_seg, segsOf_nil, List.mem_append, List.mem_singleton] at he
              rcases he with he | rfl
              · have := hbefore e he; omega
              · exact hkey
          have hoC : ∀ e ∈ segsOf C, key < e.1.start := by
            rcases hC with ⟨-, rfl⟩ | ⟨C', e', he', rfl⟩
            · simp
            · have hkey := hhi i e' le_rfl he'
              have hafter := @Ordered.after _ (segsOf B ++ seq (k :: ks)[i]) (segsOf C') e'
                (by rw [seq_eq_segsOf, hw] at ho; simpa using ho)
              have hwf := ho.2 e' (by rw [seq_eq_segsOf, hw]; simp)
              intro e he
              simp only [segsOf_seg, List.mem_cons] at he
              rcases he with rfl | he
              · exact hkey
              · have := hafter e he; omega
          obtain ⟨hpre, hpost⟩ := hat
          refine ⟨fun e he => ?_, fun e he => ?_⟩
          · rw [segsOf_append, List.mem_append] at he
            exact he.elim (hoB e) (hpre e)
          · rw [segsOf_append, List.mem_append] at he
            exact he.elim (hpost e) (hoC e)

/-! ### By position -/

variable {t : Tree V}

theorem segIters_eq (t : Tree V) : segIters t = ((walk t).filterMap Pos.entry?).map (·.1) := rfl

theorem length_segsOf (l : List (Pos V)) : (segsOf l).length = (l.filterMap Pos.entry?).length := by
  simp [segsOf]

/-- `Find(k)` splits the segments into those ending at or before `k` and the rest, and stops at
the first of the rest if it contains `k`, else at the gap between the two. -/
theorem Inv.find_at (hi : Inv s t) (k : Nat) : ∃ L R, seq t = L ++ R ∧ (∀ e ∈ L, e.1.end ≤ k) ∧ (∀ e ∈ R, k < e.1.end) ∧
    ((∃ e R', R = e :: R' ∧ e.1.start ≤ k ∧ s.find k = some (segAt t L.length, ⟨none, 0⟩)) ∨
      ((∀ e ∈ R, k < e.1.start) ∧ s.find k = some (⟨none, 0⟩, gapAt t L.length))) := by
  obtain ⟨h, ht, hf⟩ := hi.height
  obtain ⟨pre, p, post, hw, hfind, hat⟩ := findLoop_spec k h t none hi.rep ht hi.ordered s.fresh hf
  have hfind' : s.find k = some (found p) := by rw [ReclaimSet.find, ← hi.root]; exact hfind
  have ho := hi.ordered
  rw [seq_eq_segsOf, hw] at ho
  cases p with
  | seg b j e =>
    obtain ⟨hk1, hk2⟩ := hat
    simp only [segsOf_append, segsOf_seg] at ho
    have hL : ∀ e' ∈ segsOf pre, e'.1.end ≤ k := fun e' he' => by have := ho.before e' he'; omega
    have hR : ∀ e' ∈ e :: segsOf post, k < e'.1.end := by
      intro e' he'
      rcases List.mem_cons.mp he' with rfl | he'
      · exact hk2
      · have := ho.after e' he'; have := ho.2 e' (by simp [he']); omega
    have hseq : seq t = segsOf pre ++ e :: segsOf post := by rw [seq_eq_segsOf, hw]; simp
    refine ⟨segsOf pre, e :: segsOf post, hseq, hL, hR,
      .inl ⟨e, _, rfl, hk1, ?_⟩⟩
    rw [hfind', segAt_of_getElem? (a := b) (i := j)]
    · rfl
    · rw [segIters_eq, hw, List.filterMap_append, List.map_append, List.getElem?_append_right (by simp [length_segsOf])]
      simp [length_segsOf]
  | gap b j =>
    obtain ⟨hpre, hpost⟩ := hat
    have hR : ∀ e ∈ segsOf post, k < e.1.end := fun e he => by
      have := hpost e he; have := ho.2 e (by simp [he]); omega
    have hseq : seq t = segsOf pre ++ segsOf post := by rw [seq_eq_segsOf, hw]; simp
    refine ⟨segsOf pre, segsOf post, hseq, hpre, hR,
      .inr ⟨hpost, ?_⟩⟩
    rw [hfind', gapAt_of_getElem? (a := b) (i := j)]
    · rfl
    · have hg := hi.shape.alternates.gaps_before_gap hw
      rw [gapIters, hw, List.filterMap_append, List.getElem?_append_right (by simp [length_segsOf, hg])]
      simp [length_segsOf, hg]

/-- The place `Find(k)` stops at, by position in `seq t`: the first segment that ends after
`k` if it contains `k`, else the gap before it. -/
theorem Inv.find_cases (hi : Inv s t) (k : Nat) :
    (∃ j e, (seq t)[j]? = some e ∧ e.1.start ≤ k ∧ k < e.1.end ∧ firstEndAfter (seq t) k = j ∧
      firstStartAfter (seq t) k = j + 1 ∧ s.find k = some (segAt t j, ⟨none, 0⟩)) ∨
    (∃ j ≤ (seq t).length, (¬∃ e ∈ seq t, e.1.start ≤ k ∧ k < e.1.end) ∧ firstEndAfter (seq t) k = j ∧
      firstStartAfter (seq t) k = j ∧
      (∀ fns : SetFunctions V, fns.minKey ≤ k → k < fns.maxKey →
        (gapRange fns (seq t) j).start ≤ k ∧ k < (gapRange fns (seq t) j).end) ∧
      s.find k = some (⟨none, 0⟩, gapAt t j)) := by
  obtain ⟨L, R, hseq, hL, hR, hcase⟩ := hi.find_at k
  have ho := hi.ordered
  rw [hseq] at ho
  have hLs : ∀ x ∈ L, x.1.start ≤ k := fun x hx => by
    have := ho.2 x (List.mem_append_left _ hx); have := hL x hx; omega
  have hE : firstEndAfter (seq t) k = L.length := by
    rw [firstEndAfter, hseq]
    exact findIdx_split (fun x hx => by simpa using hL x hx)
      (fun x hx => by simpa using hR x (List.mem_of_mem_head? hx))
  rcases hcase with ⟨e, R', rfl, hk, hfind⟩ | ⟨hR', hfind⟩
  · have hR'' : ∀ x ∈ R', k < x.1.start := fun x hx => by
      have := ho.after x hx; have := hR e (List.mem_cons_self _ _); omega
    refine .inl ⟨L.length, e, by rw [hseq, List.getElem?_append_right le_rfl]; simp, hk, hR e (List.mem_cons_self _ _), hE, ?_, hfind⟩
    rw [firstStartAfter, hseq, ← List.singleton_append, ← List.append_assoc, findIdx_split,
      List.length_append, List.length_singleton]
    · intro x hx
      rcases List.mem_append.mp hx with hx | hx
      · simpa using hLs x hx
      · simpa [List.mem_singleton.mp hx] using hk
    · exact fun x hx => by simpa using hR'' x (List.mem_of_mem_head? hx)
  · refine .inr ⟨L.length, by simp [hseq], ?_, hE, ?_, fun fns hmin hmax => ?_, hfind⟩
    · rintro ⟨e, he, hk1, hk2⟩
      rw [hseq] at he
      rcases List.mem_append.mp he with he | he
      · have := hL e he; omega
      · have := hR' e he; omega
    · rw [firstStartAfter, hseq]
      exact findIdx_split (fun x hx => by simpa using hLs x hx)
        (fun x hx => by simpa using hR' x (List.mem_of_mem_head? hx))
    · rw [hseq, gapRange_split]
      constructor
      · cases hl : L.getLast? with
        | none => simpa using hmin
        | some x => simpa using hL x (List.mem_of_getLast?_eq_some hl)
      · cases hr : R.head? with
        | none => simpa using hmax
        | some x => simpa using hR' x (List.mem_of_mem_head? hr)

/-- The bounds searches by position in `seq t`. -/
theorem Inv.bounds (hi : Inv s t) (k : Nat) :
    s.lowerBoundSegment k = some (segAt t (firstEndAfter (seq t) k)) ∧
    s.upperBoundSegment k = some (segBefore t (firstStartAfter (seq t) k)) ∧
    s.lowerBoundGap k = some (gapAt t (firstStartAfter (seq t) k)) ∧
    s.upperBoundGap k = some (gapAt t (firstEndAfter (seq t) k)) := by
  rcases hi.find_cases k with ⟨j, e, hj, -, -, hE, hS, hfind⟩ | ⟨j, hj, -, hE, hS, -, hfind⟩
  · have hjn : j < (seq t).length := (List.getElem?_eq_some_iff.mp hj).1
    obtain ⟨b, i, hs, -⟩ := hi.shape.reads hjn
    obtain ⟨-, -, hng, hpg⟩ := hi.shape.seg_steps hjn
    rw [hs] at hng hpg
    simp [ReclaimSet.lowerBoundSegment, ReclaimSet.upperBoundSegment, ReclaimSet.lowerBoundGap,
      ReclaimSet.upperBoundGap, hfind, hE, hS, hs, segBefore, hng, hpg, ReclaimIterator.ok,
      ReclaimGapIterator.ok]
  · obtain ⟨l, i, hg, -⟩ := hi.shape.gapAt_mem hj
    obtain ⟨hns, hps, -⟩ := hi.shape.gap_steps hj
    rw [hg] at hns hps
    simp [ReclaimSet.lowerBoundSegment, ReclaimSet.upperBoundSegment, ReclaimSet.lowerBoundGap,
      ReclaimSet.upperBoundGap, hfind, hE, hS, hg, hns, hps, ReclaimIterator.ok, ReclaimGapIterator.ok]

/-- A gap iterator reads the range between its neighbouring segments, or the key bounds. -/
theorem Inv.gap_range (hi : Inv s t) (fns : SetFunctions V) {j : Nat} (hj : j ≤ (seq t).length) :
    (gapAt t j).range fns s = some (gapRange fns (seq t) j) := by
  obtain ⟨hns, hps, -⟩ := hi.shape.gap_steps hj
  have hstart : (gapAt t j).start fns s = some (gapRange fns (seq t) j).start := by
    cases j with
    | zero => simp [ReclaimGapIterator.start, hps, segBefore, ReclaimIterator.ok, gapRange]
    | succ j =>
      have hjn : j < (seq t).length := by omega
      obtain ⟨b, i, hs, -, -, hr, -⟩ := hi.shape.reads hjn
      simp only [segBefore, Nat.add_one_ne_zero, if_false, Nat.add_sub_cancel, hs] at hps
      rw [hs] at hr
      simp [ReclaimGapIterator.start, hps, ReclaimIterator.ok, ReclaimIterator.end, hr, gapRange,
        List.getElem?_eq_getElem hjn]
  have hend : (gapAt t j).end fns s = some (gapRange fns (seq t) j).end := by
    rcases Nat.lt_or_ge j (seq t).length with hjn | hjn
    · obtain ⟨b, i, hs, -, -, hr, -⟩ := hi.shape.reads hjn
      rw [hs] at hr hns
      simp [ReclaimGapIterator.end, hns, ReclaimIterator.ok, ReclaimIterator.start, hr, gapRange,
        List.getElem?_eq_getElem hjn]
    · rw [segAt_of_le hjn] at hns
      simp [ReclaimGapIterator.end, hns, ReclaimIterator.ok, gapRange, List.getElem?_eq_none hjn]
  simp [ReclaimGapIterator.range, hstart, hend]

/-- What agreement with the sorted list `seq t` asks of the lookups of `s` at the key `k`. -/
structure Lookups (s : ReclaimSet V) (t : Tree V) (fns : SetFunctions V) (k : Nat) : Prop where
  /-- A segment that contains `k` is found. -/
  findSegment : (∃ e ∈ seq t, e.1.start ≤ k ∧ k < e.1.end) →
    ∃ seg r, s.find k = some (seg, ⟨none, 0⟩) ∧ seg.ok ∧ seg.range s = some r ∧ r.start ≤ k ∧ k < r.end
  /-- Otherwise the gap that contains `k` is, for keys from `MinKey` to below `MaxKey`. -/
  findGap : (¬∃ e ∈ seq t, e.1.start ≤ k ∧ k < e.1.end) → fns.minKey ≤ k → k < fns.maxKey →
    ∃ gap r, s.find k = some (⟨none, 0⟩, gap) ∧ gap.ok ∧ gap.range fns s = some r ∧ r.start ≤ k ∧
      k < r.end
  lowerBoundSegment : s.lowerBoundSegment k = some (segAt t (firstEndAfter (seq t) k))
  upperBoundSegment : s.upperBoundSegment k = some (segBefore t (firstStartAfter (seq t) k))
  lowerBoundGap : s.lowerBoundGap k = some (gapAt t (firstStartAfter (seq t) k))
  upperBoundGap : s.upperBoundGap k = some (gapAt t (firstEndAfter (seq t) k))
  /-- The iterator of the `j`th segment reads it and steps to its neighbours. -/
  segSteps : ∀ j (hj : j < (seq t).length), (segAt t j).range s = some (seq t)[j].1 ∧
    (segAt t j).nextSegment s = some (segAt t (j + 1)) ∧ (segAt t j).prevSegment s = some (segBefore t j) ∧
    (segAt t j).nextGap s = some (gapAt t (j + 1)) ∧ (segAt t j).prevGap s = some (gapAt t j)
  /-- The iterator of the `j`th gap reads its range and steps to its neighbours. -/
  gapSteps : ∀ j ≤ (seq t).length, (gapAt t j).range fns s = some (gapRange fns (seq t) j) ∧
    (gapAt t j).nextSegment s = some (segAt t j) ∧ (gapAt t j).prevSegment s = some (segBefore t j) ∧
    (gapAt t j).nextGap s = some (gapAt t (j + 1)) ∧ (gapAt t j).prevGap s = some (gapBefore t j)
  /-- Past the last segment and gap the iterators are terminal. -/
  terminal : segAt t (seq t).length = ⟨none, 0⟩ ∧ gapAt t ((seq t).length + 1) = ⟨none, 0⟩

theorem lookups_follow_seq (hi : Inv s t) (fns : SetFunctions V) (k : Nat) : Lookups s t fns k where
  findSegment hc := by
    rcases hi.find_cases k with ⟨j, e, hj, hk1, hk2, -, -, hfind⟩ | ⟨-, -, hn, -⟩
    · obtain ⟨hjn, rfl⟩ := List.getElem?_eq_some_iff.mp hj
      obtain ⟨b, i, hs, -, -, hr, -⟩ := hi.shape.reads hjn
      exact ⟨_, _, hfind, by simp [hs, ReclaimIterator.ok], hr, hk1, hk2⟩
    · exact absurd hc hn
  findGap hc hmin hmax := by
    rcases hi.find_cases k with ⟨j, e, hj, hk1, hk2, -⟩ | ⟨j, hj, -, -, -, hin, hfind⟩
    · exact absurd ⟨e, List.getElem?_mem hj, hk1, hk2⟩ hc
    · obtain ⟨l, i, hg, -⟩ := hi.shape.gapAt_mem hj
      exact ⟨_, _, hfind, by simp [hg, ReclaimGapIterator.ok], hi.gap_range fns hj, hin fns hmin hmax⟩
  lowerBoundSegment := (hi.bounds k).1
  upperBoundSegment := (hi.bounds k).2.1
  lowerBoundGap := (hi.bounds k).2.2.1
  upperBoundGap := (hi.bounds k).2.2.2
  segSteps j hj := ⟨(hi.shape.reads hj).choose_spec.choose_spec.2.2.2.1, hi.shape.seg_steps hj⟩
  gapSteps j hj := ⟨hi.gap_range fns hj, hi.shape.gap_steps hj⟩
  terminal := ⟨segAt_of_le le_rfl, gapAt_of_lt hi.shape (Nat.lt_succ_self _)⟩

/-- On the set of the two segments `[0, 8)` and `[16, 24)`, the key `4` lies in the first:
`Find` returns it, and the bounds searches return it and the segment after it. -/
theorem lookups_follow_seq_two_segments :
    ∃ (s : ReclaimSet Nat) (t : Tree Nat), Inv s t ∧ seq t = [(⟨0, 8⟩, 1), (⟨16, 24⟩, 2)] ∧
      Lookups s t ⟨0, 2 ^ 64 - 1, fun v => v, fun _ v _ _ => some v, fun _ v _ => (v, v)⟩ 4 :=
  let ⟨s, t, hi, hseq⟩ := exists_two_segments
  ⟨s, t, hi, hseq, lookups_follow_seq hi _ 4⟩

/-- With `MaxKey` the largest key, `Find(MaxKey)` on the zero set returns its only gap, whose
range `[MinKey, MaxKey)` does not contain `MaxKey`. -/
theorem find_maxKey_gap_excludes_key :
    Inv (ReclaimSet.empty : ReclaimSet Nat) (.node 0 [] []) ∧
      (ReclaimSet.empty : ReclaimSet Nat).find (2 ^ 64 - 1) = some (⟨none, 0⟩, ⟨some 0, 0⟩) ∧
      (⟨some 0, 0⟩ : ReclaimGapIterator).range ⟨0, 2 ^ 64 - 1, fun v => v, fun _ v _ _ => some v, fun _ v _ => (v, v)⟩
        (ReclaimSet.empty : ReclaimSet Nat) = some ⟨0, 2 ^ 64 - 1⟩ := by
  have hseq : seq (.node 0 [] [] : Tree Nat) = [] := rfl
  refine ⟨Inv.empty, ?_, (@Inv.empty Nat _).gap_range _ (j := 0) (by simp [hseq])⟩
  rcases (@Inv.empty Nat _).find_cases (2 ^ 64 - 1) with ⟨j, e, hj, -⟩ | ⟨j, hj, -, -, -, -, hfind⟩
  · simp [hseq] at hj
  · obtain rfl : j = 0 := by simpa [hseq] using hj
    exact hfind

end Tree

end Gvisor.Segment
