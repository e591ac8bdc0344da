import Mathlib.Data.List.Basic
import Gvisor.Segment.Mutate

/-!
# The heap under the reclaim set's writes

What the model's heap helpers do, stated once so that no later proof unfolds them: a write
changes one node, an allocation adds one, and the relinking loops `adoptChildren`,
`renumberChildren` and `adoptPairs` change the links of the children they walk and nothing
else (`adoptChildren_spec`). The `copy` patterns of the node arrays are list edits on the
segments a node holds: an insertion (`agree_insert`), an erasure (`agree_erase`), a shift to
make room in front (`agree_cons`), and the concatenation of a merge (`agree_merge`).
-/

set_option autoImplicit false

namespace Gvisor.Segment

variable {V : Type}

namespace ReclaimSet

@[simp] theorem modify_nodes (s : ReclaimSet V) (a b : Nat) (f : ReclaimNode V → ReclaimNode V) :
    (s.modify a f).nodes b = if b = a then f (s.nodes a) else s.nodes b := by
  simp [modify, Function.update_apply]

@[simp] theorem modify_fresh (s : ReclaimSet V) (a : Nat) (f : ReclaimNode V → ReclaimNode V) :
    (s.modify a f).fresh = s.fresh := rfl

@[simp] theorem alloc_addr (s : ReclaimSet V) (n : ReclaimNode V) : (s.alloc n).2 = s.fresh := rfl

@[simp] theorem alloc_fresh (s : ReclaimSet V) (n : ReclaimNode V) : (s.alloc n).1.fresh = s.fresh + 1 := rfl

@[simp] theorem alloc_nodes (s : ReclaimSet V) (n : ReclaimNode V) (b : Nat) :
    (s.alloc n).1.nodes b = if b = s.fresh then n else s.nodes b := by
  simp [alloc, Function.update_apply]

/-! ### The relinking loops -/

/-- The relinking loops: each child `cs[j]` of `p`, at index `lo + j`, gets `g (lo + j)`,
which leaves its children alone; nothing else changes. -/
theorem relink_spec (p : Nat) (g : Nat → ReclaimNode V → ReclaimNode V) (hg : ∀ i m, (g i m).children = m.children) :
    ∀ (cs : List Nat) (s : ReclaimSet V) (lo : Nat), cs.Nodup →
    (∀ j (h : j < cs.length), (s.nodes p).children (lo + j) = some cs[j]) →
    ∃ s', (List.range' lo cs.length).foldlM (fun s i => ((s.nodes p).children i).map fun c => s.modify c (g i)) s =
        some s' ∧ s'.fresh = s.fresh ∧
      (∀ j (h : j < cs.length), s'.nodes cs[j] = g (lo + j) (s.nodes cs[j])) ∧ ∀ b, b ∉ cs → s'.nodes b = s.nodes b
  | [], s, lo, _, _ => ⟨s, rfl, rfl, by simp, fun _ _ => rfl⟩
  | c :: cs, s, lo, hnd, hch => by
    have hc : (s.nodes p).children lo = some c := by simpa using hch 0 (by simp)
    let s1 := s.modify c (g lo)
    have hchildren : (s1.nodes p).children = (s.nodes p).children := by
      simp only [s1, modify_nodes]
      split_ifs with h
      · subst h; exact hg _ _
      · rfl
    have hch1 : ∀ j (h : j < cs.length), (s1.nodes p).children (lo + 1 + j) = some cs[j] := by
      intro j h
      rw [hchildren, Nat.add_assoc, Nat.add_comm 1 j]
      exact hch (j + 1) (by simpa using h)
    obtain ⟨s', hrun, hfresh, hin, hout⟩ := relink_spec p g hg cs s1 (lo + 1) (List.nodup_cons.mp hnd).2 hch1
    have hnot : c ∉ cs := (List.nodup_cons.mp hnd).1
    refine ⟨s', ?_, hfresh, fun j h => ?_, fun b hb => ?_⟩
    · simp only [List.length_cons, List.range'_succ, List.foldlM_cons, hc, Option.map_some', Option.bind_eq_bind,
        Option.some_bind]
      exact hrun
    · cases j with
      | zero => simp [hout c hnot, s1]
      | succ j =>
        have hj : j < cs.length := by simpa using h
        have hne : cs[j] ≠ c := fun h' => hnot (h' ▸ List.getElem_mem hj)
        simp only [List.getElem_cons_succ]
        rw [hin j hj]
        simp [s1, hne, Nat.add_assoc, Nat.add_comm 1]
    · simp only [List.mem_cons, not_or] at hb
      rw [hout b hb.2]
      simp [s1, hb.1]

/-- `adoptChildren` walks the children `cs` at `lo, lo + 1, ...`: each gets `p` as its parent
and its index as `parentIndex`; nothing else changes. -/
theorem adoptChildren_spec (p : Nat) (cs : List Nat) (s : ReclaimSet V) (lo : Nat) (hnd : cs.Nodup)
    (hch : ∀ j (h : j < cs.length), (s.nodes p).children (lo + j) = some cs[j]) :
    ∃ s', s.adoptChildren p lo (lo + cs.length) = some s' ∧ s'.fresh = s.fresh ∧
      (∀ j (h : j < cs.length), s'.nodes cs[j] = { s.nodes cs[j] with parent := some p, parentIndex := lo + j }) ∧
      ∀ b, b ∉ cs → s'.nodes b = s.nodes b := by
  have := relink_spec p (fun i m => { m with parent := some p, parentIndex := i }) (fun _ _ => rfl) cs s lo hnd hch
  simpa only [adoptChildren, adopt, Nat.add_sub_cancel_left] using this

/-- `renumberChildren` walks the children `cs` at `lo, lo + 1, ...`: each gets its index as
`parentIndex`; nothing else changes. -/
theorem renumberChildren_spec (p : Nat) (cs : List Nat) (s : ReclaimSet V) (lo : Nat) (hnd : cs.Nodup)
    (hch : ∀ j (h : j < cs.length), (s.nodes p).children (lo + j) = some cs[j]) :
    ∃ s', s.renumberChildren p lo (lo + cs.length) = some s' ∧ s'.fresh = s.fresh ∧
      (∀ j (h : j < cs.length), s'.nodes cs[j] = { s.nodes cs[j] with parentIndex := lo + j }) ∧
      ∀ b, b ∉ cs → s'.nodes b = s.nodes b := by
  have := relink_spec p (fun i m => { m with parentIndex := i }) (fun _ _ => rfl) cs s lo hnd hch
  simpa only [renumberChildren, renumber, Nat.add_sub_cancel_left] using this

end ReclaimSet

/-! ### The segment arrays

A node's `keys` and `values` hold its segments in their first cells (`Agree`); its
`children` hold its children and nil after them (`AgreeAll`). Each `copy` pattern of the
code is a list edit on what they hold. -/

section Arrays

variable {α : Type}

/-- The first cells of `arr` hold `l`. -/
def Agree (arr : Nat → α) (l : List α) : Prop := ∀ i (h : i < l.length), arr i = l[i]

/-- `arr` holds `l` and nil after it. -/
def AgreeAll (arr : Nat → Option α) (l : List α) : Prop := ∀ i, arr i = l[i]?

section Keys

variable {arr : Nat → α} {l : List α}

theorem agree_update_of_le (h : Agree arr l) {i : Nat} (hi : l.length ≤ i) (x : α) :
    Agree (Function.update arr i x) l := fun j hj => by
  rw [Function.update_noteq (by omega), h j hj]

theorem agree_update (h : Agree arr l) {i : Nat} (hi : i < l.length) (x : α) :
    Agree (Function.update arr i x) (l.set i x) := fun j hj => by
  simp only [List.length_set] at hj
  by_cases hji : j = i
  · subst hji; simp
  · rw [Function.update_noteq hji, h j hj, List.getElem_set_ne (Ne.symm hji)]

theorem agree_concat (h : Agree arr l) (x : α) : Agree (Function.update arr l.length x) (l ++ [x]) := fun j hj => by
  simp only [List.length_append, List.length_singleton] at hj
  by_cases hji : j < l.length
  · rw [Function.update_noteq (by omega), h j hji, List.getElem_append_left hji]
  · have : j = l.length := by omega
    subst this; simp

theorem agree_copy {dst : Nat → α} (h : Agree arr l) {lo m hi : Nat} (hm : lo + m ≤ l.length) (hhi : m ≤ hi - lo) :
    Agree (copySlice dst 0 m arr lo hi) ((l.drop lo).take m) := fun j hj => by
  simp only [List.length_take, List.length_drop] at hj
  simp only [copySlice, List.getElem_take, List.getElem_drop]
  rw [if_pos (by omega), h _ (by omega)]
  simp only [Nat.sub_zero]

theorem agree_append_copy {base src : Nat → α} {l1 l2 : List α} (hb : Agree base l1) (hs : Agree src l2) {cap : Nat}
    (hcap : l1.length + l2.length ≤ cap) :
    Agree (copySlice base l1.length cap src 0 l2.length) (l1 ++ l2) := fun j hj => by
  simp only [List.length_append] at hj
  by_cases hji : j < l1.length
  · simp [copySlice, hb j hji, List.getElem_append_left hji]; omega
  · rw [List.getElem_append_right (by omega), copySlice, if_pos (by omega), hs _ (by omega)]
    congr 1; omega

theorem agree_copy_prefix {dst : Nat → α} (h : Agree arr l) :
    Agree (copySlice dst 0 l.length arr 0 l.length) (l ++ [dst l.length]) := fun j hj => by
  simp only [List.length_append, List.length_singleton] at hj
  by_cases hji : j < l.length
  · rw [List.getElem_append_left hji, copySlice, if_pos (by omega), h _ (by omega)]
    congr 1; omega
  · have : j = l.length := by omega
    subst this; simp [copySlice]

theorem agree_insert (h : Agree arr l) {i cap : Nat} (hi : i ≤ l.length) (hcap : l.length < cap) (x : α) :
    Agree (Function.update (copySlice arr (i + 1) cap arr i l.length) i x) (l.take i ++ x :: l.drop i) := by
  intro j hj
  have htake : (l.take i).length = i := by simp; omega
  simp only [List.length_append, htake, List.length_cons, List.length_drop] at hj
  rcases Nat.lt_trichotomy j i with hji | rfl | hji
  · rw [List.getElem_append_left (by omega)]
    simp [Function.update_noteq (Nat.ne_of_lt hji), copySlice, h j (by omega)]
    omega
  · rw [List.getElem_append_right (by omega)]
    simp [htake]
  · rw [List.getElem_append_right (by omega)]
    obtain ⟨k, rfl⟩ : ∃ k, j = i + 1 + k := ⟨j - (i + 1), by omega⟩
    have hk : i + 1 + k - (l.take i).length = k + 1 := by omega
    simp only [hk, List.getElem_cons_succ, List.getElem_drop]
    rw [Function.update_noteq (by omega), copySlice, if_pos (by omega), h _ (by omega)]
    congr 1; omega

theorem agree_erase (h : Agree arr l) {i cap : Nat} (hi : i < l.length) (hcap : l.length ≤ cap) :
    Agree (copySlice arr i cap arr (i + 1) l.length) (l.take i ++ l.drop (i + 1)) := by
  intro j hj
  have htake : (l.take i).length = i := by simp; omega
  simp only [List.length_append, htake, List.length_drop] at hj
  by_cases hji : j < i
  · rw [List.getElem_append_left (by omega)]
    simp [copySlice, h j (by omega)]
    omega
  · rw [List.getElem_append_right (by omega)]
    simp only [htake, List.getElem_drop]
    rw [copySlice, if_pos (by omega), h _ (by omega)]

end Keys

/-! ### The children array -/

section Children

variable {arr : Nat → Option α} {l : List α}

theorem agreeAll_nil : AgreeAll (fun _ => (none : Option α)) [] := fun _ => rfl

theorem agreeAll_insert (h : AgreeAll arr l) {i cap : Nat} (hi : i ≤ l.length) (hcap : l.length < cap) (x : α) :
    AgreeAll (Function.update (copySlice arr (i + 1) cap arr i l.length) i (some x)) (l.take i ++ x :: l.drop i) := by
  intro j
  have htake : (l.take i).length = i := by simp; omega
  rcases Nat.lt_trichotomy j i with hji | rfl | hji
  · rw [List.getElem?_append_left (by omega), List.getElem?_take_of_lt hji,
      Function.update_noteq (Nat.ne_of_lt hji), copySlice, if_neg (by omega), h]
  · rw [List.getElem?_append_right (by omega)]
    simp [htake]
  · rw [List.getElem?_append_right (by omega)]
    obtain ⟨k, rfl⟩ : ∃ k, j = i + 1 + k := ⟨j - (i + 1), by omega⟩
    have hk : i + 1 + k - (l.take i).length = k + 1 := by omega
    rw [hk, List.getElem?_cons_succ, List.getElem?_drop, Function.update_noteq (by omega), copySlice]
    split_ifs with hc
    · rw [h]; congr 1; omega
    · rw [h, List.getElem?_eq_none (by omega), List.getElem?_eq_none (by omega)]

theorem agreeAll_erase (h : AgreeAll arr l) {i cap : Nat} (hi : i < l.length) (hcap : l.length ≤ cap) :
    AgreeAll (Function.update (copySlice arr i cap arr (i + 1) l.length) (l.length - 1) none)
      (l.take i ++ l.drop (i + 1)) := by
  intro j
  have htake : (l.take i).length = i := by simp; omega
  by_cases hjl : j = l.length - 1
  · subst hjl
    rw [Function.update_same, List.getElem?_eq_none]
    simp; omega
  rw [Function.update_noteq hjl, copySlice]
  by_cases hji : j < i
  · rw [if_neg (by omega), List.getElem?_append_left (by omega), List.getElem?_take_of_lt hji, h]
  · rw [List.getElem?_append_right (by omega), htake, List.getElem?_drop]
    split_ifs with hc
    · rw [h]
    · rw [h, List.getElem?_eq_none (by omega), List.getElem?_eq_none (by omega)]

theorem agreeAll_tail (h : AgreeAll arr l) {n cap : Nat} (hn : l.length = n + 1) (hcap : n + 1 ≤ cap) :
    AgreeAll (Function.update (copySlice arr 0 n arr 1 cap) n none) (l.drop 1) := by
  intro j
  rw [List.getElem?_drop]
  by_cases hjn : j = n
  · subst hjn; rw [Function.update_same, List.getElem?_eq_none (by omega)]
  rw [Function.update_noteq hjn, copySlice]
  split_ifs with hc
  · rw [h, Nat.sub_zero]
  · rw [h, List.getElem?_eq_none (by omega), List.getElem?_eq_none (by omega)]

theorem agreeAll_dropLast (h : AgreeAll arr l) : AgreeAll (Function.update arr (l.length - 1) none) l.dropLast := by
  intro j
  by_cases hj : j = l.length - 1
  · subst hj; rw [Function.update_same, List.getElem?_eq_none (by simp)]
  · rw [Function.update_noteq hj, h]
    by_cases hjl : j < l.length - 1
    · rw [List.getElem?_dropLast]; simp [hjl]
    · rw [List.getElem?_eq_none (by omega), List.getElem?_eq_none (by simp; omega)]

theorem agreeAll_concat (h : AgreeAll arr l) (x : α) : AgreeAll (Function.update arr l.length (some x)) (l ++ [x]) := by
  intro j
  by_cases hj : j = l.length
  · subst hj; simp
  · rw [Function.update_noteq hj, h]
    by_cases hjl : j < l.length
    · rw [List.getElem?_append_left hjl]
    · rw [List.getElem?_eq_none (by omega), List.getElem?_eq_none (by simp; omega)]

theorem agreeAll_nilSlice {arr : Nat → Option Nat} {l : List Nat} (h : AgreeAll arr l) {n cap : Nat}
    (hcap : l.length ≤ cap) : AgreeAll (nilSlice arr n cap) (l.take n) := by
  intro j
  rw [List.getElem?_take, nilSlice]
  split_ifs with h1 h2 h2
  · omega
  · rfl
  · rw [h]
  · rw [h, List.getElem?_eq_none (by omega)]

theorem agreeAll_copy {dst : Nat → Option α} (hd : ∀ i, dst i = none) (h : AgreeAll arr l) {lo m hi : Nat}
    (hhi : m ≤ hi - lo) :
    AgreeAll (copySlice dst 0 m arr lo hi) ((l.drop lo).take m) := by
  intro j
  rw [List.getElem?_take, List.getElem?_drop, copySlice]
  split_ifs with h1 h2 h2
  · rw [h, Nat.sub_zero]
  · omega
  · omega
  · exact hd j

theorem agreeAll_append_copy {base src : Nat → Option α} {l1 l2 : List α} (hb : AgreeAll base l1)
    (hs : AgreeAll src l2) {cap : Nat} (hcap : l1.length + l2.length ≤ cap) :
    AgreeAll (copySlice base l1.length cap src 0 l2.length) (l1 ++ l2) := by
  intro j
  rw [copySlice]
  by_cases hji : j < l1.length
  · rw [if_neg (by omega), List.getElem?_append_left hji, hb]
  · rw [List.getElem?_append_right (by omega)]
    split_ifs with hc
    · rw [hs]; congr 1; omega
    · rw [hb, List.getElem?_eq_none (by omega), List.getElem?_eq_none (by omega)]

theorem agreeAll_copy_prefix {dst : Nat → Option α} (h : AgreeAll arr l) (hd : ∀ i, l.length ≤ i → dst i = none) :
    AgreeAll (copySlice dst 0 l.length arr 0 l.length) l := by
  intro j
  rw [copySlice]
  split_ifs with hc
  · rw [h]; congr 1; omega
  · rw [hd j (by omega), List.getElem?_eq_none (by omega)]

end Children

end Arrays

end Gvisor.Segment
