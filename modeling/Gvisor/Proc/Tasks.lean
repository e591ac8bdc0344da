import Mathlib.Algebra.Group.Nat.Basic
import Mathlib.Data.Nat.Defs
import Mathlib.Data.List.Sort
import Mathlib.Data.Int.Defs

/-!
# Listing /proc

`tasksInode.IterDirents` (sentry/fsimpl/proc/tasks.go) lists `self` at offset 256
(`FIRST_PROCESS_ENTRY`), `thread-self` at 257, and then the thread-group leaders of the PID
namespace in increasing order, the leader `tid` with the resume offset `NextOff = 258 + tid +
1`, as Linux does. A call starts at `offset`, skips the processes below `offset - 258`, and
stops at the first dirent its callback refuses.

A refused dirent ends the call with the offset it started from plus the number of dirents
accepted, a count, while the next call decodes its offset as a PID. Resuming at the returned
offset lists again the processes between the count and the last PID listed:
`iterDirents_resume_repeats` shows `1` listed twice for the PIDs `1, 2`. Resuming at the
`NextOff` of the last accepted dirent instead is exact (`listByNextOff_exact`), as long as every
PID is below `TasksLimit - 258`; above that, a `NextOff` at or past `maxTaskID` ends the
listing early, which `iterDirents_resume_repeats` also shows.

Scope. A PID namespace is its thread groups in `ThreadGroups()` order, each with its ID and
whether its leader is non-nil. A callback accepts dirents until its room runs out (`none`:
without limit) and refuses the next. Inode numbers come from the filesystem's counter.
`TasksLimit` is not part of the source and is a parameter.
-/

set_option autoImplicit false

namespace Gvisor.Proc

/-- `FIRST_PROCESS_ENTRY` of fs/proc/internal.h. -/
def firstProcessEntry : Int := 256

/-- The file type of a dirent: `DT_LNK` for the symlinks, `DT_DIR` for the processes. -/
inductive DirentType
  | lnk
  | dir
deriving DecidableEq, Repr

/-- A `vfs.Dirent`. -/
structure Dirent where
  name : String
  type : DirentType
  ino : Nat
  nextOff : Int
deriving DecidableEq, Repr

/-- A `tasksInode`: its PID namespace's thread groups with their IDs and whether their leader
is non-nil, and `TasksLimit`. -/
structure TasksInode where
  threadGroups : List (Nat × Bool)
  tasksLimit : Nat

/-- The callback of a call and the filesystem's last inode number. -/
structure IterState where
  accepted : List Dirent
  room : Option Nat
  lastIno : Nat
deriving DecidableEq, Repr

namespace IterState

/-- `fs.NextIno()`. -/
def nextIno (st : IterState) : IterState × Nat := ({ st with lastIno := st.lastIno + 1 }, st.lastIno + 1)

/-- `cb.Handle(dirent)`: `none` is the error of a callback out of room. -/
def handle (st : IterState) (d : Dirent) : Option IterState :=
  match st.room with
  | none => some { st with accepted := st.accepted ++ [d] }
  | some 0 => none
  | some (k + 1) => some { st with accepted := st.accepted ++ [d], room := some k }

end IterState

namespace TasksInode

/-- `maxTaskID`: offsets at or above it list nothing. -/
def maxTaskID (i : TasksInode) : Int := i.tasksLimit + 1

/-- The IDs of the leaders at or above `startTid`, in `ThreadGroups()` order. -/
def leaderTids (i : TasksInode) (startTid : Int) : List Nat :=
  (i.threadGroups.filter fun g => startTid ≤ (g.1 : Int) ∧ g.2).map (·.1)

/-- Lists one symlink at `offset`, as the two `if`s of `IterDirents` do. -/
def emitLink (st : IterState) (name : String) (offset : Int) : Option IterState :=
  let (st, ino) := st.nextIno
  st.handle ⟨name, .lnk, ino, offset + 1⟩

/-- The loop over the sorted leaders: `(state, offset, error)`. -/
def emitTids (st : IterState) (offset : Int) : List Nat → IterState × Int × Bool
  | [] => (st, offset, false)
  | tid :: rest =>
    let (st', ino) := st.nextIno
    match st'.handle ⟨toString tid, .dir, ino, firstProcessEntry + 2 + tid + 1⟩ with
    | none => (st', offset, true)
    | some st'' => emitTids st'' (offset + 1) rest

/-- The part of `IterDirents` after the symlinks: the leaders from `offset - 258` on, sorted. -/
def listTids (i : TasksInode) (st : IterState) (offset : Int) : IterState × Int × Bool :=
  let tids := i.leaderTids (offset - firstProcessEntry - 2)
  if tids = [] then (st, offset, false) else
  match emitTids st offset (tids.insertionSort (· ≤ ·)) with
  | (st, offset, true) => (st, offset, true)
  | (st, _, false) => (st, i.maxTaskID, false)

/-- `IterDirents`: the callback's state, the offset returned, and whether it returned an
error. -/
def iterDirents (i : TasksInode) (st : IterState) (offset : Int) : IterState × Int × Bool :=
  if offset ≥ i.maxTaskID then (st, offset, false) else
  let offset := if offset < firstProcessEntry then firstProcessEntry else offset
  let self : Option (IterState × Int) :=
    if offset = firstProcessEntry then (emitLink st "self" offset).map (·, offset + 1) else some (st, offset)
  match self with
  | none => ((st.nextIno).1, offset, true)
  | some (st, offset) =>
  let threadSelf : Option (IterState × Int) :=
    if offset = firstProcessEntry + 1 then (emitLink st "thread-self" offset).map (·, offset + 1)
    else some (st, offset)
  match threadSelf with
  | none => ((st.nextIno).1, offset, true)
  | some (st, offset) => i.listTids st offset

end TasksInode

end Gvisor.Proc

namespace Gvisor.Proc

open TasksInode

/-! ### The loop over the processes -/

/-- A dirent's name and resume offset. -/
def Dirent.key (d : Dirent) : String × Int := (d.name, d.nextOff)

/-- The name and resume offset of a process's dirent. -/
def pidKey (tid : Nat) : String × Int := (toString tid, firstProcessEntry + 2 + tid + 1)

/-- How many of `n` offered dirents a callback with room `room` accepts. -/
def taken : Option Nat → Nat → Nat
  | none, n => n
  | some k, n => min k n

/-- Whether a callback with room `room` refuses one of `n` offered dirents. -/
def refuses : Option Nat → Nat → Bool
  | none, _ => false
  | some k, n => decide (k < n)

/-- The loop lists the processes in the order given until the callback refuses one, and
returns its starting offset plus the number listed, with an error iff one was refused. -/
theorem emitTids_keys (tids : List Nat) : ∀ (st : IterState) (offset : Int),
    (emitTids st offset tids).1.accepted.map Dirent.key =
        st.accepted.map Dirent.key ++ (tids.take (taken st.room tids.length)).map pidKey ∧
      (emitTids st offset tids).2 = (offset + taken st.room tids.length, refuses st.room tids.length) := by
  induction tids with
  | nil => intro st offset; cases h : st.room <;> simp [emitTids, taken, refuses]
  | cons tid rest ih =>
    intro st offset
    rcases hr : st.room with _ | _ | k
    · have := ih ⟨st.accepted ++ [⟨toString tid, .dir, st.lastIno + 1, firstProcessEntry + 2 + tid + 1⟩], none,
        st.lastIno + 1⟩ (offset + 1)
      simp only [emitTids, IterState.nextIno, IterState.handle, hr] at this ⊢
      simp only [this, taken, refuses, List.length_cons, List.take_succ_cons, List.map_cons, List.map_append,
        Dirent.key, pidKey, List.map_nil, List.append_assoc, List.singleton_append, true_and]
      simp only [Prod.mk.injEq, and_true]; omega
    · simp [emitTids, IterState.nextIno, IterState.handle, hr, taken, refuses]
    · have := ih ⟨st.accepted ++ [⟨toString tid, .dir, st.lastIno + 1, firstProcessEntry + 2 + tid + 1⟩], some k,
        st.lastIno + 1⟩ (offset + 1)
      simp only [emitTids, IterState.nextIno, IterState.handle, hr] at this ⊢
      simp only [this, taken, refuses, List.length_cons, Nat.succ_min_succ, List.take_succ_cons,
        List.map_cons, List.map_append, Dirent.key, pidKey, List.map_nil, List.append_assoc,
        List.singleton_append, true_and, Prod.mk.injEq]
      refine ⟨by omega, by simp⟩

/-- The names of the dirents a run accepted. -/
def IterState.names (st : IterState) : List String := st.accepted.map (·.name)

theorem taken_succ (room : Option Nat) (n : Nat) :
    taken room (n + 1) = if room = some 0 then 0 else taken (room.map (· - 1)) n + 1 := by
  rcases room with _ | _ | k <;> simp [taken, Nat.succ_min_succ]

theorem refuses_succ (room : Option Nat) (n : Nat) :
    refuses room (n + 1) = (decide (room = some 0) || refuses (room.map (· - 1)) n) := by
  rcases room with _ | _ | k <;> simp [refuses]

theorem emitLink_eq (st : IterState) (name : String) (offset : Int) :
    emitLink st name offset = if st.room = some 0 then none else
      some ⟨st.accepted ++ [⟨name, .lnk, st.lastIno + 1, offset + 1⟩], st.room.map (· - 1), st.lastIno + 1⟩ := by
  rcases h : st.room with _ | _ | k <;> simp [emitLink, IterState.nextIno, IterState.handle, h]

/-! ### Resuming a listing -/

/-- The sorted IDs of the leaders: the processes a listing shows. -/
def TasksInode.pids (i : TasksInode) : List Nat := (i.leaderTids 0).insertionSort (· ≤ ·)

/-- A whole listing, by name and resume offset. -/
def TasksInode.listing (i : TasksInode) : List (String × Int) :=
  ("self", firstProcessEntry + 1) :: ("thread-self", firstProcessEntry + 2) :: i.pids.map pidKey

theorem leaderTids_sorted (i : TasksInode) (start : Nat) :
    (i.leaderTids start).insertionSort (· ≤ ·) = i.pids.filter (start ≤ ·) := by
  refine List.eq_of_perm_of_sorted ?_ (List.sorted_insertionSort _ _)
    ((List.sorted_insertionSort _ _).filter _)
  refine (List.perm_insertionSort _ _).trans ?_
  refine List.Perm.trans ?_ ((List.perm_insertionSort _ _).filter _).symm
  simp only [leaderTids, List.filter_map, List.filter_filter]
  refine List.Perm.of_eq ?_
  congr 2
  funext g
  rcases g with ⟨t, leader⟩
  cases leader <;> simp [Int.natCast_nonneg]

/-- Assumes: the IDs of the namespace are distinct. The listed processes are strictly
increasing. -/
theorem pids_sorted_lt {i : TasksInode} (hnodup : (i.threadGroups.map (·.1)).Nodup) :
    i.pids.Sorted (· < ·) := by
  refine (List.sorted_insertionSort _ _).lt_of_le ((List.perm_insertionSort _ _).nodup_iff.mpr ?_)
  exact ((List.filter_sublist _).map _).nodup hnodup

/-- In a strictly increasing list, the entries above the `j`-th are those after it. -/
theorem filter_gt_getElem {l : List Nat} (hl : l.Sorted (· < ·)) {j : Nat} (hj : j < l.length) :
    l.filter (l[j] + 1 ≤ ·) = l.drop (j + 1) := by
  induction l generalizing j with
  | nil => simp at hj
  | cons a l ih =>
    have hrest : ∀ b ∈ l, a < b := List.rel_of_sorted_cons hl
    cases j with
    | zero =>
      simp only [List.getElem_cons_zero, List.filter_cons, List.drop_succ_cons, List.drop_zero]
      simp only [show ¬ a + 1 ≤ a by omega, decide_False, Bool.false_eq_true, if_false]
      exact List.filter_eq_self.mpr fun b hb => by simpa using hrest b hb
    | succ j =>
      have hj' : j < l.length := Nat.lt_of_succ_lt_succ hj
      have hlt := hrest _ (List.getElem_mem hj')
      simp only [List.getElem_cons_succ, List.filter_cons, List.drop_succ_cons]
      simp only [show ¬ l[j] + 1 ≤ a by omega, decide_False, Bool.false_eq_true, if_false]
      exact ih hl.of_cons hj'

/-- The tail of a call from offset `258 + start` lists the processes from `start` on. -/
theorem listTids_keys (i : TasksInode) (st : IterState) (start : Nat) :
    (i.listTids st (firstProcessEntry + 2 + start)).1.accepted.map Dirent.key =
        st.accepted.map Dirent.key ++ ((i.pids.filter (start ≤ ·)).take
          (taken st.room (i.pids.filter (start ≤ ·)).length)).map pidKey ∧
      (i.listTids st (firstProcessEntry + 2 + start)).2.2 =
        refuses st.room (i.pids.filter (start ≤ ·)).length := by
  have hstart : firstProcessEntry + 2 + (start : Int) - firstProcessEntry - 2 = start := by omega
  have hsort := leaderTids_sorted i start
  unfold listTids
  simp only [hstart]
  split
  · rename_i hnil
    rw [hnil] at hsort
    simp only [List.insertionSort] at hsort
    rw [← hsort]
    rcases st.room with _ | _ | k <;> simp [taken, refuses]
  · rw [hsort]
    obtain ⟨hkeys, hrest⟩ := emitTids_keys (i.pids.filter (start ≤ ·)) st (firstProcessEntry + 2 + start)
    split <;> rename_i heq <;> rw [heq] at hkeys hrest <;> simp_all

theorem iterDirents_of_le (i : TasksInode) (h258 : 258 ≤ i.tasksLimit) (st : IterState) {offset : Int}
    (hoff : offset ≤ firstProcessEntry) :
    i.iterDirents st offset = match emitLink st "self" firstProcessEntry with
      | none => ((st.nextIno).1, firstProcessEntry, true)
      | some st => match emitLink st "thread-self" (firstProcessEntry + 1) with
        | none => ((st.nextIno).1, firstProcessEntry + 1, true)
        | some st => i.listTids st (firstProcessEntry + 2 + (0 : Nat)) := by
  have hmax : ¬ offset ≥ i.maxTaskID := by simp only [maxTaskID, firstProcessEntry] at hoff ⊢; omega
  have hnorm : (if offset < firstProcessEntry then firstProcessEntry else offset) = firstProcessEntry := by
    split <;> omega
  simp only [iterDirents, hmax, if_false, hnorm, if_true]
  rcases emitLink st "self" firstProcessEntry with _ | st1
  · rfl
  · simp only [Option.map_some']
    rcases emitLink st1 "thread-self" (firstProcessEntry + 1) with _ | st2
    · rfl
    · rfl

theorem iterDirents_thread_self (i : TasksInode) (h258 : 258 ≤ i.tasksLimit) (st : IterState) :
    i.iterDirents st (firstProcessEntry + 1) = match emitLink st "thread-self" (firstProcessEntry + 1) with
      | none => ((st.nextIno).1, firstProcessEntry + 1, true)
      | some st => i.listTids st (firstProcessEntry + 2 + (0 : Nat)) := by
  have hmax : ¬ firstProcessEntry + 1 ≥ i.maxTaskID := by simp only [maxTaskID, firstProcessEntry]; omega
  simp only [iterDirents, hmax, if_false, show ¬ firstProcessEntry + 1 < firstProcessEntry by decide,
    show firstProcessEntry + 1 ≠ firstProcessEntry by decide, if_true]
  rcases emitLink st "thread-self" (firstProcessEntry + 1) with _ | st2
  · rfl
  · rfl

theorem iterDirents_of_ge (i : TasksInode) (st : IterState) (start : Nat)
    (hmax : firstProcessEntry + 2 + start < i.maxTaskID) :
    i.iterDirents st (firstProcessEntry + 2 + start) = i.listTids st (firstProcessEntry + 2 + start) := by
  have h1 : ¬ firstProcessEntry + 2 + (start : Int) < firstProcessEntry := by omega
  have h2 : firstProcessEntry + 2 + (start : Int) ≠ firstProcessEntry := by omega
  have h3 : firstProcessEntry + 2 + (start : Int) ≠ firstProcessEntry + 1 := by omega
  have h4 : ¬ firstProcessEntry + 2 + (start : Int) ≥ i.maxTaskID := by omega
  unfold iterDirents
  rw [if_neg h4, if_neg h1]
  simp only [h2, h3, if_false]

/-- Where a listing that has accepted the first `c` entries resumes: at or below 256 before
any, else at the resume offset of the `c`-th. -/
def TasksInode.ResumesAt (i : TasksInode) (c : Nat) (offset : Int) : Prop :=
  (c = 0 ∧ offset ≤ firstProcessEntry) ∨ (c ≠ 0 ∧ (i.listing[c - 1]?).map (·.2) = some offset)

/-- The tail of a call from offset `258`: every process. -/
private theorem listTids_all (i : TasksInode) (st : IterState) :
    (i.listTids st (firstProcessEntry + 2 + (0 : Nat))).1.accepted.map Dirent.key =
        st.accepted.map Dirent.key ++ (i.pids.take (taken st.room i.pids.length)).map pidKey ∧
      (i.listTids st (firstProcessEntry + 2 + (0 : Nat))).2.2 = refuses st.room i.pids.length := by
  have hall : i.pids.filter (0 ≤ ·) = i.pids := List.filter_eq_self.mpr fun _ _ => by simp
  simpa only [hall] using listTids_keys i st 0

/-- A call resumed past the symlinks, at `258 + start`, where the processes from `start` on
are those after the first `k`. -/
private theorem iterDirents_pids (i : TasksInode) (st : IterState) {start k : Nat}
    (hmax : firstProcessEntry + 2 + start < i.maxTaskID) (hdrop : i.pids.filter (start ≤ ·) = i.pids.drop k) :
    (i.iterDirents st (firstProcessEntry + 2 + start)).1.accepted.map Dirent.key =
        st.accepted.map Dirent.key ++ (i.listing.drop (k + 2)).take (taken st.room (i.listing.drop (k + 2)).length) ∧
      (i.iterDirents st (firstProcessEntry + 2 + start)).2.2 = refuses st.room (i.listing.drop (k + 2)).length := by
  obtain ⟨hkeys, herr⟩ := listTids_keys i st start
  rw [hdrop] at hkeys herr
  rw [iterDirents_of_ge i st start hmax, hkeys, herr]
  simp [TasksInode.listing, List.map_take, List.map_drop]

/-- Assumes: distinct IDs, and `TasksLimit` above every resume offset. A call resumed where
the first `c` entries of the listing end offers the rest of the listing in order: the
callback accepts what its room allows, and the call errs iff it refused an entry. -/
theorem iterDirents_resumes {i : TasksInode} (hnodup : (i.threadGroups.map (·.1)).Nodup)
    (hlimit : ∀ t ∈ i.pids, t + 258 < i.tasksLimit) (h258 : 258 ≤ i.tasksLimit)
    {c : Nat} {offset : Int} (hres : i.ResumesAt c offset) (st : IterState) :
    (i.iterDirents st offset).1.accepted.map Dirent.key =
        st.accepted.map Dirent.key ++ (i.listing.drop c).take (taken st.room (i.listing.drop c).length) ∧
      (i.iterDirents st offset).2.2 = refuses st.room (i.listing.drop c).length := by
  have hts : firstProcessEntry + 1 + 1 = firstProcessEntry + 2 := by omega
  rcases hres with ⟨rfl, hoff⟩ | ⟨hc, hget⟩
  · -- From the start: `self`, `thread-self`, then every process.
    rw [iterDirents_of_le i h258 st hoff, emitLink_eq, List.drop_zero]
    by_cases h1 : st.room = some 0
    · simp [IterState.nextIno, TasksInode.listing, taken_succ, refuses_succ, h1]
    rw [if_neg h1]
    dsimp only
    rw [emitLink_eq]
    by_cases h2 : st.room.map (· - 1) = some 0
    · simp [IterState.nextIno, TasksInode.listing, taken_succ, refuses_succ, h1, h2, Dirent.key]
    rw [if_neg h2]
    dsimp only
    obtain ⟨hkeys, herr⟩ := listTids_all i ⟨st.accepted ++ [⟨"self", .lnk, st.lastIno + 1, firstProcessEntry + 1⟩] ++
      [⟨"thread-self", .lnk, st.lastIno + 1 + 1, firstProcessEntry + 1 + 1⟩], (st.room.map (· - 1)).map (· - 1),
      st.lastIno + 1 + 1⟩
    refine ⟨?_, ?_⟩
    · rw [hkeys]; simp [TasksInode.listing, taken_succ, h1, h2, Dirent.key, hts, List.map_take]
    · rw [herr]; simp [TasksInode.listing, refuses_succ, h1, h2]
  obtain _ | _ | _ | j := c
  · exact absurd rfl hc
  · -- Resumed after `self`: `thread-self`, then every process.
    have hoff : offset = firstProcessEntry + 1 := by simpa [TasksInode.listing] using hget.symm
    subst hoff
    rw [iterDirents_thread_self i h258 st, emitLink_eq]
    by_cases h1 : st.room = some 0
    · simp [IterState.nextIno, TasksInode.listing, taken_succ, refuses_succ, h1]
    rw [if_neg h1]
    dsimp only
    obtain ⟨hkeys, herr⟩ := listTids_all i
      ⟨st.accepted ++ [⟨"thread-self", .lnk, st.lastIno + 1, firstProcessEntry + 1 + 1⟩], st.room.map (· - 1),
        st.lastIno + 1⟩
    refine ⟨?_, ?_⟩
    · rw [hkeys]; simp [TasksInode.listing, taken_succ, h1, Dirent.key, hts, List.map_take]
    · rw [herr]; simp [TasksInode.listing, refuses_succ, h1]
  · -- Resumed after `thread-self`: every process.
    have hoff : offset = firstProcessEntry + 2 + (0 : Nat) := by simpa [TasksInode.listing] using hget.symm
    subst hoff
    exact iterDirents_pids i st (by simp only [maxTaskID, firstProcessEntry]; omega) (by simp)
  · -- Resumed after the process at index `j`: the processes after it.
    have hget' : ∃ t, i.pids[j]? = some t ∧ firstProcessEntry + 2 + (t : Int) + 1 = offset := by
      simpa [TasksInode.listing, pidKey] using hget
    obtain ⟨t, ht, rfl⟩ := hget'
    obtain ⟨hj, rfl⟩ := List.getElem?_eq_some_iff.mp ht
    have hoff : firstProcessEntry + 2 + (i.pids[j] : Int) + 1 =
        firstProcessEntry + 2 + ((i.pids[j] + 1 : Nat) : Int) := by omega
    have hbound := hlimit _ (List.getElem_mem hj)
    rw [hoff]
    exact iterDirents_pids i st (by simp only [maxTaskID, firstProcessEntry]; omega)
      (filter_gt_getElem (pids_sorted_lt hnodup) hj)

/-! ### Listing by `NextOff` -/

/-- The offset a caller resumes at after accepting `acc`: the `NextOff` of its last dirent,
as after `telldir`/`seekdir`. -/
def resumeOffset (acc : List Dirent) (offset : Int) : Int := (acc.getLast?.map (·.nextOff)).getD offset

/-- A listing run one call per room of `rooms`, each call resumed at `resumeOffset` of what
was accepted so far; the state, and whether the last call returned an error. -/
def listByNextOff (i : TasksInode) (st : IterState) (offset : Int) : List (Option Nat) → IterState × Bool
  | [] => (st, false)
  | room :: rooms =>
    let r := i.iterDirents { st with room := room } offset
    match rooms with
    | [] => (r.1, r.2.2)
    | _ :: _ => listByNextOff i r.1 (resumeOffset r.1.accepted offset) rooms

theorem taken_le (room : Option Nat) (n : Nat) : taken room n ≤ n := by
  cases room <;> simp [taken]

theorem taken_of_not_refuses {room : Option Nat} {n : Nat} (h : refuses room n = false) : taken room n = n := by
  cases room <;> simp_all [taken, refuses]

/-- After the first `c` entries, with the last one's offset, a listing resumes at entry `c`. -/
theorem resumesAt_resumeOffset {i : TasksInode} {acc : List Dirent} {c : Nat} {offset : Int}
    (hacc : acc.map Dirent.key = i.listing.take c) (hc : c ≤ i.listing.length)
    (hoff : c = 0 → offset ≤ firstProcessEntry) : i.ResumesAt c (resumeOffset acc offset) := by
  rcases Nat.eq_zero_or_pos c with rfl | hpos
  · have hnil : acc = [] := by simpa using hacc
    exact Or.inl ⟨rfl, by simpa [resumeOffset, hnil] using hoff rfl⟩
  · have hlast : (acc.map Dirent.key).getLast? = i.listing[c - 1]? := by
      rw [hacc, List.getLast?_eq_getElem?, List.length_take, Nat.min_eq_left hc,
        List.getElem?_take_of_lt (by omega)]
    obtain ⟨x, hx⟩ : ∃ x, i.listing[c - 1]? = some x := ⟨_, List.getElem?_eq_getElem (by omega)⟩
    rw [List.getLast?_map, hx, Option.map_eq_some'] at hlast
    obtain ⟨d, hd, rfl⟩ := hlast
    exact Or.inr ⟨by omega, by simp [hx, resumeOffset, hd, Dirent.key]⟩

/-- Assumes: distinct IDs, and `TasksLimit` above every resume offset. A run resumed by
`NextOff` from the first `c` entries of the listing whose last call returns without error
has accepted the whole listing. -/
theorem listByNextOff_keys {i : TasksInode} (hnodup : (i.threadGroups.map (·.1)).Nodup)
    (hlimit : ∀ t ∈ i.pids, t + 258 < i.tasksLimit) (h258 : 258 ≤ i.tasksLimit) :
    ∀ (rooms : List (Option Nat)) (st : IterState) (c : Nat) (offset : Int), rooms ≠ [] →
      st.accepted.map Dirent.key = i.listing.take c → c ≤ i.listing.length → i.ResumesAt c offset →
      (listByNextOff i st offset rooms).2 = false →
      (listByNextOff i st offset rooms).1.accepted.map Dirent.key = i.listing
  | [], _, _, _, hne, _, _, _, _ => absurd rfl hne
  | room :: rooms, st, c, offset, _, hacc, hc, hres, hdone => by
    obtain ⟨hkeys, herr⟩ := iterDirents_resumes hnodup hlimit h258 hres { st with room := room }
    have hkeys' : (i.iterDirents { st with room := room } offset).1.accepted.map Dirent.key =
        i.listing.take (c + taken room (i.listing.length - c)) := by
      rw [hkeys, List.take_add, List.length_drop]; simp [hacc]
    cases rooms with
    | nil =>
      have hall := taken_of_not_refuses ((herr.symm.trans hdone).trans (by simp))
      simp only [listByNextOff] at hdone ⊢
      rw [hkeys']
      simp only [List.length_drop] at hall
      rw [hall, Nat.add_sub_cancel' hc, List.take_length]
    | cons room' rooms =>
      have hle := taken_le room (i.listing.length - c)
      refine listByNextOff_keys hnodup hlimit h258 (room' :: rooms) _ _ _ (List.cons_ne_nil _ _) hkeys'
        (by omega) (resumesAt_resumeOffset hkeys' (by omega) fun h0 => ?_) hdone
      rcases hres with ⟨_, hoff⟩ | ⟨hc0, _⟩
      · exact hoff
      · omega

/-- Assumes: distinct IDs, and every PID below `TasksLimit - 258`. A listing started below
256 and resumed by `NextOff`, whose last call returns without error, accepts exactly `self`,
`thread-self` and every process once, in increasing order. -/
theorem listByNextOff_exact {i : TasksInode} (hnodup : (i.threadGroups.map (·.1)).Nodup)
    (hlimit : ∀ t ∈ i.pids, t + 258 < i.tasksLimit) (h258 : 258 ≤ i.tasksLimit)
    {offset : Int} (hoff : offset ≤ firstProcessEntry) (lastIno : Nat) {rooms : List (Option Nat)}
    (hne : rooms ≠ []) (hdone : (listByNextOff i ⟨[], none, lastIno⟩ offset rooms).2 = false) :
    (listByNextOff i ⟨[], none, lastIno⟩ offset rooms).1.accepted.map Dirent.key = i.listing ∧
      i.pids.Sorted (· < ·) :=
  ⟨listByNextOff_keys hnodup hlimit h258 rooms _ 0 offset hne rfl (Nat.zero_le _) (Or.inl ⟨rfl, hoff⟩) hdone,
    pids_sorted_lt hnodup⟩

/-- Three calls with room for one, two and any number of dirents list `self`,
`thread-self`, `1` and `2` once each. -/
theorem listByNextOff_exact_two_pids :
    (List.map (fun x => x.1) [(1, true), (2, true)]).Nodup ∧
      (∀ t ∈ (⟨[(1, true), (2, true)], 65536⟩ : TasksInode).pids, t + 258 < 65536) ∧
      258 ≤ 65536 ∧ (0 : Int) ≤ firstProcessEntry ∧ [some 1, some 2, none] ≠ [] ∧
      (listByNextOff ⟨[(1, true), (2, true)], 65536⟩ ⟨[], none, 0⟩ 0 [some 1, some 2, none]).2 = false ∧
      (listByNextOff ⟨[(1, true), (2, true)], 65536⟩ ⟨[], none, 0⟩ 0 [some 1, some 2, none]).1.accepted.map
        Dirent.key = (⟨[(1, true), (2, true)], 65536⟩ : TasksInode).listing ∧
      (⟨[(1, true), (2, true)], 65536⟩ : TasksInode).pids.Sorted (· < ·) :=
  have hnodup : (List.map (fun x => x.1) [((1 : Nat), true), (2, true)]).Nodup := by decide
  have hlimit : ∀ t ∈ (⟨[(1, true), (2, true)], 65536⟩ : TasksInode).pids, t + 258 < 65536 := by decide
  have hdone : (listByNextOff ⟨[(1, true), (2, true)], 65536⟩ ⟨[], none, 0⟩ 0 [some 1, some 2, none]).2 = false := by
    decide
  ⟨hnodup, hlimit, by decide, by decide, by decide, hdone,
    listByNextOff_exact hnodup hlimit (by decide) (by decide) 0 (by decide) hdone⟩

/-- Two runs of two calls each, with `TasksLimit = 65536`. For the PIDs `1, 2`, a first call
with room for three dirents returns 259, and a second call resumed there lists `1` again. For
the PIDs `65278, 65279`, a second call resumed at the `NextOff` of `65278`, which is
`maxTaskID`, lists nothing more: `65279` is never listed. -/
theorem iterDirents_resume_repeats :
    let i : TasksInode := ⟨[(1, true), (2, true)], 65536⟩
    let r := i.iterDirents ⟨[], some 3, 0⟩ 0
    let r' := i.iterDirents ⟨r.1.accepted, none, r.1.lastIno⟩ r.2.1
    r.2 = (259, true) ∧ r'.2.2 = false ∧ r'.1.names = ["self", "thread-self", "1", "1", "2"] ∧
    let j : TasksInode := ⟨[(65278, true), (65279, true)], 65536⟩
    let q := j.iterDirents ⟨[], some 3, 0⟩ 0
    let q' := j.iterDirents ⟨q.1.accepted, none, q.1.lastIno⟩ 65537
    q.1.accepted.getLast?.map (·.nextOff) = some 65537 ∧ q'.2.2 = false ∧
      q'.1.names = ["self", "thread-self", "65278"] := by
  decide

end Gvisor.Proc
