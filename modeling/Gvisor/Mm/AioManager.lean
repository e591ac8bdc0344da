import Mathlib
import Gvisor.Mm.AioContext

/-!
# The AIO manager

`aioManager` (sentry/mm/aio_context.go) maps context ids, the user addresses of the rings,
to contexts. `newAIOContext` refuses an id in use, `destroyAIOContextLocked` removes an id and
destroys its context, `aioMappable.CopyMapping` (an mremap of a ring) moves a live context from
the source address to the destination address, and `destroyAIOManager` destroys every context
in the map.

`Accounted` is what the manager keeps: every context created is stored, open, under exactly
one id, or was destroyed exactly once. Every step keeps it except a `CopyMapping` onto an
address that holds another context, the check `newAIOContext` makes and `CopyMapping` does
not. `managerRun_accounts_every_context`: over every run whose moves are so guarded, no step
panics, and a final `destroyAIOManager` destroys every context created exactly once.

Unguarded, `CopyMapping` assigns the destination id without looking at what it holds. A ring
moved onto the address of another context's ring (mremap with MREMAP_FIXED unmaps the
destination, which does not destroy that context) drops the other context from the map, and
no later step ever destroys it: `copyMapping_drops_live_context` runs this on two contexts.

Scope. Contexts are stored in a heap indexed by creation order, and change here only by
`destroy` (`Gvisor.Mm.AioContext` models the requests on one context); `destroyCalls` records, in
order, the contexts `destroy` ran on. The map is an association list with distinct keys, in
Go's iteration order. `CopyMapping`'s check that the mapping space is a memory manager is
left out: here it always is. The ring size is a parameter, since its constant is not part of
the source.
-/

set_option autoImplicit false

namespace Gvisor.Mm

/-- Modelled from the spec: a half-open address range `[start, end)` (`hostarch.AddrRange`). -/
structure AddrRange where
  start : Nat
  «end» : Nat
deriving DecidableEq, Repr

def AddrRange.length (r : AddrRange) : Nat := r.end - r.start

/-- The errors `CopyMapping` returns. -/
inductive CopyMappingErrno
  | efault
  | einval
deriving DecidableEq, Repr

/-- An `aioManager`: the id map, the contexts by creation number, and the contexts `destroy`
was called on, oldest first. -/
structure AioManager (D : Type) where
  contexts : List (Nat × Nat)
  heap : Nat → AIOContext D
  created : Nat
  destroyCalls : List Nat

namespace AioManager

variable {D : Type}

def empty : AioManager D := ⟨[], fun _ => AIOContext.init 0, 0, []⟩

/-- Go's `delete(m, id)` on an association list. -/
def mapDelete (contexts : List (Nat × Nat)) (id : Nat) : List (Nat × Nat) :=
  contexts.filter (·.1 ≠ id)

/-- Go's `m[id] = ref` on an association list. -/
def mapSet (contexts : List (Nat × Nat)) (id ref : Nat) : List (Nat × Nat) :=
  (id, ref) :: mapDelete contexts id

def newAIOContext (m : AioManager D) (events id : Nat) : AioManager D × Bool :=
  if (m.contexts.lookup id).isSome then (m, false)
  else ({ m with contexts := mapSet m.contexts id m.created,
                 heap := Function.update m.heap m.created (AIOContext.init events),
                 created := m.created + 1 }, true)

/-- Removes `id` and destroys its context; returns the context, if there was one. -/
def destroyAIOContextLocked (m : AioManager D) (id : Nat) : Except AioPanic (AioManager D × Option Nat) :=
  match m.contexts.lookup id with
  | none => .ok (m, none)
  | some ref => (AIOContext.destroy (m.heap ref)).map fun ctx =>
      ({ m with contexts := mapDelete m.contexts id, heap := Function.update m.heap ref ctx,
                destroyCalls := m.destroyCalls ++ [ref] }, some ref)

/-- `aioMappable.CopyMapping` for a ring of `aioRingBufferSize` bytes. -/
def copyMapping (aioRingBufferSize : Nat) (m : AioManager D) (srcAR dstAR : AddrRange) (offset : Nat) :
    Except CopyMappingErrno (AioManager D) :=
  if offset ≠ 0 ∨ dstAR.length ≠ aioRingBufferSize then .error .efault
  else match m.contexts.lookup srcAR.start with
    | none => .error .einval
    | some ref =>
      if (m.heap ref).dead then .error .einval
      else .ok { m with contexts := mapDelete (mapSet m.contexts dstAR.start ref) srcAR.start }

/-- Destroys the contexts of the ids in `ids`, in order. -/
def destroyEach (m : AioManager D) : List Nat → Except AioPanic (AioManager D)
  | [] => .ok m
  | id :: ids => (destroyAIOContextLocked m id).bind fun (m', _) => destroyEach m' ids

/-- `destroyAIOManager`: destroys the context of every id, in the map's iteration order. -/
def destroyAIOManager (m : AioManager D) : Except AioPanic (AioManager D) :=
  destroyEach m (m.contexts.map (·.1))

/-- A step of a manager; an error of `CopyMapping` leaves it unchanged, a panic of
`destroy` ends the run. -/
inductive ManagerOp
  | newAIOContext (events id : Nat)
  | destroyAIOContextLocked (id : Nat)
  | copyMapping (srcAR dstAR : AddrRange) (offset : Nat)
  | destroyAIOManager

def managerStep (aioRingBufferSize : Nat) (m : AioManager D) : ManagerOp → Except AioPanic (AioManager D)
  | .newAIOContext events id => .ok (newAIOContext m events id).1
  | .destroyAIOContextLocked id => (destroyAIOContextLocked m id).map (·.1)
  | .copyMapping srcAR dstAR offset =>
    match copyMapping aioRingBufferSize m srcAR dstAR offset with
    | .ok m' => .ok m'
    | .error _ => .ok m
  | .destroyAIOManager => destroyAIOManager m

def managerRun (aioRingBufferSize : Nat) (m : AioManager D) : List ManagerOp → Except AioPanic (AioManager D)
  | [] => .ok m
  | op :: ops => (managerStep aioRingBufferSize m op).bind fun m' => managerRun aioRingBufferSize m' ops

/-- The guard `newAIOContext` has and `CopyMapping` lacks: a ring moves only onto an address
that holds no context, other than its own. -/
def ManagerOp.safe (m : AioManager D) : ManagerOp → Bool
  | .copyMapping srcAR dstAR _ => (m.contexts.lookup dstAR.start).isNone && dstAR.start != srcAR.start
  | _ => true

/-- Every step of a run is `safe` in the state it starts from. -/
def runSafe (aioRingBufferSize : Nat) (m : AioManager D) : List ManagerOp → Bool
  | [] => true
  | op :: ops => op.safe m &&
    match managerStep aioRingBufferSize m op with
    | .ok m' => runSafe aioRingBufferSize m' ops
    | .error _ => true

end AioManager

end Gvisor.Mm

namespace Gvisor.Mm

open AioManager

/-! ### What the map keeps -/

variable {D : Type}

/-- The context `ref` is stored under some id. -/
def Stored (contexts : List (Nat × Nat)) (ref : Nat) : Prop := ∃ id, (id, ref) ∈ contexts

/-- The context is alive and still holds its open channel: `destroy` succeeds on it. -/
def IsOpen (ctx : AIOContext D) : Prop := ctx.dead = false ∧ ctx.requestReady = true ∧ ctx.chanClosed = false

/-- Every context created is either stored, open, under exactly one id, or was destroyed
exactly once, never both; the ids of the map are distinct. -/
structure Accounted (m : AioManager D) : Prop where
  ids_nodup : (m.contexts.map (·.1)).Nodup
  id_unique : ∀ a b ref, (a, ref) ∈ m.contexts → (b, ref) ∈ m.contexts → a = b
  destroyCalls_nodup : m.destroyCalls.Nodup
  created_iff : ∀ ref, ref < m.created ↔ Stored m.contexts ref ∨ ref ∈ m.destroyCalls
  not_destroyed : ∀ ref, Stored m.contexts ref → ref ∉ m.destroyCalls
  stored_open : ∀ ref, Stored m.contexts ref → IsOpen (m.heap ref)

theorem mem_of_lookup {cs : List (Nat × Nat)} {id ref : Nat} (h : cs.lookup id = some ref) : (id, ref) ∈ cs := by
  induction cs with
  | nil => simp [List.lookup] at h
  | cons p cs ih =>
    obtain ⟨k, r⟩ := p
    by_cases hk : id = k
    · subst hk; simp_all [List.lookup]
    · have hb : (id == k) = false := by simpa using hk
      simp only [List.lookup, hb] at h
      exact List.mem_cons_of_mem _ (ih h)

theorem not_mem_of_lookup {cs : List (Nat × Nat)} {id : Nat} (h : cs.lookup id = none) (ref : Nat) :
    (id, ref) ∉ cs := by
  induction cs with
  | nil => simp
  | cons p cs ih =>
    obtain ⟨k, r⟩ := p
    by_cases hk : id = k
    · subst hk; simp [List.lookup] at h
    · have hb : (id == k) = false := by simpa using hk
      simp only [List.lookup, hb] at h
      simp [hk, ih h]

@[simp] theorem mem_mapDelete {cs : List (Nat × Nat)} {id : Nat} {p : Nat × Nat} :
    p ∈ mapDelete cs id ↔ p ∈ cs ∧ p.1 ≠ id := by
  simp [mapDelete]

theorem mapDelete_of_lookup {cs : List (Nat × Nat)} {id : Nat} (h : cs.lookup id = none) : mapDelete cs id = cs :=
  List.filter_eq_self.mpr fun p hp => by
    have : p.1 ≠ id := fun he => not_mem_of_lookup h p.2 (he ▸ hp)
    simpa using this

theorem Accounted.lt_created {m : AioManager D} (hm : Accounted m) {ref : Nat} (h : Stored m.contexts ref) :
    ref < m.created :=
  (hm.created_iff ref).mpr (Or.inl h)

/-- The map holds one context per id. -/
theorem Accounted.ref_unique {m : AioManager D} (hm : Accounted m) {id r r' : Nat} (h : (id, r) ∈ m.contexts)
    (h' : (id, r') ∈ m.contexts) : r = r' :=
  congrArg Prod.snd (List.inj_on_of_nodup_map hm.ids_nodup h h' rfl)

theorem accounted_empty : Accounted (empty : AioManager D) :=
  ⟨List.nodup_nil, by simp [empty], List.nodup_nil, by simp [empty, Stored], by simp [empty], by simp [empty, Stored]⟩

theorem isOpen_init (events : Nat) : IsOpen (AIOContext.init events : AIOContext D) := ⟨rfl, rfl, rfl⟩

theorem accounted_newAIOContext {m : AioManager D} (hm : Accounted m) (events id : Nat) :
    Accounted (newAIOContext m events id).1 := by
  unfold newAIOContext
  split
  · exact hm
  rename_i hsome
  have hnone : m.contexts.lookup id = none := Option.not_isSome_iff_eq_none.mp hsome
  have hstored : ∀ ref, Stored ((id, m.created) :: m.contexts) ref ↔ ref = m.created ∨ Stored m.contexts ref := by
    intro ref; simp only [Stored, List.mem_cons, Prod.mk.injEq]
    exact ⟨fun ⟨k, hk⟩ => hk.imp (·.2) (⟨k, ·⟩), fun h => h.elim (fun h => ⟨id, .inl ⟨rfl, h⟩⟩)
      fun ⟨k, hk⟩ => ⟨k, .inr hk⟩⟩
  have hdc : m.created ∉ m.destroyCalls := fun h => by
    have := (hm.created_iff m.created).mpr (Or.inr h); omega
  simp only [mapSet, mapDelete_of_lookup hnone]
  refine ⟨?_, ?_, hm.destroyCalls_nodup, fun ref => ?_, fun ref h => ?_, fun ref h => ?_⟩
  · refine List.nodup_cons.mpr ⟨fun hmem => ?_, hm.ids_nodup⟩
    obtain ⟨⟨k, r⟩, hp, rfl⟩ := List.mem_map.mp hmem
    exact not_mem_of_lookup hnone r hp
  · intro a b ref ha hb
    simp only [List.mem_cons, Prod.mk.injEq] at ha hb
    rcases ha with ⟨rfl, rfl⟩ | ha
    · rcases hb with ⟨rfl, -⟩ | hb
      · rfl
      · exact absurd (hm.lt_created ⟨b, hb⟩) (lt_irrefl _)
    · rcases hb with ⟨rfl, rfl⟩ | hb
      · exact absurd (hm.lt_created ⟨a, ha⟩) (lt_irrefl _)
      · exact hm.id_unique a b ref ha hb
  · rw [hstored, Nat.lt_succ_iff_lt_or_eq, hm.created_iff]; tauto
  · rcases (hstored ref).mp h with rfl | h
    · exact hdc
    · exact hm.not_destroyed ref h
  · rcases (hstored ref).mp h with rfl | h
    · simpa using isOpen_init events
    · show IsOpen (Function.update m.heap m.created _ ref)
      rw [Function.update_noteq (hm.lt_created h).ne]; exact hm.stored_open ref h

theorem destroy_of_isOpen {ctx : AIOContext D} (h : IsOpen ctx) : ∃ ctx', AIOContext.destroy ctx = .ok ctx' := by
  unfold AIOContext.destroy
  exact ⟨_, AIOContext.checkForDone_open (show ({ ctx with dead := true } : AIOContext D).requestReady = true from h.2.1)
    h.2.2⟩

/-- Deleting the id of a stored context forgets exactly that context. -/
theorem Accounted.stored_mapDelete {m : AioManager D} (hm : Accounted m) {id ref : Nat} (h : (id, ref) ∈ m.contexts)
    (r : Nat) : Stored (mapDelete m.contexts id) r ↔ Stored m.contexts r ∧ r ≠ ref := by
  constructor
  · rintro ⟨k, hk⟩
    rw [mem_mapDelete] at hk
    exact ⟨⟨k, hk.1⟩, fun hr => hk.2 (hm.id_unique k id r hk.1 (hr ▸ h))⟩
  · rintro ⟨⟨k, hk⟩, hr⟩
    exact ⟨k, mem_mapDelete.mpr ⟨hk, fun hkid => hr (hm.ref_unique (hkid ▸ hk) h)⟩⟩

/-- A map with distinct ids that stores the same contexts, each under one id. -/
theorem Accounted.of_stored_iff {m : AioManager D} (hm : Accounted m) {cs : List (Nat × Nat)}
    (hids : (cs.map (·.1)).Nodup) (huniq : ∀ a b ref, (a, ref) ∈ cs → (b, ref) ∈ cs → a = b)
    (hst : ∀ r, Stored cs r ↔ Stored m.contexts r) : Accounted { m with contexts := cs } :=
  ⟨hids, huniq, hm.destroyCalls_nodup, fun r => (hm.created_iff r).trans (by rw [hst]),
    fun r h => hm.not_destroyed r ((hst r).mp h), fun r h => hm.stored_open r ((hst r).mp h)⟩

theorem destroyAIOContextLocked_accounted {m : AioManager D} (hm : Accounted m) (id : Nat) :
    ∃ m' r, destroyAIOContextLocked m id = .ok (m', r) ∧ Accounted m' ∧
      m'.contexts = mapDelete m.contexts id ∧ m'.created = m.created := by
  unfold destroyAIOContextLocked
  cases hl : m.contexts.lookup id with
  | none => exact ⟨m, none, rfl, hm, (mapDelete_of_lookup hl).symm, rfl⟩
  | some ref =>
    have hmem := mem_of_lookup hl
    obtain ⟨ctx', hctx⟩ := destroy_of_isOpen (hm.stored_open ref ⟨id, hmem⟩)
    have hst := hm.stored_mapDelete hmem
    have hnd := hm.not_destroyed ref ⟨id, hmem⟩
    refine ⟨{ m with contexts := mapDelete m.contexts id, heap := Function.update m.heap ref ctx',
                     destroyCalls := m.destroyCalls ++ [ref] }, some ref, by simp only [hctx]; rfl,
      ⟨?_, ?_, ?_, fun r => ?_, fun r h => ?_, fun r h => ?_⟩, rfl, rfl⟩
    · exact ((List.filter_sublist _).map _).nodup hm.ids_nodup
    · intro a b r ha hb
      exact hm.id_unique a b r (mem_mapDelete.mp ha).1 (mem_mapDelete.mp hb).1
    · exact List.nodup_append.mpr ⟨hm.destroyCalls_nodup, List.nodup_singleton _, List.disjoint_singleton.mpr hnd⟩
    · show r < m.created ↔ Stored (mapDelete m.contexts id) r ∨ r ∈ m.destroyCalls ++ [ref]
      rw [hst, List.mem_append, List.mem_singleton, hm.created_iff]
      by_cases hr : r = ref
      · simp only [hr, true_or, or_true, iff_true]; exact Or.inl ⟨id, hmem⟩
      · simp only [hr, or_false, ne_eq, not_false_eq_true, and_true]
    · exact List.not_mem_append ((hst r).mp h |>.1 |> hm.not_destroyed r) (by simpa using ((hst r).mp h).2)
    · show IsOpen (Function.update m.heap ref ctx' r)
      rw [Function.update_noteq ((hst r).mp h).2]
      exact hm.stored_open r ((hst r).mp h).1

theorem accounted_copyMapping {m m' : AioManager D} (hm : Accounted m) {aioRingBufferSize : Nat}
    {srcAR dstAR : AddrRange} {offset : Nat} (hsafe : (ManagerOp.copyMapping srcAR dstAR offset).safe m = true)
    (h : copyMapping aioRingBufferSize m srcAR dstAR offset = .ok m') : Accounted m' := by
  simp only [ManagerOp.safe, Bool.and_eq_true, Option.isNone_iff_eq_none, bne_iff_ne, ne_eq] at hsafe
  obtain ⟨hdst, hne⟩ := hsafe
  unfold copyMapping at h
  split_ifs at h
  split at h
  · cases h
  rename_i ref hl
  split_ifs at h
  cases h
  have hmem := mem_of_lookup hl
  have hcs : mapDelete (mapSet m.contexts dstAR.start ref) srcAR.start = (dstAR.start, ref) :: mapDelete m.contexts srcAR.start := by
    rw [mapSet, mapDelete_of_lookup hdst]
    simp [mapDelete, List.filter_cons, hne]
  rw [hcs]
  refine hm.of_stored_iff ?_ ?_ fun r => ?_
  · refine List.nodup_cons.mpr ⟨fun hin => ?_, ((List.filter_sublist _).map _).nodup hm.ids_nodup⟩
    obtain ⟨⟨k, r⟩, hp, hk⟩ := List.mem_map.mp hin
    exact not_mem_of_lookup hdst r ((show k = dstAR.start from hk) ▸ (mem_mapDelete.mp hp).1)
  · intro a b r ha hb
    simp only [List.mem_cons, Prod.mk.injEq, mem_mapDelete] at ha hb
    rcases ha with ⟨rfl, rfl⟩ | ha
    · rcases hb with ⟨rfl, -⟩ | hb
      · rfl
      · exact absurd (hm.id_unique _ _ _ hb.1 hmem) hb.2
    · rcases hb with ⟨rfl, rfl⟩ | hb
      · exact absurd (hm.id_unique _ _ _ ha.1 hmem) ha.2
      · exact hm.id_unique a b r ha.1 hb.1
  · have hst := hm.stored_mapDelete hmem r
    constructor
    · rintro ⟨k, hk⟩
      rcases List.mem_cons.mp hk with hk | hk
      · exact ⟨srcAR.start, (Prod.mk.inj hk).2 ▸ hmem⟩
      · exact (hst.mp ⟨k, hk⟩).1
    · intro hs
      by_cases hr : r = ref
      · exact ⟨dstAR.start, hr ▸ List.mem_cons_self _ _⟩
      · obtain ⟨k, hk⟩ := hst.mpr ⟨hs, hr⟩
        exact ⟨k, List.mem_cons_of_mem _ hk⟩

theorem destroyEach_accounted {m : AioManager D} (hm : Accounted m) (ids : List Nat) :
    ∃ m', destroyEach m ids = .ok m' ∧ Accounted m' ∧
      m'.contexts = m.contexts.filter (·.1 ∉ ids) ∧ m'.created = m.created := by
  induction ids generalizing m with
  | nil => exact ⟨m, rfl, hm, by simp, rfl⟩
  | cons id ids ih =>
    obtain ⟨m1, r, h1, hm1, hc1, hcr1⟩ := destroyAIOContextLocked_accounted hm id
    obtain ⟨m2, h2, hm2, hc2, hcr2⟩ := ih hm1
    refine ⟨m2, by rw [destroyEach, h1]; exact h2, hm2, ?_, hcr2.trans hcr1⟩
    rw [hc2, hc1, mapDelete, List.filter_filter]
    simp only [List.mem_cons, not_or]
    exact List.filter_congr fun p _ => by rw [Bool.decide_and, Bool.and_comm]

/-- Tearing down an accounted manager destroys every context it stores: none is left in the
map, and every context created has been destroyed exactly once. -/
theorem destroyAIOManager_destroys_all {m : AioManager D} (hm : Accounted m) :
    ∃ m', destroyAIOManager m = .ok m' ∧ Accounted m' ∧ m'.contexts = [] ∧ m'.created = m.created ∧
      m'.destroyCalls.Nodup ∧ ∀ ref, ref < m.created ↔ ref ∈ m'.destroyCalls := by
  obtain ⟨m', h, hm', hc, hcr⟩ := destroyEach_accounted hm (m.contexts.map (·.1))
  have hnil : m'.contexts = [] := by
    rw [hc, List.filter_eq_nil_iff]
    exact fun p hp h => (of_decide_eq_true h) (List.mem_map_of_mem _ hp)
  refine ⟨m', h, hm', hnil, hcr, hm'.destroyCalls_nodup, fun ref => ?_⟩
  rw [← hcr, hm'.created_iff, hnil]
  simp [Stored]

/-- One step keeps the accounting, and panics on no accounted manager. -/
theorem managerStep_accounted {m : AioManager D} (hm : Accounted m) (aioRingBufferSize : Nat) (op : ManagerOp)
    (hsafe : op.safe m = true) : ∃ m', managerStep aioRingBufferSize m op = .ok m' ∧ Accounted m' := by
  cases op with
  | newAIOContext events id => exact ⟨_, rfl, accounted_newAIOContext hm events id⟩
  | destroyAIOContextLocked id =>
    obtain ⟨m', r, h, hm', -⟩ := destroyAIOContextLocked_accounted hm id
    exact ⟨m', by simp only [managerStep, h]; rfl, hm'⟩
  | copyMapping srcAR dstAR offset =>
    cases h : copyMapping aioRingBufferSize m srcAR dstAR offset with
    | error e => exact ⟨m, by simp only [managerStep, h], hm⟩
    | ok m' => exact ⟨m', by simp only [managerStep, h], accounted_copyMapping hm hsafe h⟩
  | destroyAIOManager =>
    obtain ⟨m', h, hm', -⟩ := destroyAIOManager_destroys_all hm
    exact ⟨m', h, hm'⟩

theorem managerRun_accounted (aioRingBufferSize : Nat) :
    ∀ (ops : List ManagerOp) {m : AioManager D}, Accounted m → runSafe aioRingBufferSize m ops = true →
      ∃ m', managerRun aioRingBufferSize m ops = .ok m' ∧ Accounted m'
  | [], m, hm, _ => ⟨m, rfl, hm⟩
  | op :: ops, m, hm, hsafe => by
    simp only [runSafe, Bool.and_eq_true] at hsafe
    obtain ⟨m1, h1, hm1⟩ := managerStep_accounted hm aioRingBufferSize op hsafe.1
    rw [h1] at hsafe
    obtain ⟨m2, h2, hm2⟩ := managerRun_accounted aioRingBufferSize ops hm1 hsafe.2
    exact ⟨m2, by rw [managerRun, h1]; exact h2, hm2⟩

/-- Assumes: no `CopyMapping` of the run moves a ring onto an address that holds a context
(the check `newAIOContext` makes). Then no step panics, every context created is stored
under exactly one id or was destroyed exactly once, and a final `destroyAIOManager` destroys
each one not yet destroyed, so that every context created is destroyed exactly once. -/
theorem managerRun_accounts_every_context (aioRingBufferSize : Nat) (ops : List ManagerOp)
    (hsafe : runSafe aioRingBufferSize (empty : AioManager D) ops = true) :
    ∃ m : AioManager D, managerRun aioRingBufferSize empty ops = .ok m ∧
      (∀ ref, ref < m.created ↔ Stored m.contexts ref ∨ ref ∈ m.destroyCalls) ∧
      (∀ a b ref, (a, ref) ∈ m.contexts → (b, ref) ∈ m.contexts → a = b) ∧
      (∀ ref, Stored m.contexts ref → ref ∉ m.destroyCalls) ∧ m.destroyCalls.Nodup ∧
      ∃ m', destroyAIOManager m = .ok m' ∧ m'.contexts = [] ∧ m'.destroyCalls.Nodup ∧
        ∀ ref, ref < m.created ↔ ref ∈ m'.destroyCalls := by
  obtain ⟨m, h, hm⟩ := managerRun_accounted aioRingBufferSize ops accounted_empty hsafe
  obtain ⟨m', h', -, hnil, -, hnd, hall⟩ := destroyAIOManager_destroys_all hm
  exact ⟨m, h, hm.created_iff, hm.id_unique, hm.not_destroyed, hm.destroyCalls_nodup, m', h', hnil, hnd, hall⟩

/-- Two contexts, the first ring moved to a free address, then the first context destroyed:
every step is guarded. -/
theorem managerRun_accounts_move_then_destroy :
    runSafe 4096 (empty : AioManager Unit) [.newAIOContext 8 4096, .newAIOContext 8 8192,
      .copyMapping ⟨4096, 8192⟩ ⟨12288, 16384⟩ 0, .destroyAIOContextLocked 12288] = true ∧
    ∃ m : AioManager Unit, managerRun 4096 empty [.newAIOContext 8 4096, .newAIOContext 8 8192,
      .copyMapping ⟨4096, 8192⟩ ⟨12288, 16384⟩ 0, .destroyAIOContextLocked 12288] = .ok m ∧
      (∀ ref, ref < m.created ↔ Stored m.contexts ref ∨ ref ∈ m.destroyCalls) ∧
      (∀ a b ref, (a, ref) ∈ m.contexts → (b, ref) ∈ m.contexts → a = b) ∧
      (∀ ref, Stored m.contexts ref → ref ∉ m.destroyCalls) ∧ m.destroyCalls.Nodup ∧
      ∃ m', destroyAIOManager m = .ok m' ∧ m'.contexts = [] ∧ m'.destroyCalls.Nodup ∧
        ∀ ref, ref < m.created ↔ ref ∈ m'.destroyCalls :=
  have hsafe : runSafe 4096 (empty : AioManager Unit) [.newAIOContext 8 4096, .newAIOContext 8 8192,
      .copyMapping ⟨4096, 8192⟩ ⟨12288, 16384⟩ 0, .destroyAIOContextLocked 12288] = true := by decide
  ⟨hsafe, managerRun_accounts_every_context 4096 _ hsafe⟩

/-- Two contexts at the ring addresses 4096 and 8192; the second ring's context is number 1. -/
def twoContexts : AioManager Unit :=
  (newAIOContext (newAIOContext empty 8 4096).1 8 8192).1

/-- Moving the first ring onto the second ring's address drops context 1 from the map
without destroying it, and tearing the manager down afterwards never destroys it. -/
theorem copyMapping_drops_live_context :
    twoContexts.contexts.lookup 8192 = some 1 ∧
    ∃ m m', copyMapping 4096 twoContexts ⟨4096, 8192⟩ ⟨8192, 12288⟩ 0 = .ok m ∧
      (∀ id, m.contexts.lookup id ≠ some 1) ∧ 1 ∉ m.destroyCalls ∧
      destroyAIOManager m = .ok m' ∧ 1 ∉ m'.destroyCalls ∧ (m'.heap 1).dead = false := by
  refine ⟨rfl, _, _, rfl, fun id => ?_, by decide, rfl, by decide, rfl⟩
  simp only [twoContexts, newAIOContext, empty, copyMapping, mapSet, mapDelete, AddrRange.length]
  simp only [List.lookup]
  split <;> simp

end Gvisor.Mm
