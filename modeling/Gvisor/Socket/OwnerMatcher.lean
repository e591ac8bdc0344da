import Mathlib.Algebra.Group.Nat.Basic
import Mathlib.Data.Nat.Defs
import Mathlib.Tactic.IntervalCases

/-!
# The iptables owner match

`ownerMarshaler` (sentry/socket/netfilter/owner_matcher.go) converts between the owner match of
an iptables rule, `IPTOwnerInfo`, and the sentry's `OwnerMatcher`. `unmarshal`, on
`setsockopt`, maps the rule's UID and GID into kernel IDs through the calling task's user
namespace and reads the match and invert flags. `marshal`, on `getsockopt`, writes the flags
back and writes the kernel IDs as they are.

The results here: for every rule whose invert flags lie within its match flags and whose match
flags are `XT_OWNER_UID` and `XT_OWNER_GID`, and every namespace that maps its UID and GID,
reading the rule back gives it with the kernel IDs in place of its own
(`ownerMarshal_unmarshal`). The flags come back exactly (`ownerMarshal_unmarshal_flags`); the
IDs come back only where the namespace maps them to themselves.

Scope. `IPTOwnerInfo`, the `XT_OWNER_*` bits and the user namespace's `MapToKUID` and
`MapToKGID` are not in the source and are modelled from the spec. A namespace is its two ID
maps, where `none` is an unmapped ID, which `MapToKUID` returns as `NoID`. The byte encoding of
`marshal.Marshal` and `UnmarshalUnsafe` and the entry header of `marshalEntryMatch` are left
out: a buffer is the `IPTOwnerInfo` it holds, so the length check of `unmarshal` and its error
do not arise. Of `IPTOwnerInfo`, `PID`, `SID` and `Comm`, which `marshal` leaves zero and
`unmarshal` does not read, are left out. `Match` is named `matchFlags`, `match` being a
keyword.
-/

set_option autoImplicit false

namespace Gvisor.Socket

/-- Modelled from the spec: `linux.XT_OWNER_UID`. -/
def xtOwnerUID : Nat := 1

/-- Modelled from the spec: `linux.XT_OWNER_GID`. -/
def xtOwnerGID : Nat := 2

/-- Modelled from the spec: the fields of `linux.IPTOwnerInfo` the owner match writes or
reads. `uid` and `gid` are `uint32`s, `matchFlags` and `invert` `uint8` bit sets. -/
structure IPTOwnerInfo where
  uid : Nat
  gid : Nat
  matchFlags : Nat
  invert : Nat
deriving DecidableEq, Repr

/-- `OwnerMatcher`, with the kernel IDs `uid` and `gid`. -/
structure OwnerMatcher where
  uid : Nat
  gid : Nat
  matchUID : Bool
  matchGID : Bool
  invertUID : Bool
  invertGID : Bool
deriving DecidableEq, Repr

/-- Modelled from the spec: a user namespace, by its maps from its own IDs to kernel IDs. -/
structure UserNamespace where
  uidMap : Nat → Option Nat
  gidMap : Nat → Option Nat

/-- Modelled from the spec: `auth.NoID`, the kernel ID of an unmapped ID. -/
def noID : Nat := 2 ^ 32 - 1

/-- Modelled from the spec: `UserNamespace.MapToKUID`. -/
def UserNamespace.mapToKUID (ns : UserNamespace) (uid : Nat) : Nat := (ns.uidMap uid).getD noID

/-- Modelled from the spec: `UserNamespace.MapToKGID`. -/
def UserNamespace.mapToKGID (ns : UserNamespace) (gid : Nat) : Nat := (ns.gidMap gid).getD noID

/-- `ownerMarshaler.marshal`, up to the byte encoding. -/
def ownerMarshal (matcher : OwnerMatcher) : IPTOwnerInfo :=
  let info : IPTOwnerInfo := ⟨matcher.uid, matcher.gid, 0, 0⟩
  let info :=
    if matcher.matchUID then
      { info with matchFlags := xtOwnerUID, invert := if matcher.invertUID then xtOwnerUID else info.invert }
    else info
  if matcher.matchGID then
    { info with
      matchFlags := info.matchFlags ||| xtOwnerGID
      invert := if matcher.invertGID then info.invert ||| xtOwnerGID else info.invert }
  else info

/-- `ownerMarshaler.unmarshal` for a task in the user namespace `ns`, up to the byte
encoding. -/
def ownerUnmarshal (ns : UserNamespace) (matchData : IPTOwnerInfo) : OwnerMatcher :=
  let matchUID := matchData.matchFlags &&& xtOwnerUID != 0
  let matchGID := matchData.matchFlags &&& xtOwnerGID != 0
  { uid := ns.mapToKUID matchData.uid
    gid := ns.mapToKGID matchData.gid
    matchUID := matchUID
    matchGID := matchGID
    invertUID := matchUID && matchData.invert &&& xtOwnerUID != 0
    invertGID := matchGID && matchData.invert &&& xtOwnerGID != 0 }

/-! ### Round trips -/

/-- The flags of a rule come back from `unmarshal` and `marshal` exactly, when the invert flags
lie within the match flags and the match flags are `XT_OWNER_UID` and `XT_OWNER_GID`. -/
theorem ownerMarshal_unmarshal_flags (ns : UserNamespace) {d : IPTOwnerInfo}
    (hmatch : d.matchFlags &&& (xtOwnerUID ||| xtOwnerGID) = d.matchFlags)
    (hinv : d.invert &&& d.matchFlags = d.invert) :
    (ownerMarshal (ownerUnmarshal ns d)).matchFlags = d.matchFlags ∧
      (ownerMarshal (ownerUnmarshal ns d)).invert = d.invert := by
  obtain ⟨u, g, m, i⟩ := d
  rw [show xtOwnerUID ||| xtOwnerGID = 3 from rfl] at hmatch
  dsimp only at hmatch hinv
  have hm : m < 4 := by
    have := Nat.and_le_right (n := m) (m := 3)
    omega
  have hi : i < 4 := by
    have := Nat.and_le_right (n := i) (m := m)
    omega
  interval_cases m <;> interval_cases i <;>
    first
    | exact absurd hinv (by decide)
    | simp [ownerMarshal, ownerUnmarshal, xtOwnerUID, xtOwnerGID]

/-- Reading back a rule installed from a task whose namespace maps its UID to `ku` and its GID
to `kg` gives the rule with `ku` and `kg` in place of its IDs: the same rule exactly when the
namespace maps both IDs to themselves. -/
theorem ownerMarshal_unmarshal (ns : UserNamespace) {d : IPTOwnerInfo}
    (hmatch : d.matchFlags &&& (xtOwnerUID ||| xtOwnerGID) = d.matchFlags)
    (hinv : d.invert &&& d.matchFlags = d.invert) {ku kg : Nat}
    (hu : ns.uidMap d.uid = some ku) (hg : ns.gidMap d.gid = some kg) :
    ownerMarshal (ownerUnmarshal ns d) = { d with uid := ku, gid := kg } ∧
      (ownerMarshal (ownerUnmarshal ns d) = d ↔ ku = d.uid ∧ kg = d.gid) := by
  obtain ⟨hm, hi⟩ := ownerMarshal_unmarshal_flags ns hmatch hinv
  have hid : (ownerMarshal (ownerUnmarshal ns d)).uid = ku ∧ (ownerMarshal (ownerUnmarshal ns d)).gid = kg := by
    simp only [ownerMarshal, ownerUnmarshal, UserNamespace.mapToKUID, UserNamespace.mapToKGID, hu, hg]
    split_ifs <;> simp
  have heq : ownerMarshal (ownerUnmarshal ns d) = { d with uid := ku, gid := kg } := by
    rw [← hid.1, ← hid.2, ← hm, ← hi]
  refine ⟨heq, ?_⟩
  rw [heq]
  obtain ⟨u, g, m, i⟩ := d
  simp [eq_comm]

/-- A rootless container's namespace maps its UID and GID 0 to 1000: a rule matching UID 0 is
read back as matching UID 1000. -/
theorem ownerMarshal_unmarshal_rootless :
    (1 : Nat) &&& (xtOwnerUID ||| xtOwnerGID) = 1 ∧ (0 : Nat) &&& 1 = 0 ∧
      ownerMarshal (ownerUnmarshal ⟨fun u => some (u + 1000), fun g => some (g + 1000)⟩ ⟨0, 0, 1, 0⟩) =
        ⟨1000, 1000, 1, 0⟩ ∧
      (ownerMarshal (ownerUnmarshal ⟨fun u => some (u + 1000), fun g => some (g + 1000)⟩ ⟨0, 0, 1, 0⟩) =
        ⟨0, 0, 1, 0⟩ ↔ 1000 = 0 ∧ 1000 = 0) :=
  ⟨by decide, by decide,
    ownerMarshal_unmarshal ⟨fun u => some (u + 1000), fun g => some (g + 1000)⟩ (by decide) (by decide) rfl rfl⟩

end Gvisor.Socket
