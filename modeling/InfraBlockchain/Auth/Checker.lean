import Mathlib.Data.List.Perm.Subperm
import Mathlib.Data.List.Sort
import InfraBlockchain.Types

/-!
# The authority checker

`authority_checker` (`authority_checker.hpp`) decides whether provided keys, provided permissions
and a provided delay satisfy a permission. A permission's authority has a threshold and weighted
keys, permission levels and waits; the checker visits them from the highest weight down, adds the
weight of each satisfied one to a running total, and stops as soon as the total reaches the
threshold. A permission level is satisfied when it is provided, or when its own authority is, one
level of recursion deeper; a cache records each permission level that has been evaluated, and
marks it `being_evaluated` while it is, which cuts cycles. The keys that a satisfied authority used
are marked; an authority that fails gives back the marks that it made.

The recursion stops at `recursion_depth_limit`: the model counts the levels left (`budget`, the
limit less the depth), so that it is a structural recursion and so total. The authorities come
from `permission_to_authority`, which `authorization_manager` builds on `get_permission`. A level
not in the permission table raises `permission_query_exception`, and the checker goes on without
it; a level with an empty actor or an empty permission name raises `invalid_permission`, which
`EOS_RETHROW_EXCEPTIONS` passes on as it is, and which ends the whole check.
-/

namespace InfraBlockchain.Auth

variable {K : Type}

/-- `key_weight`, over public keys `K`. -/
structure KeyWeight (K : Type) where
  /-- The key. -/
  key : K
  /-- `weight_type`. -/
  weight : UInt16

/-- `permission_level_weight`. -/
structure PermissionLevelWeight where
  /-- The permission level. -/
  permission : PermissionLevel
  /-- `weight_type`. -/
  weight : UInt16

/-- `wait_weight`. -/
structure WaitWeight where
  /-- The delay in seconds. -/
  wait_sec : UInt32
  /-- `weight_type`. -/
  weight : UInt16

/-- `authority`. -/
structure Authority (K : Type) where
  /-- The weight to reach. -/
  threshold : UInt32
  /-- Weighted keys. -/
  keys : List (KeyWeight K)
  /-- Weighted permission levels. -/
  accounts : List PermissionLevelWeight
  /-- Weighted delays. -/
  waits : List WaitWeight

/-- `authorization_manager::get_permission(p).auth` over a permission table: `invalid_permission`
for an empty actor or permission name, `permission_query_exception` for a level not in the
table. -/
def getPermissionAuth (table : PermissionLevel → Option (Authority K)) (level : PermissionLevel) :
    Except Exception (Authority K) := do
  eosAssert (!level.actor.empty && !level.permission.empty) .invalid_permission "Invalid permission"
  liftDb .permission_query_exception "Failed to retrieve permission: ${level}" (table level)

/-- What an `authority_checker` is built with. -/
structure AuthorityChecker (K : Type) where
  /-- `permission_to_authority`. -/
  permission_to_authority : PermissionLevel → Except Exception (Authority K)
  /-- `provided_keys`, in the order of their `flat_set`. -/
  provided_keys : List K
  /-- `provided_permissions`. -/
  provided_permissions : List PermissionLevel
  /-- `provided_delay`, in microseconds. -/
  provided_delay : Int
  /-- `recursion_depth_limit`. -/
  recursion_depth_limit : UInt16

/-- `permission_cache_status`. -/
inductive PermissionCacheStatus where
  | being_evaluated
  | permission_unsatisfied
  | permission_satisfied
  deriving DecidableEq, Repr

/-- What a check changes: `_used_keys`, parallel to `provided_keys`, and the permission cache. -/
structure CheckerState where
  /-- `_used_keys`. -/
  used_keys : List Bool
  /-- `permission_cache_type`, a map from permission levels. -/
  cached_permissions : PermissionLevel → Option PermissionCacheStatus

/-- The empty `permission_name()`. -/
def emptyName : Name := ⟨0⟩

/-- `permission_status_in_cache`: the level's status, else the status of the whole actor. -/
def permissionStatusInCache (permissions : PermissionLevel → Option PermissionCacheStatus)
    (level : PermissionLevel) : Option PermissionCacheStatus :=
  match permissions level with
  | some status => some status
  | none => permissions ⟨level.actor, emptyName⟩

/-- `initialize_permission_cache`: every provided permission satisfied. -/
def initializePermissionCache (c : AuthorityChecker K) :
    PermissionLevel → Option PermissionCacheStatus :=
  fun level => if level ∈ c.provided_permissions then some .permission_satisfied else none

/-- The cache with `level` set to `status`. -/
def setStatus (permissions : PermissionLevel → Option PermissionCacheStatus)
    (level : PermissionLevel) (status : PermissionCacheStatus) :
    PermissionLevel → Option PermissionCacheStatus :=
  fun l => if l = level then some status else permissions l

/-- An entry of an authority, as the checker's `meta_permission_map` holds it. -/
inductive MetaPermission (K : Type) where
  | account (p : PermissionLevelWeight)
  | key (k : KeyWeight K)
  | wait (w : WaitWeight)

/-- The weight of an entry. -/
def MetaPermission.weight : MetaPermission K → UInt16
  | .account p => p.weight
  | .key k => k.weight
  | .wait w => w.weight

/-- The priority of an entry among entries of one weight: accounts `1`, keys `2`, waits `3`. -/
def MetaPermission.priority : MetaPermission K → Nat
  | .account _ => 1
  | .key _ => 2
  | .wait _ => 3

/-- The order of `meta_permission_map`: `std::greater` on the pair of weight and priority. -/
def MetaPermission.before (a b : MetaPermission K) : Bool :=
  b.weight < a.weight || (b.weight == a.weight && b.priority ≤ a.priority)

/-- The entries of an authority as they are emplaced: the accounts, the keys, the waits. -/
def metaPermissionEntries (authority : Authority K) : List (MetaPermission K) :=
  authority.accounts.map MetaPermission.account ++ authority.keys.map MetaPermission.key ++
    authority.waits.map MetaPermission.wait

/-- The entries of an authority in the order in which the checker visits them, from the highest
pair down; the multimap keeps equal pairs in the order of insertion, as the stable insertion sort
does. -/
def metaPermissions (authority : Authority K) : List (MetaPermission K) :=
  (metaPermissionEntries authority).insertionSort fun a b => MetaPermission.before a b = true

/-- The visit of a wait: its weight counts when the provided delay is at least its delay. -/
def visitWait (c : AuthorityChecker K) (permission : WaitWeight) (total_weight : UInt32) :
    UInt32 :=
  if c.provided_delay ≥ permission.wait_sec.toNat * 1000000 then
    total_weight + permission.weight.toUInt32
  else total_weight

/-- The visit of a key: a provided key is marked used and its weight counts. -/
def visitKey [DecidableEq K] (c : AuthorityChecker K) (permission : KeyWeight K)
    (total_weight : UInt32) (st : CheckerState) : UInt32 × CheckerState :=
  match c.provided_keys.idxOf? permission.key with
  | some i => (total_weight + permission.weight.toUInt32,
      { st with used_keys := st.used_keys.set i true })
  | none => (total_weight, st)

/-- The check of an authority one level down, or `none` at the depth limit. -/
abbrev CheckBelow (K : Type) :=
  Option (Authority K → CheckerState → Except Exception (Bool × CheckerState))

/-- The cache after the check of a level's authority: the level satisfied or not. -/
def settle (st : CheckerState) (level : PermissionLevel) (r : Bool) : CheckerState :=
  let status : PermissionCacheStatus := if r then .permission_satisfied else .permission_unsatisfied
  { st with cached_permissions := setStatus st.cached_permissions level status }

/-- The visit of a permission level, with `below` the check of an authority one level down: a
cached status stands; an uncached level with an authority is marked `being_evaluated` and
checked, and its weight counts when its authority is satisfied. -/
def visitPermission (c : AuthorityChecker K) (below : CheckBelow K)
    (permission : PermissionLevelWeight) (total_weight : UInt32) (st : CheckerState) :
    Except Exception (UInt32 × CheckerState) :=
  match permissionStatusInCache st.cached_permissions permission.permission with
  | none =>
    match below with
    -- `recursion_depth < recursion_depth_limit` fails: the level counts for nothing
    | none => .ok (total_weight, st)
    | some satisfiedAuth =>
      match c.permission_to_authority permission.permission with
      | .error e =>
        -- a level that does not exist is skipped; any other exception ends the check
        if e.kind = .permission_query_exception then .ok (total_weight, st) else .error e
      | .ok auth => do
        let st := { st with
          cached_permissions := setStatus st.cached_permissions permission.permission
            .being_evaluated }
        let (r, st) ← satisfiedAuth auth st
        pure (if r then total_weight + permission.weight.toUInt32 else total_weight,
          settle st permission.permission r)
  | some .permission_satisfied => .ok (total_weight + permission.weight.toUInt32, st)
  | some _ => .ok (total_weight, st)

/-- `weight_tally_visitor` on one entry. -/
def visit [DecidableEq K] (c : AuthorityChecker K) (below : CheckBelow K)
    (total_weight : UInt32) (st : CheckerState) :
    MetaPermission K → Except Exception (UInt32 × CheckerState)
  | .account p => visitPermission c below p total_weight st
  | .key k => .ok (visitKey c k total_weight st)
  | .wait w => .ok (visitWait c w total_weight, st)

/-- The loop of `satisfied(authority, ...)`: visit the entries in order until the total reaches
the threshold. -/
def tally [DecidableEq K] (c : AuthorityChecker K) (below : CheckBelow K) (threshold : UInt32) :
    List (MetaPermission K) → UInt32 → CheckerState → Except Exception (Bool × CheckerState)
  | [], _, st => .ok (false, st)
  | p :: ps, total_weight, st => do
    let (total_weight, st) ← visit c below total_weight st p
    if total_weight ≥ threshold then pure (true, st)
    else tally c below threshold ps total_weight st

/-- `satisfied(authority, cached_permissions, depth)`, with `below` the check one level deeper:
the loop from a zero total, with the marks of used keys given back when it fails
(`KeyReverter`). -/
def satisfiedAuthority [DecidableEq K] (c : AuthorityChecker K) (below : CheckBelow K)
    (authority : Authority K) (st : CheckerState) : Except Exception (Bool × CheckerState) := do
  let (r, st') ← tally c below authority.threshold (metaPermissions authority) 0 st
  pure (r, if r then st' else { st' with used_keys := st.used_keys })

/-- The check of an authority one level down from a depth with `budget` levels left below it. -/
def satisfiedBelow [DecidableEq K] (c : AuthorityChecker K) : Nat → CheckBelow K
  | 0 => none
  | budget + 1 => some (satisfiedAuthority c (satisfiedBelow c budget))

/-- `satisfied(permission)` with a cache: the visit of the level with weight `1` at depth zero. -/
def satisfiedWith [DecidableEq K] (c : AuthorityChecker K) (permission : PermissionLevel)
    (st : CheckerState) : Except Exception (Bool × CheckerState) := do
  let (total_weight, st) ← visitPermission c (satisfiedBelow c c.recursion_depth_limit.toNat)
    ⟨permission, 1⟩ 0 st
  pure (total_weight > 0, st)

/-- The state of a fresh check: no key used, and the provided permissions satisfied. -/
def AuthorityChecker.initState (c : AuthorityChecker K) : CheckerState :=
  ⟨c.provided_keys.map fun _ => false, initializePermissionCache c⟩

/-- `satisfied(permission)`: with a fresh cache. -/
def satisfied [DecidableEq K] (c : AuthorityChecker K) (permission : PermissionLevel) :
    Except Exception (Bool × CheckerState) :=
  satisfiedWith c permission c.initState

/-- `make_auth_checker` as `authorization_manager` calls it, with `get_permission(p).auth`. -/
def makeAuthChecker (table : PermissionLevel → Option (Authority K)) (recursion_depth_limit : UInt16)
    (provided_keys : List K) (provided_permissions : List PermissionLevel) (provided_delay : Int) :
    AuthorityChecker K :=
  ⟨getPermissionAuth table, provided_keys, provided_permissions, provided_delay,
    recursion_depth_limit⟩

end InfraBlockchain.Auth
