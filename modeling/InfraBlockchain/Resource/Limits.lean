import Mathlib
import InfraBlockchain.Lib.IndexedTable
import InfraBlockchain.Types
import InfraBlockchain.Resource.Accumulator

/-!
# Account resource limits

`resource_limits_manager` (`resource_limits.cpp`) keeps, for each account, a `resource_limits_object`
with its RAM bytes, NET weight and CPU weight, where `-1` means unlimited, and in
`resource_limits_state_object` the totals of the weights and bytes over all accounts.
`set_account_limits` does not change an account's limits at once: it writes them into a second,
*pending* row of the account, created from the row in force when there is none yet. At the next
block boundary `process_account_limit_updates` merges the pending rows into the rows in force, in
the order of the `by_owner` index, and moves each total by the old value out and the new value in,
each when positive; `update_state_and_value` asserts that the total neither underflows nor
overflows.

The `by_owner` index is unique on `(pending, owner)`: an account has at most one row in force and
at most one pending row. The loop of `process_account_limit_updates` runs until no pending row is
left; each iteration removes one row, so the model bounds it by the number of rows.
-/

namespace InfraBlockchain.Resource

open IndexedTable

/-- `resource_limits_object`. -/
structure ResourceLimitsObject where
  /-- The account. -/
  owner : Name
  /-- Whether the row is the account's pending row. -/
  pending : Bool
  /-- `net_weight`, `-1` for unlimited. -/
  net_weight : Int64
  /-- `cpu_weight`, `-1` for unlimited. -/
  cpu_weight : Int64
  /-- `ram_bytes`, `-1` for unlimited. -/
  ram_bytes : Int64
  deriving DecidableEq

/-- Two rows with the same key in the unique `by_owner` index on `(pending, owner)`. -/
def ResourceLimitsObject.clash (a b : ResourceLimitsObject) : Prop :=
  a.pending = b.pending ∧ a.owner = b.owner

instance : DecidableRel ResourceLimitsObject.clash := fun a b =>
  inferInstanceAs (Decidable (a.pending = b.pending ∧ a.owner = b.owner))

/-- `resource_usage_object`, without the RAM usage that nothing here reads. -/
structure ResourceUsageObject where
  /-- The account. -/
  owner : Name
  /-- The average NET usage. -/
  net_usage : UsageAccumulator := {}
  /-- The average CPU usage. -/
  cpu_usage : UsageAccumulator := {}
  deriving DecidableEq

/-- Two usage rows with the same key in the unique `by_owner` index. -/
def ResourceUsageObject.clash (a b : ResourceUsageObject) : Prop := a.owner = b.owner

instance : DecidableRel ResourceUsageObject.clash := fun a b =>
  inferInstanceAs (Decidable (a.owner = b.owner))

/-- `ratio<uint64_t>`. -/
structure Ratio where
  /-- The numerator. -/
  numerator : UInt64
  /-- The denominator. -/
  denominator : UInt64
  deriving DecidableEq, Repr

/-- `elastic_limit_parameters`. -/
structure ElasticLimitParameters where
  /-- `target`, the desired usage. -/
  target : UInt64
  /-- `max`, the largest usage of a block. -/
  max : UInt64
  /-- `periods`, the blocks over which the usage is averaged. -/
  periods : UInt32
  /-- `max_multiplier`, by which the virtual limit can oversell the usage when uncongested. -/
  max_multiplier : UInt32
  /-- `contract_rate`, at which a congested limit contracts. -/
  contract_rate : Ratio
  /-- `expand_rate`, at which an uncongested limit expands. -/
  expand_rate : Ratio
  deriving DecidableEq, Repr

/-- `resource_limits_config_object`, with the defaults of its declaration; nothing changes the
windows. -/
structure ResourceLimitsConfig where
  /-- `cpu_limit_parameters`: `config::default_max_block_cpu_usage` at most in a block, ten percent
of it as the target, averaged over a minute of half-second blocks. -/
  cpu_limit_parameters : ElasticLimitParameters :=
    ⟨200000 * 1000 / 10000, 200000, 60 * 1000 / 500, 1000, ⟨99, 100⟩, ⟨1000, 999⟩⟩
  /-- `net_limit_parameters`: `config::default_max_block_net_usage` at most in a block, ten percent
of it as the target, averaged over a minute of half-second blocks. -/
  net_limit_parameters : ElasticLimitParameters :=
    ⟨1024 * 1024 * 1000 / 10000, 1024 * 1024, 60 * 1000 / 500, 1000, ⟨99, 100⟩, ⟨1000, 999⟩⟩
  /-- `account_cpu_usage_average_window`, a day of half-second slots. -/
  account_cpu_usage_average_window : UInt32 := 24 * 60 * 60 * 1000 / 500
  /-- `account_net_usage_average_window`, a day of half-second slots. -/
  account_net_usage_average_window : UInt32 := 24 * 60 * 60 * 1000 / 500
  deriving DecidableEq

/-- The tables and totals that the functions change. -/
structure ResourceLimitsState where
  /-- `resource_limits_index`. -/
  limits : IndexedTable ResourceLimitsObject ResourceLimitsObject.clash
  /-- `resource_usage_index`. -/
  usage : IndexedTable ResourceUsageObject ResourceUsageObject.clash
  /-- `resource_limits_state_object::total_net_weight`. -/
  total_net_weight : UInt64
  /-- `resource_limits_state_object::total_cpu_weight`. -/
  total_cpu_weight : UInt64
  /-- `resource_limits_state_object::total_ram_bytes`. -/
  total_ram_bytes : UInt64
  /-- `resource_limits_config_object`. -/
  config : ResourceLimitsConfig := {}
  /-- `resource_limits_state_object::average_block_net_usage`. -/
  average_block_net_usage : UsageAccumulator := {}
  /-- `resource_limits_state_object::average_block_cpu_usage`. -/
  average_block_cpu_usage : UsageAccumulator := {}
  /-- `resource_limits_state_object::pending_net_usage`. -/
  pending_net_usage : UInt64 := 0
  /-- `resource_limits_state_object::pending_cpu_usage`. -/
  pending_cpu_usage : UInt64 := 0
  /-- `resource_limits_state_object::virtual_net_limit`. -/
  virtual_net_limit : UInt64 := 0
  /-- `resource_limits_state_object::virtual_cpu_limit`. -/
  virtual_cpu_limit : UInt64 := 0
  deriving DecidableEq

/-- `resource_limits_manager::initialize_database`: no account, the totals zero, the default
configuration, and the virtual limits at their floor, the largest usage of a block. -/
def ResourceLimitsState.init : ResourceLimitsState :=
  let config : ResourceLimitsConfig := {}
  { limits := .empty, usage := .empty, total_net_weight := 0, total_cpu_weight := 0,
    total_ram_bytes := 0, config,
    virtual_cpu_limit := config.cpu_limit_parameters.max,
    virtual_net_limit := config.net_limit_parameters.max }

/-- The lookup `by_owner` of `(pending, owner)`. -/
def byOwner (pending : Bool) (owner : Name) (r : ResourceLimitsObject) : Bool :=
  r.pending == pending && r.owner == owner

/-- `UINT64_MAX`. -/
def uint64Max : UInt64 := 18446744073709551615

/-- `resource_limits_manager::initialize_account`: a row in force with every limit unlimited, and
a usage row. -/
def initializeAccount (s : ResourceLimitsState) (account : Name) :
    Except Exception ResourceLimitsState := do
  let limits ← liftDb .unique_index_violation "could not insert object"
    (s.limits.create ⟨account, false, -1, -1, -1⟩)
  let usage ← liftDb .unique_index_violation "could not insert object"
    (s.usage.create { owner := account })
  pure { s with limits, usage }

/-- `find_or_create_pending_limits`: the account's pending row, else a new one with the limits of
the row in force. -/
def findOrCreatePendingLimits (s : ResourceLimitsState) (account : Name) :
    Except Exception (IndexedTable ResourceLimitsObject ResourceLimitsObject.clash ×
      ResourceLimitsObject) :=
  match s.limits.find? (byOwner true account) with
  | some pending_limits => .ok (s.limits, pending_limits)
  | none => do
    let limits ← liftDb .unknown_key "unknown key" (s.limits.find? (byOwner false account))
    let pending_limits : ResourceLimitsObject :=
      ⟨limits.owner, true, limits.net_weight, limits.cpu_weight, limits.ram_bytes⟩
    let table ← liftDb .unique_index_violation "could not insert object"
      (s.limits.create pending_limits)
    pure (table, pending_limits)

/-- `resource_limits_manager::set_account_limits`: the new limits in the account's pending row,
and whether the RAM limit is lower than the pending one (or bounds an unlimited one). -/
def setAccountLimits (s : ResourceLimitsState) (account : Name)
    (ram_bytes net_weight cpu_weight : Int64) : Except Exception (ResourceLimitsState × Bool) := do
  let (table, limits) ← findOrCreatePendingLimits s account
  let decreased_limit :=
    if ram_bytes ≥ 0 then decide (limits.ram_bytes < 0) || decide (ram_bytes < limits.ram_bytes)
    else false
  let table ← liftDb .unique_index_violation "could not modify object"
    (table.modify (byOwner true account) fun pending_limits =>
      { pending_limits with ram_bytes, net_weight, cpu_weight })
  pure ({ s with limits := table }, decreased_limit)

/-- The first half of `update_state_and_value`: a positive old value taken out of the total,
which must hold it. -/
def revertValue (total : UInt64) (value : Int64) : Except Exception UInt64 :=
  if value > 0 then do
    eosAssert (total ≥ value.toUInt64) .rate_limiting_state_inconsistent
      "underflow when reverting old value to ${which}"
    pure (total - value.toUInt64)
  else pure total

/-- The second half of `update_state_and_value`: a positive new value added to the total, which
must not pass `UINT64_MAX`. -/
def applyValue (total : UInt64) (pending_value : Int64) : Except Exception UInt64 :=
  if pending_value > 0 then do
    eosAssert (uint64Max - total ≥ pending_value.toUInt64) .rate_limiting_state_inconsistent
      "overflow when applying new value to ${which}"
    pure (total + pending_value.toUInt64)
  else pure total

/-- The lambda `update_state_and_value`: the total without the old value and with the new one,
each when positive, and the new value. -/
def updateStateAndValue (total : UInt64) (value pending_value : Int64) :
    Except Exception (UInt64 × Int64) := do
  let total ← revertValue total value
  let total ← applyValue total pending_value
  pure (total, pending_value)

/-- `by_owner_index.lower_bound(boost::make_tuple(true))`, when it is a pending row: the pending
row of the least owner. -/
def firstPending (rows : List ResourceLimitsObject) : Option ResourceLimitsObject :=
  ((rows.filter (·.pending)).insertionSort fun a b => a.owner.value ≤ b.owner.value).head?

/-- One iteration of the loop of `process_account_limit_updates`: the pending row `itr` merged into
the account's row in force, RAM bytes, then CPU weight, then NET weight, and removed. -/
def mergePending (s : ResourceLimitsState) (itr : ResourceLimitsObject) :
    Except Exception ResourceLimitsState := do
  let actual_entry ← liftDb .unknown_key "unknown key" (s.limits.find? (byOwner false itr.owner))
  let (total_ram_bytes, ram_bytes) ←
    updateStateAndValue s.total_ram_bytes actual_entry.ram_bytes itr.ram_bytes
  let (total_cpu_weight, cpu_weight) ←
    updateStateAndValue s.total_cpu_weight actual_entry.cpu_weight itr.cpu_weight
  let (total_net_weight, net_weight) ←
    updateStateAndValue s.total_net_weight actual_entry.net_weight itr.net_weight
  let limits ← liftDb .unique_index_violation "could not modify object"
    (s.limits.modify (byOwner false itr.owner) fun rlo =>
      { rlo with ram_bytes, cpu_weight, net_weight })
  let limits := limits.remove (byOwner true itr.owner)
  pure { s with limits, total_ram_bytes, total_cpu_weight, total_net_weight }

/-- The loop of `process_account_limit_updates`, for at most `fuel` iterations: merge the first
pending row until there is none. -/
def mergeLoop : Nat → ResourceLimitsState → Except Exception ResourceLimitsState
  | 0, s => .ok s
  | fuel + 1, s =>
    match firstPending s.limits.rows with
    | none => .ok s
    | some itr => do
      let s ← mergePending s itr
      mergeLoop fuel s

/-- `resource_limits_manager::process_account_limit_updates`: each iteration removes a row, so
the loop ends within as many iterations as there are rows. -/
def processAccountLimitUpdates (s : ResourceLimitsState) : Except Exception ResourceLimitsState :=
  mergeLoop s.limits.rows.length s

/-- A call on the account limits. -/
inductive ResourceRequest where
  | initialize_account (account : Name)
  | set_account_limits (account : Name) (ram_bytes net_weight cpu_weight : Int64)
  | process_account_limit_updates

/-- One call. -/
def resourceStep (s : ResourceLimitsState) : ResourceRequest → Except Exception ResourceLimitsState
  | .initialize_account account => initializeAccount s account
  | .set_account_limits account ram_bytes net_weight cpu_weight => do
    let (s, _) ← setAccountLimits s account ram_bytes net_weight cpu_weight
    pure s
  | .process_account_limit_updates => processAccountLimitUpdates s

end InfraBlockchain.Resource
