import Mathlib
import InfraBlockchain.Lib.Machine
import InfraBlockchain.Resource.Limits

/-!
# Usage in the window and admission

`update_account_usage` moves an account's two accumulators to the current slot by adding nothing,
and `add_transaction_usage` adds a transaction's CPU and NET units to them and then checks, for an
account with a weight, that the usage over the window, rounded down, stays within the account's
share of the virtual capacity. `get_account_cpu_limit_ex` and `get_account_net_limit_ex` report
the same share minus the usage rounded up, as the units still `available`; the transaction context
bounds billing by that figure.

The check and the report agree: after `update_account_usage` at a slot, a charge of `x > 0` units
within the reported availability passes the check of its own resource
(`admission_within_available`). At `x = 0` they do not: an account pushed over its share by a
change of weights reports nothing available, and a charge of nothing fails its check
(`admission_at_zero_over_share`).
-/

namespace InfraBlockchain.Resource

open IndexedTable

/-! ## The functions -/

/-- The lookup `by_owner` of a usage row. -/
def usageByOwner (owner : Name) (r : ResourceUsageObject) : Bool := r.owner == owner

/-- `_db.get<resource_usage_object, by_owner>(account)`. -/
def getUsage (s : ResourceLimitsState) (account : Name) : Except Exception ResourceUsageObject :=
  liftDb .unknown_key "unknown key" (s.usage.find? (usageByOwner account))

/-- The lambda that `update_account_usage` and `add_transaction_usage` pass to `_db.modify`: the
NET units added to the NET accumulator, then the CPU units to the CPU one, each over its window. -/
def addUsage (config : ResourceLimitsConfig) (net_units cpu_units : UInt64) (time_slot : UInt32)
    (bu : ResourceUsageObject) : Except Exception ResourceUsageObject := do
  let net_usage ← bu.net_usage.add net_units time_slot config.account_net_usage_average_window
  let cpu_usage ← bu.cpu_usage.add cpu_units time_slot config.account_cpu_usage_average_window
  pure { bu with net_usage, cpu_usage }

/-- `_db.modify(usage, ...)` with that lambda: the state with the row replaced, and the row as the
reference `usage` reads it afterwards. -/
def modifyUsage (s : ResourceLimitsState) (usage : ResourceUsageObject)
    (net_units cpu_units : UInt64) (time_slot : UInt32) :
    Except Exception (ResourceLimitsState × ResourceUsageObject) := do
  let bu ← addUsage s.config net_units cpu_units time_slot usage
  let table ← liftDb .unique_index_violation "could not modify object"
    (s.usage.modify (usageByOwner usage.owner) fun _ => bu)
  pure ({ s with usage := table }, bu)

/-- `resource_limits_manager::get_account_limits`: the RAM bytes, NET weight and CPU weight of the
account's pending row, else of its row in force. -/
def getAccountLimits (s : ResourceLimitsState) (account : Name) :
    Except Exception (Int64 × Int64 × Int64) :=
  match s.limits.find? (byOwner true account) with
  | some pending_buo =>
    .ok (pending_buo.ram_bytes, pending_buo.net_weight, pending_buo.cpu_weight)
  | none => do
    let buo ← liftDb .unknown_key "unknown key" (s.limits.find? (byOwner false account))
    pure (buo.ram_bytes, buo.net_weight, buo.cpu_weight)

/-- The loop body of `resource_limits_manager::update_account_usage`: nothing added, so that both
accumulators move to `time_slot`. -/
def updateAccountUsageStep (time_slot : UInt32) (s : ResourceLimitsState) (a : Name) :
    Except Exception ResourceLimitsState := do
  let usage ← getUsage s a
  let r ← modifyUsage s usage 0 0 time_slot
  pure r.1

/-- `resource_limits_manager::update_account_usage`, over the accounts in the order of the set. -/
def updateAccountUsage (s : ResourceLimitsState) (accounts : List Name) (time_slot : UInt32) :
    Except Exception ResourceLimitsState :=
  accounts.foldlM (updateAccountUsageStep time_slot) s

/-- `max_user_use_in_window`: the capacity over the window shared out by weight. The product is
a `uint128_t`; the capacity times the window fits in it, and the product with the weight can
wrap. -/
def maxUserUseInWindow (capacity window_size user_weight all_user_weight : Nat) : Nat :=
  capacity * window_size * user_weight % 2 ^ 128 / all_user_weight

/-- One admission check of `add_transaction_usage`: for an account with a weight, when any weight
is staked, the usage over the window rounded down within the account's share. -/
def checkUsageInWindow (weight : Int64) (total_weight virtual_limit : UInt64)
    (window_size : UInt32) (value_ex : UInt64) (kind : ExceptionKind) (message : String) :
    Except Exception Unit :=
  if weight ≥ 0 ∧ total_weight > 0 then
    let used_in_window := value_ex.toNat * window_size.toNat / rateLimitingPrecision
    let max_user_use_in_window :=
      maxUserUseInWindow virtual_limit.toNat window_size.toNat weight.toInt.toNat total_weight.toNat
    eosAssert (used_in_window ≤ max_user_use_in_window) kind message
  else pure ()

/-- The CPU check and then the NET check of `add_transaction_usage`, for an account with the
weights `net_weight` and `cpu_weight` whose row now reads `usage`. -/
def checkAccountUsage (s : ResourceLimitsState) (net_weight cpu_weight : Int64)
    (usage : ResourceUsageObject) : Except Exception Unit := do
  checkUsageInWindow cpu_weight s.total_cpu_weight s.virtual_cpu_limit
    s.config.account_cpu_usage_average_window usage.cpu_usage.value_ex .tx_cpu_usage_exceeded
    "authorizing account \x27${n}\x27 has insufficient cpu resources for this transaction"
  checkUsageInWindow net_weight s.total_net_weight s.virtual_net_limit
    s.config.account_net_usage_average_window usage.net_usage.value_ex .tx_net_usage_exceeded
    "authorizing account \x27${n}\x27 has insufficient net resources for this transaction"

/-- One iteration of the loop of `add_transaction_usage`: the units added to the account's row,
then its checks. The checks read the state and configuration objects, which the loop does not
change. -/
def addAccountUsage (cpu_usage net_usage : UInt64) (time_slot : UInt32) (s : ResourceLimitsState)
    (a : Name) : Except Exception ResourceLimitsState := do
  let usage ← getUsage s a
  let limits ← getAccountLimits s a
  let r ← modifyUsage s usage net_usage cpu_usage time_slot
  checkAccountUsage s limits.2.1 limits.2.2 r.2
  pure r.1

/-- `resource_limits_manager::add_transaction_usage`: every account charged and checked, then the
units added to the block's pending usage, in 64 bits, which must stay within the block's
maximum. -/
def addTransactionUsage (s : ResourceLimitsState) (accounts : List Name)
    (cpu_usage net_usage : UInt64) (time_slot : UInt32) : Except Exception ResourceLimitsState := do
  let s ← accounts.foldlM (addAccountUsage cpu_usage net_usage time_slot) s
  let s := { s with
    pending_cpu_usage := s.pending_cpu_usage + cpu_usage
    pending_net_usage := s.pending_net_usage + net_usage }
  eosAssert (s.pending_cpu_usage ≤ s.config.cpu_limit_parameters.max) .block_resource_exhausted
    "Block has insufficient cpu resources"
  eosAssert (s.pending_net_usage ≤ s.config.net_limit_parameters.max) .block_resource_exhausted
    "Block has insufficient net resources"
  pure s

/-- `account_resource_limit`. -/
structure AccountResourceLimit where
  /-- `used`. -/
  used : Int64
  /-- `available`. -/
  available : Int64
  /-- `max`. -/
  max : Int64
  deriving DecidableEq, Repr

/-- `config::maximum_elastic_resource_multiplier`. -/
def maximumElasticResourceMultiplier : UInt32 := 1000

/-- The largest `int64_t`, the target of `downgrade_cast<int64_t>`. -/
def int64Max : Nat := 2 ^ 63 - 1

/-- The virtual limit that an account sees, and whether it is greylisted: below the largest
multiplier, the block maximum times the multiplier when that is lower than the virtual limit. -/
def virtualCapacity (greylist_limit : UInt32) (limit_max virtual_limit : UInt64) : UInt64 × Bool :=
  if greylist_limit < maximumElasticResourceMultiplier then
    let greylisted_virtual_limit := limit_max * greylist_limit.toUInt64
    if greylisted_virtual_limit < virtual_limit then (greylisted_virtual_limit, true)
    else (virtual_limit, false)
  else (virtual_limit, false)

/-- The body that `get_account_cpu_limit_ex` and `get_account_net_limit_ex` share once they have
read the account's weight and usage: `-1` everywhere for an account without a weight or when no
weight is staked, else the share of the capacity over the window, the usage rounded up, and what
is left of the share, each cast to `int64_t`. -/
def accountLimitEx (greylist_limit : UInt32) (weight : Int64)
    (total_weight limit_max virtual_limit : UInt64) (window_size : UInt32) (value_ex : UInt64) :
    Except Exception (AccountResourceLimit × Bool) :=
  if weight < 0 ∨ total_weight = 0 then .ok (⟨-1, -1, -1⟩, false)
  else do
    let capacity := virtualCapacity greylist_limit limit_max virtual_limit
    let max_user_use_in_window :=
      maxUserUseInWindow capacity.1.toNat window_size.toNat weight.toInt.toNat total_weight.toNat
    let used_in_window :=
      integerDivideCeil (value_ex.toNat * window_size.toNat) rateLimitingPrecision
    let available ← (if max_user_use_in_window ≤ used_in_window then pure 0
      else downgradeCast int64Max (max_user_use_in_window - used_in_window))
    let used ← downgradeCast int64Max used_in_window
    let max ← downgradeCast int64Max max_user_use_in_window
    pure (⟨Int64.ofNat used, Int64.ofNat available, Int64.ofNat max⟩, capacity.2)

/-- `resource_limits_manager::get_account_cpu_limit_ex`. -/
def getAccountCpuLimitEx (s : ResourceLimitsState) (name : Name) (greylist_limit : UInt32) :
    Except Exception (AccountResourceLimit × Bool) := do
  let usage ← getUsage s name
  let limits ← getAccountLimits s name
  accountLimitEx greylist_limit limits.2.2 s.total_cpu_weight s.config.cpu_limit_parameters.max
    s.virtual_cpu_limit s.config.account_cpu_usage_average_window usage.cpu_usage.value_ex

/-- `resource_limits_manager::get_account_net_limit_ex`. -/
def getAccountNetLimitEx (s : ResourceLimitsState) (name : Name) (greylist_limit : UInt32) :
    Except Exception (AccountResourceLimit × Bool) := do
  let usage ← getUsage s name
  let limits ← getAccountLimits s name
  accountLimitEx greylist_limit limits.2.1 s.total_net_weight s.config.net_limit_parameters.max
    s.virtual_net_limit s.config.account_net_usage_average_window usage.net_usage.value_ex

/-! ## Reading and writing a usage row -/

/-- The lookup `by_owner` of a usage row is by a unique key. -/
theorem usageByOwner_unique (owner : Name) :
    UniqueKey ResourceUsageObject.clash (usageByOwner owner) := by
  intro a b ha hb
  simp only [usageByOwner, beq_iff_eq] at ha hb
  exact ha.trans hb.symm

/-- The lambda keeps the row's owner and leaves both accumulators at the slot. -/
theorem addUsage_slot {config : ResourceLimitsConfig} {net_units cpu_units : UInt64}
    {time_slot : UInt32} {bu bu' : ResourceUsageObject}
    (h : addUsage config net_units cpu_units time_slot bu = .ok bu') :
    bu'.owner = bu.owner ∧ bu'.net_usage.last_ordinal = time_slot ∧
      bu'.cpu_usage.last_ordinal = time_slot := by
  unfold addUsage at h
  obtain ⟨net_usage, hnet, h⟩ := bind_eq_ok.1 h
  obtain ⟨cpu_usage, hcpu, h⟩ := bind_eq_ok.1 h
  cases h
  exact ⟨rfl, UsageAccumulator.add_last_ordinal hnet, UsageAccumulator.add_last_ordinal hcpu⟩

/-- Within the slot that both accumulators last saw, the lambda adds the rounded-up shares of the
units over the windows. -/
theorem addUsage_same_slot {config : ResourceLimitsConfig} {net_units cpu_units : UInt64}
    {time_slot : UInt32} {bu bu' : ResourceUsageObject}
    (hnet_slot : bu.net_usage.last_ordinal = time_slot)
    (hcpu_slot : bu.cpu_usage.last_ordinal = time_slot)
    (h : addUsage config net_units cpu_units time_slot bu = .ok bu') :
    bu'.net_usage.value_ex.toNat = bu.net_usage.value_ex.toNat +
        integerDivideCeil (net_units.toNat * rateLimitingPrecision)
          config.account_net_usage_average_window.toNat ∧
      bu'.cpu_usage.value_ex.toNat = bu.cpu_usage.value_ex.toNat +
        integerDivideCeil (cpu_units.toNat * rateLimitingPrecision)
          config.account_cpu_usage_average_window.toNat := by
  unfold addUsage at h
  obtain ⟨net_usage, hnet, h⟩ := bind_eq_ok.1 h
  obtain ⟨cpu_usage, hcpu, h⟩ := bind_eq_ok.1 h
  cases h
  exact ⟨(UsageAccumulator.add_same_ordinal hnet_slot hnet).1,
    (UsageAccumulator.add_same_ordinal hcpu_slot hcpu).1⟩

/-- The row that `_db.modify` writes is the image of the row read, and the lookup of the account
then finds it. -/
theorem modifyUsage_spec {s s' : ResourceLimitsState} {usage bu : ResourceUsageObject} {a : Name}
    {net_units cpu_units : UInt64} {time_slot : UInt32} (hget : getUsage s a = .ok usage)
    (h : modifyUsage s usage net_units cpu_units time_slot = .ok (s', bu)) :
    addUsage s.config net_units cpu_units time_slot usage = .ok bu ∧ getUsage s' a = .ok bu := by
  unfold modifyUsage at h
  obtain ⟨bu', hbu, h⟩ := bind_eq_ok.1 h
  obtain ⟨table, htable, h⟩ := bind_eq_ok.1 h
  cases h
  have hfind := liftDb_eq_ok.1 hget
  -- the row read is the account's, and the image keeps its owner
  have howner : usage.owner = a := by
    have hsel := List.find?_some (show s.usage.rows.find? (usageByOwner a) = some usage from hfind)
    simpa [usageByOwner] using hsel
  subst howner
  have hsel : usageByOwner usage.owner bu = true := by
    simp [usageByOwner, (addUsage_slot hbu).1]
  exact ⟨hbu, liftDb_eq_ok.2
    (find?_of_modify (usageByOwner_unique _) hfind (liftDb_eq_ok.1 htable) hsel)⟩

/-- `_db.modify` of a usage row changes the usage rows only. -/
theorem modifyUsage_frame {s s' : ResourceLimitsState} {usage bu : ResourceUsageObject}
    {net_units cpu_units : UInt64} {time_slot : UInt32}
    (h : modifyUsage s usage net_units cpu_units time_slot = .ok (s', bu)) :
    s' = { s with usage := s'.usage } := by
  unfold modifyUsage at h
  obtain ⟨bu', -, h⟩ := bind_eq_ok.1 h
  obtain ⟨table, -, h⟩ := bind_eq_ok.1 h
  cases h
  rfl

/-- `update_account_usage` leaves the configuration as it is. -/
theorem updateAccountUsage_config {s₀ s : ResourceLimitsState} {accounts : List Name}
    {time_slot : UInt32} (h : updateAccountUsage s₀ accounts time_slot = .ok s) :
    s.config = s₀.config := by
  unfold updateAccountUsage at h
  induction accounts generalizing s₀ with
  | nil =>
    cases h
    rfl
  | cons a rest ih =>
    rw [List.foldlM_cons] at h
    obtain ⟨s', hstep, h⟩ := bind_eq_ok.1 h
    rw [ih h]
    unfold updateAccountUsageStep at hstep
    obtain ⟨usage, -, hstep⟩ := bind_eq_ok.1 hstep
    obtain ⟨⟨s'', bu⟩, hmod, hstep⟩ := bind_eq_ok.1 hstep
    cases hstep
    rw [modifyUsage_frame hmod]

/-- After `update_account_usage` of one account, its row has both accumulators at the slot. -/
theorem updateAccountUsage_singleton {s₀ s : ResourceLimitsState} {a : Name} {time_slot : UInt32}
    (h : updateAccountUsage s₀ [a] time_slot = .ok s) :
    ∃ u, getUsage s a = .ok u ∧ u.net_usage.last_ordinal = time_slot ∧
      u.cpu_usage.last_ordinal = time_slot := by
  unfold updateAccountUsage at h
  simp only [List.foldlM_cons, List.foldlM_nil, bind_pure] at h
  unfold updateAccountUsageStep at h
  obtain ⟨usage, hget, h⟩ := bind_eq_ok.1 h
  obtain ⟨⟨s', bu⟩, hmod, h⟩ := bind_eq_ok.1 h
  cases h
  obtain ⟨hbu, hget'⟩ := modifyUsage_spec hget hmod
  obtain ⟨-, hnet, hcpu⟩ := addUsage_slot hbu
  exact ⟨bu, hget', hnet, hcpu⟩

/-- The charge of one account changes the usage rows only. -/
theorem addAccountUsage_frame {cpu_usage net_usage : UInt64} {time_slot : UInt32}
    {s s' : ResourceLimitsState} {a : Name}
    (h : addAccountUsage cpu_usage net_usage time_slot s a = .ok s') :
    s' = { s with usage := s'.usage } := by
  unfold addAccountUsage at h
  obtain ⟨usage, -, h⟩ := bind_eq_ok.1 h
  obtain ⟨limits, -, h⟩ := bind_eq_ok.1 h
  obtain ⟨⟨s'', bu⟩, hmod, h⟩ := bind_eq_ok.1 h
  obtain ⟨_, -, h⟩ := bind_eq_ok.1 h
  cases h
  exact modifyUsage_frame hmod

/-- `add_transaction_usage` changes the usage rows and the pending usage only, and leaves the
pending usage within the largest usage of a block. -/
theorem addTransactionUsage_frame {s s' : ResourceLimitsState} {accounts : List Name}
    {cpu_usage net_usage : UInt64} {time_slot : UInt32}
    (h : addTransactionUsage s accounts cpu_usage net_usage time_slot = .ok s') :
    s' = { s with
      usage := s'.usage, pending_cpu_usage := s'.pending_cpu_usage,
      pending_net_usage := s'.pending_net_usage } ∧
    s'.pending_cpu_usage ≤ s.config.cpu_limit_parameters.max ∧
    s'.pending_net_usage ≤ s.config.net_limit_parameters.max := by
  -- the charges of the accounts, by induction over them
  have hcharges : ∀ (accounts : List Name) {s₀ s₁ : ResourceLimitsState},
      accounts.foldlM (addAccountUsage cpu_usage net_usage time_slot) s₀ = .ok s₁ →
        s₁ = { s₀ with usage := s₁.usage } := by
    intro accounts
    induction accounts with
    | nil =>
      intro s₀ s₁ h
      cases h
      rfl
    | cons a rest ih =>
      intro s₀ s₁ h
      rw [List.foldlM_cons] at h
      obtain ⟨s₂, hstep, h⟩ := bind_eq_ok.1 h
      rw [ih h, addAccountUsage_frame hstep]
  unfold addTransactionUsage at h
  obtain ⟨s₁, hfold, h⟩ := bind_eq_ok.1 h
  obtain ⟨_, hcpu, h⟩ := bind_eq_ok.1 h
  obtain ⟨_, hnet, h⟩ := bind_eq_ok.1 h
  cases h
  have hs₁ := hcharges accounts hfold
  have hconfig : s₁.config = s.config := by rw [hs₁]
  refine ⟨by rw [hs₁], ?_, ?_⟩
  · rw [← hconfig]
    exact of_decide_eq_true (eosAssert_eq_ok.1 hcpu)
  · rw [← hconfig]
    exact of_decide_eq_true (eosAssert_eq_ok.1 hnet)

/-! ## Which exceptions the calls raise -/

section Raises

variable {k : ExceptionKind}

/-- `get_account_limits` raises only on a missing key. -/
theorem getAccountLimits_raisesNo (hk : k ≠ .unknown_key) (s : ResourceLimitsState)
    (account : Name) : RaisesNo k (getAccountLimits s account) := by
  unfold getAccountLimits
  split
  · exact RaisesNo.ok _
  · exact RaisesNo.bind (RaisesNo.liftDb hk.symm _ _) fun _ _ => RaisesNo.ok _

/-- Updating usage raises only an inconsistent state, a resource limit or a unique index violation.
-/
theorem modifyUsage_raisesNo (hk₁ : k ≠ .rate_limiting_state_inconsistent)
    (hk₂ : k ≠ .resource_limit_exception) (hk₃ : k ≠ .unique_index_violation)
    (s : ResourceLimitsState) (usage : ResourceUsageObject) (net_units cpu_units : UInt64)
    (time_slot : UInt32) : RaisesNo k (modifyUsage s usage net_units cpu_units time_slot) := by
  have hadd : RaisesNo k (addUsage s.config net_units cpu_units time_slot usage) :=
    RaisesNo.bind (UsageAccumulator.add_raisesNo hk₁ hk₂ _ _ _ _) fun _ _ =>
      RaisesNo.bind (UsageAccumulator.add_raisesNo hk₁ hk₂ _ _ _ _) fun _ _ => RaisesNo.ok _
  exact RaisesNo.bind hadd fun _ _ =>
    RaisesNo.bind (RaisesNo.liftDb hk₃.symm _ _) fun _ _ => RaisesNo.ok _

/-- The window check raises only its own kind. -/
theorem checkUsageInWindow_raisesNo {kind : ExceptionKind} (hk : kind ≠ k) (weight : Int64)
    (total_weight virtual_limit : UInt64) (window_size : UInt32) (value_ex : UInt64)
    (message : String) :
    RaisesNo k (checkUsageInWindow weight total_weight virtual_limit window_size value_ex kind
      message) := by
  unfold checkUsageInWindow
  split
  · exact RaisesNo.eosAssert_of_ne hk _ _
  · exact RaisesNo.ok _

/-- A charge of one account raises none of the checks' kinds but through its checks, on the row
found moved by the lambda: the lookups, the accumulators and the block's limits raise their own. -/
theorem addTransactionUsage_single_raisesNo (hk₁ : k ≠ .unknown_key)
    (hk₂ : k ≠ .rate_limiting_state_inconsistent) (hk₃ : k ≠ .resource_limit_exception)
    (hk₄ : k ≠ .unique_index_violation) (hk₅ : k ≠ .block_resource_exhausted)
    {s : ResourceLimitsState} {a : Name} {u : ResourceUsageObject} {cpu_usage net_usage : UInt64}
    {time_slot : UInt32} (hu : getUsage s a = .ok u)
    (hchecks : ∀ limits bu, getAccountLimits s a = .ok limits →
      addUsage s.config net_usage cpu_usage time_slot u = .ok bu →
      RaisesNo k (checkAccountUsage s limits.2.1 limits.2.2 bu)) :
    RaisesNo k (addTransactionUsage s [a] cpu_usage net_usage time_slot) := by
  have hstep : RaisesNo k (addAccountUsage cpu_usage net_usage time_slot s a) := by
    refine RaisesNo.bind (RaisesNo.liftDb hk₁.symm _ _) fun usage husage => ?_
    obtain rfl : u = usage := Except.ok.inj (hu.symm.trans husage)
    refine RaisesNo.bind (getAccountLimits_raisesNo hk₁ _ _) fun limits hlimits => ?_
    refine RaisesNo.bind (modifyUsage_raisesNo hk₂ hk₃ hk₄ _ _ _ _ _) fun r hr => ?_
    have hbu := (modifyUsage_spec hu hr).1
    exact RaisesNo.bind (hchecks limits r.2 hlimits hbu) fun _ _ => RaisesNo.ok _
  unfold addTransactionUsage
  simp only [List.foldlM_cons, List.foldlM_nil, bind_pure]
  refine RaisesNo.bind hstep fun _ _ => ?_
  exact RaisesNo.bind (RaisesNo.eosAssert_of_ne hk₅.symm _ _) fun _ _ =>
    RaisesNo.bind (RaisesNo.eosAssert_of_ne hk₅.symm _ _) fun _ _ => RaisesNo.ok _

end Raises

/-! ## The reported availability and the check -/

/-- With the largest multiplier no account is greylisted. -/
@[simp] theorem virtualCapacity_maximum (limit_max virtual_limit : UInt64) :
    virtualCapacity maximumElasticResourceMultiplier limit_max virtual_limit =
      (virtual_limit, false) := by
  simp [virtualCapacity]

/-- What `accountLimitEx` reports available with the largest multiplier: `-1` without a weight or
a staked total, else the share over the window less the usage rounded up, and `0` past the share. -/
theorem accountLimitEx_available {weight : Int64} {total_weight limit_max virtual_limit : UInt64}
    {window_size : UInt32} {value_ex : UInt64} {arl : AccountResourceLimit} {greylisted : Bool}
    (h : accountLimitEx maximumElasticResourceMultiplier weight total_weight limit_max virtual_limit
      window_size value_ex = .ok (arl, greylisted)) :
    arl.available.toInt = if weight < 0 ∨ total_weight = 0 then -1 else
      ((maxUserUseInWindow virtual_limit.toNat window_size.toNat weight.toInt.toNat
          total_weight.toNat -
        integerDivideCeil (value_ex.toNat * window_size.toNat) rateLimitingPrecision : Nat) : Int) := by
  unfold accountLimitEx at h
  split at h
  case isTrue hw =>
    cases h
    rw [if_pos hw]
    decide
  case isFalse hw =>
    rw [if_neg hw]
    simp only [virtualCapacity_maximum] at h
    obtain ⟨available, havailable, h⟩ := bind_eq_ok.1 h
    obtain ⟨used, -, h⟩ := bind_eq_ok.1 h
    obtain ⟨max, -, h⟩ := bind_eq_ok.1 h
    cases h
    split at havailable
    case isTrue hle =>
      cases havailable
      rw [Nat.sub_eq_zero_of_le hle]
      exact Int64.toInt_ofNat_of_lt (by decide)
    case isFalse hlt =>
      obtain ⟨hfit, rfl⟩ := downgradeCast_eq_ok.1 havailable
      exact Int64.toInt_ofNat_of_lt (by unfold int64Max at hfit; omega)

/-- A charge of `units > 0` within what `accountLimitEx` reports available, added within the slot
that the accumulator last saw, passes the check of the usage it leaves, when the window is no
longer than the precision. -/
theorem checkUsageInWindow_of_available {weight : Int64}
    {total_weight limit_max virtual_limit : UInt64} {window_size : UInt32}
    {value_ex value_ex' units : UInt64} {arl : AccountResourceLimit} {greylisted : Bool}
    {kind : ExceptionKind} {message : String}
    (hW : window_size.toNat ≤ rateLimitingPrecision)
    (hlimit : accountLimitEx maximumElasticResourceMultiplier weight total_weight limit_max
      virtual_limit window_size value_ex = .ok (arl, greylisted))
    (hpos : 0 < units) (hunits : (units.toNat : Int) ≤ arl.available.toInt)
    (hvalue : value_ex'.toNat = value_ex.toNat +
      integerDivideCeil (units.toNat * rateLimitingPrecision) window_size.toNat) :
    checkUsageInWindow weight total_weight virtual_limit window_size value_ex' kind message =
      .ok () := by
  have havailable := accountLimitEx_available hlimit
  by_cases hw : weight < 0 ∨ total_weight = 0
  · -- no weight: nothing is available, and no positive charge is within it
    rw [if_pos hw] at havailable
    omega
  · rw [if_neg hw] at havailable
    have hroom : units.toNat ≤
        maxUserUseInWindow virtual_limit.toNat window_size.toNat weight.toInt.toNat
          total_weight.toNat -
        integerDivideCeil (value_ex.toNat * window_size.toNat) rateLimitingPrecision := by
      omega
    have hpos' : 0 < units.toNat := UInt64.lt_iff_toNat_lt.1 hpos
    unfold checkUsageInWindow
    split
    · refine eosAssert_eq_ok.2 (decide_eq_true ?_)
      rw [hvalue]
      exact add_ceil_mul_div_le (by decide) hW hpos' hroom
    · rfl

/-! ## Admission within the reported availability -/

/-- After `update_account_usage` of an account at a slot, a transaction that charges the account
`x > 0` units of CPU within what `get_account_cpu_limit_ex` reports available, with the largest
multiplier, passes the CPU check of `add_transaction_usage`; and likewise for NET. The windows are
no longer than the precision, as the configured day of slots is. -/
theorem admission_within_available {s₀ s : ResourceLimitsState} {a : Name} {o : UInt32}
    (hupd : updateAccountUsage s₀ [a] o = .ok s)
    (hcpu_window : s.config.account_cpu_usage_average_window.toNat ≤ rateLimitingPrecision)
    (hnet_window : s.config.account_net_usage_average_window.toNat ≤ rateLimitingPrecision) :
    (∀ arl greylisted (x : UInt64),
        getAccountCpuLimitEx s a maximumElasticResourceMultiplier = .ok (arl, greylisted) →
        0 < x → (x.toNat : Int) ≤ arl.available.toInt →
        RaisesNo .tx_cpu_usage_exceeded (addTransactionUsage s [a] x 0 o)) ∧
      ∀ arl greylisted (y : UInt64),
        getAccountNetLimitEx s a maximumElasticResourceMultiplier = .ok (arl, greylisted) →
        0 < y → (y.toNat : Int) ≤ arl.available.toInt →
        RaisesNo .tx_net_usage_exceeded (addTransactionUsage s [a] 0 y o) := by
  -- the row that `update_account_usage` left at the slot, which both functions read
  obtain ⟨u, hu, hnet_slot, hcpu_slot⟩ := updateAccountUsage_singleton hupd
  constructor
  · intro arl greylisted x hlimit hpos hx
    unfold getAccountCpuLimitEx at hlimit
    obtain ⟨usage, husage, hlimit⟩ := bind_eq_ok.1 hlimit
    obtain ⟨limits, hlimits, hlimit⟩ := bind_eq_ok.1 hlimit
    obtain rfl : usage = u := Except.ok.inj (husage.symm.trans hu)
    refine addTransactionUsage_single_raisesNo (by decide) (by decide) (by decide) (by decide)
      (by decide) hu fun limits' bu hlimits' hbu => ?_
    obtain rfl : limits' = limits := Except.ok.inj (hlimits'.symm.trans hlimits)
    have hvalue := (addUsage_same_slot hnet_slot hcpu_slot hbu).2
    unfold checkAccountUsage
    refine RaisesNo.bind ?_ fun _ _ => checkUsageInWindow_raisesNo (by decide) _ _ _ _ _ _
    rw [checkUsageInWindow_of_available hcpu_window hlimit hpos hx hvalue]
    exact RaisesNo.ok ()
  · intro arl greylisted y hlimit hpos hy
    unfold getAccountNetLimitEx at hlimit
    obtain ⟨usage, husage, hlimit⟩ := bind_eq_ok.1 hlimit
    obtain ⟨limits, hlimits, hlimit⟩ := bind_eq_ok.1 hlimit
    obtain rfl : usage = u := Except.ok.inj (husage.symm.trans hu)
    refine addTransactionUsage_single_raisesNo (by decide) (by decide) (by decide) (by decide)
      (by decide) hu fun limits' bu hlimits' hbu => ?_
    obtain rfl : limits' = limits := Except.ok.inj (hlimits'.symm.trans hlimits)
    have hvalue := (addUsage_same_slot hnet_slot hcpu_slot hbu).1
    unfold checkAccountUsage
    refine RaisesNo.bind (checkUsageInWindow_raisesNo (by decide) _ _ _ _ _ _) fun _ _ => ?_
    rw [checkUsageInWindow_of_available hnet_window hlimit hpos hy hvalue]
    exact RaisesNo.ok ()

/-- Account `1` with a NET and a CPU weight of `1`, the only ones staked, after
`update_account_usage` in slot `1`. -/
theorem admission_within_available_staked :
    ∃ s, updateAccountUsage (Machine.run resourceStep ResourceLimitsState.init
        [.initialize_account ⟨1⟩, .set_account_limits ⟨1⟩ (-1) 1 1,
          .process_account_limit_updates]) [⟨1⟩] 1 = .ok s ∧
      s.config.account_cpu_usage_average_window.toNat ≤ rateLimitingPrecision ∧
      s.config.account_net_usage_average_window.toNat ≤ rateLimitingPrecision ∧
      (∀ arl greylisted (x : UInt64),
        getAccountCpuLimitEx s ⟨1⟩ maximumElasticResourceMultiplier = .ok (arl, greylisted) →
        0 < x → (x.toNat : Int) ≤ arl.available.toInt →
        RaisesNo .tx_cpu_usage_exceeded (addTransactionUsage s [⟨1⟩] x 0 1)) ∧
      ∀ arl greylisted (y : UInt64),
        getAccountNetLimitEx s ⟨1⟩ maximumElasticResourceMultiplier = .ok (arl, greylisted) →
        0 < y → (y.toNat : Int) ≤ arl.available.toInt →
        RaisesNo .tx_net_usage_exceeded (addTransactionUsage s [⟨1⟩] 0 y 1) := by
  obtain ⟨s, hupd⟩ : ∃ s, updateAccountUsage (Machine.run resourceStep ResourceLimitsState.init
      [.initialize_account ⟨1⟩, .set_account_limits ⟨1⟩ (-1) 1 1,
        .process_account_limit_updates]) [⟨1⟩] 1 = .ok s := ⟨_, rfl⟩
  have hconfig : s.config = {} := (updateAccountUsage_config hupd).trans (by decide)
  have hcpu_window : s.config.account_cpu_usage_average_window.toNat ≤ rateLimitingPrecision := by
    rw [hconfig]
    decide
  have hnet_window : s.config.account_net_usage_average_window.toNat ≤ rateLimitingPrecision := by
    rw [hconfig]
    decide
  exact ⟨s, hupd, hcpu_window, hnet_window,
    admission_within_available hupd hcpu_window hnet_window⟩

/-- Account `1` with a CPU weight of `1` against `999999` uses `30000` units in slot `1`, within
its share of `34560`; a weight of `9999999` for account `2` then shrinks the share to `3456`.
After `update_account_usage` in the same slot, `get_account_cpu_limit_ex` reports nothing
available, and a transaction that charges the account nothing fails the CPU check. -/
theorem admission_at_zero_over_share :
    let s₁ := Machine.run resourceStep ResourceLimitsState.init
      [.initialize_account ⟨1⟩, .initialize_account ⟨2⟩, .set_account_limits ⟨1⟩ (-1) (-1) 1,
        .set_account_limits ⟨2⟩ (-1) (-1) 999999, .process_account_limit_updates]
    let s := do
      let s₂ ← addTransactionUsage s₁ [⟨1⟩] 30000 0 1
      updateAccountUsage (Machine.run resourceStep s₂
        [.set_account_limits ⟨2⟩ (-1) (-1) 9999999, .process_account_limit_updates]) [⟨1⟩] 1
    (s >>= fun s => getAccountCpuLimitEx s ⟨1⟩ maximumElasticResourceMultiplier) =
        .ok (⟨30001, 0, 3456⟩, false) ∧
      (s >>= fun s => addTransactionUsage s [⟨1⟩] 0 0 1) =
        .error ⟨.tx_cpu_usage_exceeded,
          "authorizing account \x27${n}\x27 has insufficient cpu resources for this transaction"⟩ := by
  decide

end InfraBlockchain.Resource
