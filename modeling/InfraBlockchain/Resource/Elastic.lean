import Mathlib
import InfraBlockchain.Lib.Machine
import InfraBlockchain.Resource.Usage

/-!
# Elastic block limits

At the end of each block `resource_limits_manager::process_block_usage` (`resource_limits.cpp`)
adds the block's pending CPU usage to `average_block_cpu_usage`, an accumulator over
`cpu_limit_parameters.periods` blocks, moves the virtual CPU limit by `update_elastic_limit` and
clears the pending usage; then the same for NET. `update_elastic_limit` multiplies the limit by
`contract_rate` when the average passes `target` and by `expand_rate` otherwise, and holds it
between `max` and `max * max_multiplier`. The multiplications are checked, by the ratio's
`operator*` and by the accumulator's own checks, and a failed check raises
`rate_limiting_state_inconsistent`, which fails the block.

`elastic_limit_parameters::validate` rules out only a zero window and zero denominators. It accepts
parameters under which a congested average passes 64 bits: with one period and `max` at
`max_raw_value`, the second full block overflows the accumulator (`process_block_usage_overflow`).
The average stays within `periods` of the largest contributions of a block
(`UsageAccumulator.Within`), so no check fails when `periods + 1` windows of them fit in 64 bits,
besides the bounds that the rates need (`ElasticLimitParameters.Bounded`). From every state of the
invariant `BlockUsageInv`, a run of transactions and of blocks of increasing numbers closes every
block, and leaves both virtual limits between `max` and `max * max_multiplier`.
-/

namespace InfraBlockchain.Resource

/-- `elastic_limit_parameters::validate`: a window of at least one block and ratios with a
denominator. -/
def ElasticLimitParameters.validate (p : ElasticLimitParameters) : Except Exception Unit := do
  eosAssert (p.periods > 0) .resource_limit_exception
    "elastic limit parameter \x27periods\x27 cannot be zero"
  eosAssert (p.contract_rate.denominator > 0) .resource_limit_exception
    "elastic limit parameter \x27contract_rate\x27 is not a well-defined ratio"
  eosAssert (p.expand_rate.denominator > 0) .resource_limit_exception
    "elastic limit parameter \x27expand_rate\x27 is not a well-defined ratio"

/-- `update_elastic_limit`: the limit times the contract rate when the average passes the target,
else times the expand rate, then held between `max` and `max * max_multiplier`, both in 64 bits. -/
def updateElasticLimit (current_limit average_usage : UInt64) (params : ElasticLimitParameters) :
    Except Exception UInt64 := do
  let result ← if average_usage > params.target then
      mulRatio current_limit params.contract_rate.numerator params.contract_rate.denominator
    else mulRatio current_limit params.expand_rate.numerator params.expand_rate.denominator
  pure (min (max result params.max) (params.max * params.max_multiplier.toUInt64))

/-- `resource_limits_state_object::update_virtual_cpu_limit`. -/
def ResourceLimitsState.updateVirtualCpuLimit (s : ResourceLimitsState) :
    Except Exception ResourceLimitsState := do
  let virtual_cpu_limit ← updateElasticLimit s.virtual_cpu_limit s.average_block_cpu_usage.average
    s.config.cpu_limit_parameters
  pure { s with virtual_cpu_limit }

/-- `resource_limits_state_object::update_virtual_net_limit`. -/
def ResourceLimitsState.updateVirtualNetLimit (s : ResourceLimitsState) :
    Except Exception ResourceLimitsState := do
  let virtual_net_limit ← updateElasticLimit s.virtual_net_limit s.average_block_net_usage.average
    s.config.net_limit_parameters
  pure { s with virtual_net_limit }

/-- `resource_limits_manager::process_block_usage`: the pending CPU usage added to its average over
the block's number, the virtual CPU limit moved and the pending usage cleared, then the same for
NET. -/
def processBlockUsage (s : ResourceLimitsState) (block_num : UInt32) :
    Except Exception ResourceLimitsState := do
  let average_block_cpu_usage ← s.average_block_cpu_usage.add s.pending_cpu_usage block_num
    s.config.cpu_limit_parameters.periods
  let s ← ({ s with average_block_cpu_usage } : ResourceLimitsState).updateVirtualCpuLimit
  let s := { s with pending_cpu_usage := 0 }
  let average_block_net_usage ← s.average_block_net_usage.add s.pending_net_usage block_num
    s.config.net_limit_parameters.periods
  let s ← ({ s with average_block_net_usage } : ResourceLimitsState).updateVirtualNetLimit
  pure { s with pending_net_usage := 0 }

/-- `resource_limits_manager::set_block_parameters`: both parameters validated, then written unless
both are in force already. -/
def setBlockParameters (s : ResourceLimitsState)
    (cpu_limit_parameters net_limit_parameters : ElasticLimitParameters) :
    Except Exception ResourceLimitsState := do
  cpu_limit_parameters.validate
  net_limit_parameters.validate
  if s.config.cpu_limit_parameters = cpu_limit_parameters ∧
      s.config.net_limit_parameters = net_limit_parameters then
    pure s
  else pure { s with config := { s.config with cpu_limit_parameters, net_limit_parameters } }

/-- The calls that a block's life makes on the resource state: a transaction charged, or the block
closed. -/
inductive BlockRequest where
  | add_transaction_usage (accounts : List Name) (cpu_usage net_usage : UInt64)
      (time_slot : UInt32)
  | process_block_usage (block_num : UInt32)

/-- One call. -/
def blockStep (s : ResourceLimitsState) : BlockRequest → Except Exception ResourceLimitsState
  | .add_transaction_usage accounts cpu_usage net_usage time_slot =>
    addTransactionUsage s accounts cpu_usage net_usage time_slot
  | .process_block_usage block_num => processBlockUsage s block_num

/-- The numbers of the blocks that the calls close, in order. -/
def blockNums : List BlockRequest → List UInt32
  | [] => []
  | .add_transaction_usage .. :: reqs => blockNums reqs
  | .process_block_usage block_num :: reqs => block_num :: blockNums reqs

/-! ## An accepted window that overflows

With one period each block's usage counts whole, premultiplied by the precision. At `max_raw_value`
that is within `2^64` once but not twice, and the accumulator checks the sum before it decays the
old value. -/

/-- Parameters that `validate` accepts and that meet the bounds on `max` and the rates: one period,
`max` at `max_raw_value`, no multiplier and rates of one. -/
def congestedParameters : ElasticLimitParameters :=
  ⟨0, 18446744073709, 1, 1, ⟨1, 1⟩, ⟨1, 1⟩⟩

/-- Parameters that `validate` and the rate bounds accept still let a second congested block raise:
its usage overflows the accumulated value. -/
theorem process_block_usage_overflow :
    congestedParameters.validate = .ok () ∧
    1 ≤ congestedParameters.max_multiplier.toNat ∧
    congestedParameters.max.toNat ≤ maxRawValue ∧
    congestedParameters.max.toNat * congestedParameters.max_multiplier.toNat *
      max congestedParameters.contract_rate.numerator.toNat
        congestedParameters.expand_rate.numerator.toNat < 2 ^ 64 ∧
    (do
      let s ← initializeAccount ResourceLimitsState.init ⟨1⟩
      let s ← setBlockParameters s congestedParameters congestedParameters
      let s ← addTransactionUsage s [⟨1⟩] 18446744073709 0 1
      let s ← processBlockUsage s 1
      let s ← addTransactionUsage s [⟨1⟩] 18446744073709 0 2
      processBlockUsage s 2) =
      .error ⟨.rate_limiting_state_inconsistent, "Overflow in accumulated value when adding usage!"⟩ := by
  refine ⟨by decide, by decide, by decide, by decide, by decide +kernel⟩

/-! ## Parameters under which no block fails -/

/-- What the parameters need for no block to raise: accepted by `validate`, a multiplier of at
least one, `max` within `max_raw_value` and the largest limit times either rate within 64 bits, and
two bounds more: the largest limit itself within 64 bits, and `periods + 1` windows of the largest
contributions of a block, `⌈max P / periods⌉` each, which `(max P + periods) (periods + 1)` bounds. -/
structure ElasticLimitParameters.Bounded (p : ElasticLimitParameters) : Prop where
  /-- Accepted by `validate`. -/
  validate_ok : p.validate = .ok ()
  /-- A multiplier of at least one. -/
  one_le_max_multiplier : 1 ≤ p.max_multiplier.toNat
  /-- `max` within `max_raw_value`. -/
  max_le : p.max.toNat ≤ maxRawValue
  /-- The largest limit times either rate within 64 bits. -/
  rates_fit : p.max.toNat * p.max_multiplier.toNat *
    Max.max p.contract_rate.numerator.toNat p.expand_rate.numerator.toNat < 2 ^ 64
  /-- The largest limit within 64 bits. -/
  limit_fits : p.max.toNat * p.max_multiplier.toNat < 2 ^ 64
  /-- `periods + 1` windows of the largest contributions within 64 bits. -/
  average_fits :
    (p.max.toNat * rateLimitingPrecision + p.periods.toNat) * (p.periods.toNat + 1) < 2 ^ 64

/-- Parameters that `validate` accepts average over at least one block. -/
theorem ElasticLimitParameters.periods_pos_of_validate {p : ElasticLimitParameters}
    (h : p.validate = .ok ()) : 0 < p.periods.toNat := by
  unfold ElasticLimitParameters.validate at h
  obtain ⟨_, hperiods, -⟩ := bind_eq_ok.1 h
  exact UInt32.lt_iff_toNat_lt.1 (of_decide_eq_true (eosAssert_eq_ok.1 hperiods))

/-- Under bounded parameters `periods + 1` windows of the largest contributions fit in 64 bits. -/
theorem ElasticLimitParameters.Bounded.window_fits {p : ElasticLimitParameters} (hp : p.Bounded) :
    p.periods.toNat * (p.periods.toNat + 1) * maxContribution p.max.toNat p.periods.toNat <
      2 ^ 64 := by
  have hwindow := integerDivideCeil_mul_lt (p.max.toNat * rateLimitingPrecision)
    (periods_pos_of_validate hp.validate_ok)
  calc p.periods.toNat * (p.periods.toNat + 1) * maxContribution p.max.toNat p.periods.toNat
      = maxContribution p.max.toNat p.periods.toNat * p.periods.toNat * (p.periods.toNat + 1) := by
        ring
    _ < (p.max.toNat * rateLimitingPrecision + p.periods.toNat) * (p.periods.toNat + 1) :=
        Nat.mul_lt_mul_of_pos_right hwindow (Nat.succ_pos _)
    _ < 2 ^ 64 := hp.average_fits

/-- Under bounded parameters a limit within `max * max_multiplier` moves without raising, whatever
the average, to a limit between `max` and `max * max_multiplier`: the clamp bounds it whatever the
rate gives. -/
theorem updateElasticLimit_of_bounded {p : ElasticLimitParameters} (hp : p.Bounded)
    {current_limit : UInt64}
    (hcurrent : current_limit.toNat ≤ p.max.toNat * p.max_multiplier.toNat)
    (average_usage : UInt64) :
    ∃ v, updateElasticLimit current_limit average_usage p = .ok v ∧ p.max ≤ v ∧
      v.toNat ≤ p.max.toNat * p.max_multiplier.toNat := by
  have hlimit : (p.max * p.max_multiplier.toUInt64).toNat = p.max.toNat * p.max_multiplier.toNat := by
    rw [UInt64.toNat_mul, UInt32.toNat_toUInt64, Nat.mod_eq_of_lt hp.limit_fits]
  have hmax_le : p.max.toNat ≤ p.max.toNat * p.max_multiplier.toNat :=
    Nat.le_mul_of_pos_right _ hp.one_le_max_multiplier
  -- the clamp, for any result of the rate
  have hclamp : ∀ result : UInt64,
      p.max ≤ min (max result p.max) (p.max * p.max_multiplier.toUInt64) ∧
        (min (max result p.max) (p.max * p.max_multiplier.toUInt64)).toNat ≤
          p.max.toNat * p.max_multiplier.toNat := by
    intro result
    have hmin := UInt64.toNat_min (max result p.max) (p.max * p.max_multiplier.toUInt64)
    have hmax := UInt64.toNat_max result p.max
    rw [hlimit, hmax] at hmin
    rw [UInt64.le_iff_toNat_le, hmin]
    omega
  -- either rate times the limit fits in 64 bits
  have hrate : ∀ numerator : UInt64,
      numerator.toNat ≤ max p.contract_rate.numerator.toNat p.expand_rate.numerator.toNat →
        current_limit.toNat * numerator.toNat < 2 ^ 64 := fun numerator hle =>
    lt_of_le_of_lt (Nat.mul_le_mul hcurrent hle) hp.rates_fit
  unfold updateElasticLimit
  split
  · rw [mulRatio_of_lt (hrate _ (le_max_left _ _)), ok_bind]
    exact ⟨_, rfl, hclamp _⟩
  · rw [mulRatio_of_lt (hrate _ (le_max_right _ _)), ok_bind]
    exact ⟨_, rfl, hclamp _⟩

/-! ## The invariant of the block state -/

/-- One resource of the block state between blocks: its average within the envelope of blocks of
at most `max`, its pending usage within `max`, and its virtual limit within
`max * max_multiplier`. -/
structure ElasticBounds (params : ElasticLimitParameters) (average : UsageAccumulator)
    (pending virtual_limit : UInt64) : Prop where
  /-- The average within the envelope of blocks of at most `max`. -/
  average_within : average.Within params.max.toNat params.periods.toNat
  /-- The pending usage within `max`. -/
  pending_le : pending ≤ params.max
  /-- The virtual limit within `max * max_multiplier`. -/
  virtual_le : virtual_limit.toNat ≤ params.max.toNat * params.max_multiplier.toNat

/-- One resource closes a block of a later number without raising: its average moves to the block,
and its virtual limit to between `max` and `max * max_multiplier`. -/
theorem ElasticBounds.step {params : ElasticLimitParameters} {average : UsageAccumulator}
    {pending virtual_limit : UInt64} {block_num : UInt32} (hp : params.Bounded)
    (hb : ElasticBounds params average pending virtual_limit)
    (hord : average.last_ordinal < block_num) :
    ∃ average' virtual_limit', average.add pending block_num params.periods = .ok average' ∧
      updateElasticLimit virtual_limit average'.average params = .ok virtual_limit' ∧
      ElasticBounds params average' 0 virtual_limit' ∧ average'.last_ordinal = block_num ∧
      params.max ≤ virtual_limit' := by
  obtain ⟨average', hadd, hwithin, hlast⟩ := average.add_of_within hb.average_within hord
    (ElasticLimitParameters.periods_pos_of_validate hp.validate_ok) hp.max_le hp.window_fits
    (UInt64.le_iff_toNat_le.1 hb.pending_le)
  obtain ⟨v, hupdate, hmax, hv⟩ := updateElasticLimit_of_bounded hp hb.virtual_le average'.average
  exact ⟨average', v, hadd, hupdate, ⟨hwithin, UInt64.le_iff_toNat_le.2 (Nat.zero_le _), hv⟩,
    hlast, hmax⟩

/-- The block state between blocks under the parameters `cpu` and `net`: both in force, each
resource within its bounds, and both averages last moved at block `last`. -/
structure BlockUsageInv (cpu net : ElasticLimitParameters) (last : UInt32)
    (s : ResourceLimitsState) : Prop where
  /-- The parameters of CPU in force. -/
  cpu_params : s.config.cpu_limit_parameters = cpu
  /-- The parameters of NET in force. -/
  net_params : s.config.net_limit_parameters = net
  /-- CPU within its bounds. -/
  cpu : ElasticBounds cpu s.average_block_cpu_usage s.pending_cpu_usage s.virtual_cpu_limit
  /-- NET within its bounds. -/
  net : ElasticBounds net s.average_block_net_usage s.pending_net_usage s.virtual_net_limit
  /-- The average of CPU last moved at `last`. -/
  cpu_last : s.average_block_cpu_usage.last_ordinal = last
  /-- The average of NET last moved at `last`. -/
  net_last : s.average_block_net_usage.last_ordinal = last

/-- The default parameters are bounded. -/
theorem defaultParameters_bounded :
    ({} : ResourceLimitsConfig).cpu_limit_parameters.Bounded ∧
      ({} : ResourceLimitsConfig).net_limit_parameters.Bounded := by
  refine ⟨⟨?_, ?_, ?_, ?_, ?_, ?_⟩, ⟨?_, ?_, ?_, ?_, ?_, ?_⟩⟩ <;> decide

/-- `initialize_database` starts the invariant under the default parameters, before any block. -/
theorem BlockUsageInv.init :
    BlockUsageInv ({} : ResourceLimitsConfig).cpu_limit_parameters
      ({} : ResourceLimitsConfig).net_limit_parameters 0 ResourceLimitsState.init where
  cpu_params := rfl
  net_params := rfl
  cpu := ⟨UsageAccumulator.within_empty _ _, by decide, by decide⟩
  net := ⟨UsageAccumulator.within_empty _ _, by decide, by decide⟩
  cpu_last := rfl
  net_last := rfl

section Run

variable {cpu net : ElasticLimitParameters} {s s' : ResourceLimitsState} {last : UInt32}

/-- A transaction's charge keeps the invariant: it changes the pending usage only, within `max`. -/
theorem BlockUsageInv.addTransactionUsage {accounts : List Name} {cpu_usage net_usage : UInt64}
    {time_slot : UInt32} (hinv : BlockUsageInv cpu net last s)
    (h : addTransactionUsage s accounts cpu_usage net_usage time_slot = .ok s') :
    BlockUsageInv cpu net last s' := by
  obtain ⟨hframe, hcpu, hnet⟩ := addTransactionUsage_frame h
  rw [hinv.cpu_params] at hcpu
  rw [hinv.net_params] at hnet
  rw [hframe]
  exact ⟨hinv.cpu_params, hinv.net_params, ⟨hinv.cpu.average_within, hcpu, hinv.cpu.virtual_le⟩,
    ⟨hinv.net.average_within, hnet, hinv.net.virtual_le⟩, hinv.cpu_last, hinv.net_last⟩

/-- Under bounded parameters a block of a later number closes without raising, keeps the invariant
at its number, and leaves both virtual limits at least `max`. -/
theorem BlockUsageInv.processBlockUsage {block_num : UInt32} (hcpu : cpu.Bounded)
    (hnet : net.Bounded) (hinv : BlockUsageInv cpu net last s) (hnext : last < block_num) :
    ∃ s', processBlockUsage s block_num = .ok s' ∧ BlockUsageInv cpu net block_num s' ∧
      cpu.max ≤ s'.virtual_cpu_limit ∧ net.max ≤ s'.virtual_net_limit := by
  obtain ⟨cpu_average, cpu_limit, hcpu_add, hcpu_update, hcpu_bounds, hcpu_last, hcpu_max⟩ :=
    hinv.cpu.step hcpu (hinv.cpu_last ▸ hnext)
  obtain ⟨net_average, net_limit, hnet_add, hnet_update, hnet_bounds, hnet_last, hnet_max⟩ :=
    hinv.net.step hnet (hinv.net_last ▸ hnext)
  rw [← hinv.cpu_params] at hcpu_add hcpu_update
  rw [← hinv.net_params] at hnet_add hnet_update
  unfold Resource.processBlockUsage ResourceLimitsState.updateVirtualCpuLimit
    ResourceLimitsState.updateVirtualNetLimit
  simp only [hcpu_add, hcpu_update, hnet_add, hnet_update, ok_bind, pure_bind]
  refine ⟨_, rfl, ⟨hinv.cpu_params, hinv.net_params, ?_, ?_, hcpu_last, hnet_last⟩, hcpu_max,
    hnet_max⟩
  · rw [← hinv.cpu_params] at hcpu_bounds ⊢
    exact hcpu_bounds
  · rw [← hinv.net_params] at hnet_bounds ⊢
    exact hnet_bounds

/-- Over a run whose blocks have increasing numbers after `last`, the invariant holds at the number
of the last block closed: a charge keeps it or is rolled back, and a block closes. -/
theorem BlockUsageInv.run (hcpu : cpu.Bounded) (hnet : net.Bounded) :
    ∀ (reqs : List BlockRequest) {s : ResourceLimitsState} {last : UInt32},
      BlockUsageInv cpu net last s → List.IsChain (· < ·) (last :: blockNums reqs) →
        BlockUsageInv cpu net ((blockNums reqs).getLast?.getD last)
          (Machine.run blockStep s reqs)
  | [], _, _, hinv, _ => hinv
  | .add_transaction_usage accounts cpu_usage net_usage time_slot :: reqs, s, last, hinv,
      hnums => by
    have hcommit : BlockUsageInv cpu net last
        (Machine.commit blockStep s (.add_transaction_usage accounts cpu_usage net_usage time_slot)) :=
      Machine.commit_invariant _ hinv fun _ h => hinv.addTransactionUsage h
    exact BlockUsageInv.run hcpu hnet reqs hcommit hnums
  | .process_block_usage block_num :: reqs, s, last, hinv, hnums => by
    rw [blockNums, List.isChain_cons_cons] at hnums
    obtain ⟨s', hprocess, hinv', -⟩ := hinv.processBlockUsage hcpu hnet hnums.1
    have hstep : blockStep s (.process_block_usage block_num) = .ok s' := hprocess
    rw [Machine.run_cons, Machine.commit_of_ok hstep, blockNums, List.getLast?_cons,
      Option.getD_some]
    exact BlockUsageInv.run hcpu hnet reqs hinv' hnums.2

end Run

/-- Under bounded parameters, from a state of the invariant and after any run of transactions and
of blocks of increasing numbers, a block of a later number closes without raising, and leaves both
virtual limits between `max` and `max * max_multiplier`. -/
theorem elastic_limits_stay_in_range (cpu net : ElasticLimitParameters) (hcpu : cpu.Bounded)
    (hnet : net.Bounded) (s : ResourceLimitsState) (last : UInt32)
    (hinv : BlockUsageInv cpu net last s) (reqs : List BlockRequest) (block_num : UInt32)
    (hnums : List.IsChain (· < ·) (last :: blockNums reqs ++ [block_num])) :
    ∃ s', processBlockUsage (Machine.run blockStep s reqs) block_num = .ok s' ∧
      cpu.max ≤ s'.virtual_cpu_limit ∧
      s'.virtual_cpu_limit.toNat ≤ cpu.max.toNat * cpu.max_multiplier.toNat ∧
      net.max ≤ s'.virtual_net_limit ∧
      s'.virtual_net_limit.toNat ≤ net.max.toNat * net.max_multiplier.toNat := by
  rw [List.isChain_append] at hnums
  obtain ⟨hrun_nums, -, hnext⟩ := hnums
  -- the run keeps the invariant at its last block, before this one
  have hrun := BlockUsageInv.run hcpu hnet reqs hinv hrun_nums
  have hlast : (blockNums reqs).getLast?.getD last < block_num :=
    hnext _ (by rw [List.getLast?_cons]; rfl) _ rfl
  obtain ⟨s', hprocess, hinv', hcpu_max, hnet_max⟩ := hrun.processBlockUsage hcpu hnet hlast
  exact ⟨s', hprocess, hcpu_max, hinv'.cpu.virtual_le, hnet_max, hinv'.net.virtual_le⟩

/-- Under the default limits, a block charged with a transaction closes with both virtual limits
between `max` and `max` times the multiplier. -/
theorem default_limits_close_charged_block :
    ∃ s', processBlockUsage (Machine.run blockStep ResourceLimitsState.init
        [.add_transaction_usage [] 1000 1000 1, .process_block_usage 1]) 2 = .ok s' ∧
      ({} : ResourceLimitsConfig).cpu_limit_parameters.max ≤ s'.virtual_cpu_limit ∧
      s'.virtual_cpu_limit.toNat ≤ ({} : ResourceLimitsConfig).cpu_limit_parameters.max.toNat *
        ({} : ResourceLimitsConfig).cpu_limit_parameters.max_multiplier.toNat ∧
      ({} : ResourceLimitsConfig).net_limit_parameters.max ≤ s'.virtual_net_limit ∧
      s'.virtual_net_limit.toNat ≤ ({} : ResourceLimitsConfig).net_limit_parameters.max.toNat *
        ({} : ResourceLimitsConfig).net_limit_parameters.max_multiplier.toNat :=
  elastic_limits_stay_in_range _ _ defaultParameters_bounded.1 defaultParameters_bounded.2
    ResourceLimitsState.init 0 BlockUsageInv.init _ 2 (by decide)

end InfraBlockchain.Resource
