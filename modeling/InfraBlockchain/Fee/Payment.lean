import Mathlib
import InfraBlockchain.Lib.WordArith
import InfraBlockchain.Fee.Table
import InfraBlockchain.Fee.Balance
import InfraBlockchain.Token.Actions
import InfraBlockchain.TxVote.Stats

/-!
# Paying the fee of a transaction

`transaction_context::process_transaction_fee_payment` sums the fees of the actions that a
transaction ran, each read from the fee table, in an `int32_t` that a guard keeps from passing
`INT32_MAX`, and refuses a sum above `infrablockchain_max_transaction_fee_amount_per_transaction`.
A positive sum is then charged by `standard_token_manager::pay_transaction_fee`, which walks the
system tokens in order and executes, for each one the fee payer holds, a `txfee` action of the
part of the fee that the token pays: the remaining fee converted to the token's units at its
weight, or the whole balance, whose weighted value is then taken off the remaining fee. It stops
once nothing remains and raises when something does after the last token.

As no fee in the table is negative, the guard of the sum is exact: the loop returns the sum of the
fees while it fits an `int32_t` and raises otherwise (`foldlM_addTxFeeForActionTrace`), so the
amount charged is the exact sum of the fees of the actions that were not notifications.

The conversion to a token's units rounds down. A token weighted above `1x` can then be charged
less than the fee in value, or nothing, and a `txfee` of nothing is refused by its handler, which
raises although the payer holds enough (`pay_transaction_fee_rounding`).
-/

namespace InfraBlockchain.Fee

open Token

/-! ## `pay_transaction_fee` -/

/-- The context in which `pay_transaction_fee` executes the `txfee` action of a system token: the
token's account as receiver and contract, authorized by `fee_payer@active`. -/
def txfeeContext (sys_token_id fee_payer : Name) : ApplyContext :=
  ⟨sys_token_id, sys_token_id, [⟨fee_payer, activeName⟩]⟩

/-- The loop of `pay_transaction_fee` from a system token on, with the fee that remains: the state
after the `txfee` actions it executes, the fee that then remains, and those actions in order. -/
def payTransactionFeeLoop (fee_payer : Name) :
    TokenState → Int64 → List SystemToken → Except Exception (TokenState × Int64 × List Txfee)
  | s, fee_remaining, [] => .ok (s, fee_remaining, [])
  | s, fee_remaining, sys_token :: rest =>
    match s.balances.find? (byTokenAccount sys_token.token_id fee_payer) with
    | none => payTransactionFeeLoop fee_payer s fee_remaining rest
    | some balance_obj => do
      let share := systemTokenFeeShare sys_token balance_obj.balance fee_remaining
      let token_meta_obj ← liftDb .infrablockchain_transaction_fee_exception
        "no token meta info for system token ${token_id}" (getTokenMetaObject s sys_token.token_id)
      let txfee : Txfee := ⟨fee_payer, ⟨share.1, token_meta_obj.sym⟩⟩
      let s ← applyTxfee (txfeeContext sys_token.token_id fee_payer) s txfee
      if share.2 ≤ 0 then pure (s, share.2, [txfee])
      else do
        let r ← payTransactionFeeLoop fee_payer s share.2 rest
        pure (r.1, r.2.1, txfee :: r.2.2)

/-- `standard_token_manager::pay_transaction_fee`, over the list of the global property object:
the state after the `txfee` actions and the actions, which the transaction's trace records. -/
def payTransactionFee (s : TokenState) (sys_token_list : SystemTokenList) (fee_payer : Name)
    (fee_amount : UInt32) : Except Exception (TokenState × List Txfee) := do
  let r ← payTransactionFeeLoop fee_payer s fee_amount.toUInt64.toInt64
    sys_token_list.system_tokens
  eosAssert (r.2.1 ≤ 0) .infrablockchain_transaction_fee_exception
    "fee payer ${payer} does not have enough system token"
  pure (r.1, r.2.2)

/-- Token `2` at weight `2x` and a payer whose 100 tokens are worth 200: a fee of `1` converts to
`1 * 10000 / 20000 = 0` tokens, whose `txfee` is refused, and a fee of `3` to one token, worth
`2`, which settles it. -/
theorem pay_transaction_fee_rounding :
    (getSystemTokenBalance feePayerState doubleWeightList exampleSymbol ⟨1⟩).map
        (·.total.amount) = .ok 200 ∧
      (payTransactionFee feePayerState doubleWeightList ⟨1⟩ 1).map (·.2.map (·.fee)) =
        .error ⟨.token_action_validate_exception, "tx fee amount must be greater than 0"⟩ ∧
      (payTransactionFee feePayerState doubleWeightList ⟨1⟩ 3).map (·.2.map (·.fee)) =
        .ok [⟨1, exampleSymbol⟩] := by
  refine ⟨by decide +kernel, by decide +kernel, by decide +kernel⟩

/-! ## `process_transaction_fee_payment` -/

/-- One action trace of the loop of `process_transaction_fee_payment`: its fee is added to the
sum, after the guard against a sum past `INT32_MAX`. -/
def addTxFeeForActionTrace (t : TransactionFeeTable) (txfee_amount_to_pay : Int32)
    (act_trace : ActionTrace) : Except Exception Int32 := do
  let txfee_amount_for_action := (getTxFeeForActionTrace t act_trace).value
  eosAssert (txfee_amount_to_pay ≤ Int32.maxValue - txfee_amount_for_action)
    .infrablockchain_transaction_fee_exception "transaction fee amount sum overflow"
  pure (txfee_amount_to_pay + txfee_amount_for_action)

/-- `transaction_context::process_transaction_fee_payment`: nothing for an implicit transaction
or for `eosio`, else the sum of the fees of the action traces, paid by the fee payer when
positive. Returns the token state, the `txfee` actions, and the amount handed on to
`cast_transaction_vote`, zero when none is. -/
def processTransactionFeePayment (implicit_tx : Bool) (tx_fee_payer : Option Name)
    (t : TransactionFeeTable) (action_traces : List ActionTrace) (s : TokenState)
    (sys_token_list : SystemTokenList) : Except Exception (TokenState × List Txfee × UInt32) :=
  if implicit_tx then .ok (s, [], 0)
  else do
    let fee_payer ← liftDb .invalid_transaction_fee_payer_account
      "no transaction fee payer account specified" (tx_fee_payer.filter fun p => !p.empty)
    if fee_payer = systemAccountName then pure (s, [], 0)
    else do
      let txfee_amount_to_pay ← action_traces.foldlM (addTxFeeForActionTrace t) 0
      eosAssert (txfee_amount_to_pay ≥ 0) .infrablockchain_transaction_fee_exception
        "transaction fee amount must be greater than or equal to 0"
      eosAssert (txfee_amount_to_pay.toInt ≤
          TxVote.infrablockchainMaxTransactionFeeAmountPerTransaction.toNat)
        .infrablockchain_transaction_fee_exception
        "transaction fee amount exceeds max transaction fee amount per transaction"
      if txfee_amount_to_pay > 0 then do
        let tx_fee_amount := txfee_amount_to_pay.toUInt32
        let r ← payTransactionFee s sys_token_list fee_payer tx_fee_amount
        pure (r.1, r.2, tx_fee_amount)
      else pure (s, [], 0)

/-! ## The amount is the exact sum of the fees -/

/-- The fee of every action trace, in order. -/
def traceFees (t : TransactionFeeTable) (action_traces : List ActionTrace) : List Int :=
  action_traces.map fun act_trace => (getTxFeeForActionTrace t act_trace).value.toInt

/-- A notification costs nothing, so the fees of the traces sum to those of the actions that ran
as their own contract's. -/
theorem sum_traceFees (t : TransactionFeeTable) : ∀ action_traces : List ActionTrace,
    (traceFees t action_traces).sum =
      ((action_traces.filter fun tr => tr.account == tr.receiver).map fun tr =>
        (getTxFeeForAction t tr.account tr.name).value.toInt).sum
  | [] => by simp [traceFees]
  | tr :: rest => by
    have ih := sum_traceFees t rest
    unfold traceFees at ih ⊢
    rw [List.map_cons, List.sum_cons, ih, getTxFeeForActionTrace]
    by_cases h : tr.account = tr.receiver
    · rw [List.filter_cons_of_pos (by simpa using h), if_pos (by simpa using h), List.map_cons,
        List.sum_cons]
    · rw [List.filter_cons_of_neg (by simpa using h), if_neg (by simpa using h)]
      simp only [Int32.toInt_zero, Int.zero_add]

/-- One trace adds its fee when the guard passes, and raises otherwise. -/
theorem addTxFeeForActionTrace_eq (t : TransactionFeeTable) (acc : Int32)
    (act_trace : ActionTrace) :
    addTxFeeForActionTrace t acc act_trace =
      if acc ≤ Int32.maxValue - (getTxFeeForActionTrace t act_trace).value then
        .ok (acc + (getTxFeeForActionTrace t act_trace).value)
      else .error ⟨.infrablockchain_transaction_fee_exception,
        "transaction fee amount sum overflow"⟩ := by
  unfold addTxFeeForActionTrace
  rw [eosAssert_bind]
  by_cases h : acc ≤ Int32.maxValue - (getTxFeeForActionTrace t act_trace).value
  · simp only [h, decide_true, if_true]
    rfl
  · simp only [h, decide_false, Bool.false_eq_true, if_false]

/-- The loop of `process_transaction_fee_payment` over a table without negative fees, from a sum
`acc ≥ 0`: the guard fails exactly when the exact sum passes `INT32_MAX`, and the sum returned is
exact. By induction on the traces, the sum growing by each fee. -/
theorem foldlM_addTxFeeForActionTrace {t : TransactionFeeTable} (ht : FeeTableInv t) :
    ∀ (action_traces : List ActionTrace) (acc : Int32), 0 ≤ acc.toInt →
      action_traces.foldlM (addTxFeeForActionTrace t) acc =
        if acc.toInt + (traceFees t action_traces).sum ≤ Int32.maxValue.toInt then
          .ok (Int32.ofInt (acc.toInt + (traceFees t action_traces).sum))
        else .error ⟨.infrablockchain_transaction_fee_exception,
          "transaction fee amount sum overflow"⟩
  | [], acc, _ => by
    have hlt := acc.toInt_lt
    have hmax : Int32.maxValue.toInt = 2 ^ 31 - 1 := Int32.toInt_maxValue
    rw [if_pos (by simp [traceFees]; omega)]
    simp [traceFees, Int32.ofInt_toInt, pure, Except.pure]
  | act_trace :: rest, acc, hacc => by
    have hmax : Int32.maxValue.toInt = 2 ^ 31 - 1 := Int32.toInt_maxValue
    have hx := ht.value_nonneg act_trace
    have hxlt := (getTxFeeForActionTrace t act_trace).value.toInt_lt
    have hacclt := acc.toInt_lt
    have hrest : 0 ≤ (traceFees t rest).sum :=
      List.sum_nonneg fun y hy => by
        obtain ⟨tr, -, rfl⟩ := List.mem_map.1 hy
        exact ht.value_nonneg tr
    have hsum : (traceFees t (act_trace :: rest)).sum =
        (getTxFeeForActionTrace t act_trace).value.toInt + (traceFees t rest).sum := by
      simp [traceFees]
    -- the guard `acc <= INT32_MAX - fee` does not wrap, as the fee is not negative
    have hguard : (acc ≤ Int32.maxValue - (getTxFeeForActionTrace t act_trace).value) ↔
        acc.toInt + (getTxFeeForActionTrace t act_trace).value.toInt ≤ Int32.maxValue.toInt := by
      rw [Int32.le_iff_toInt_le, Int32.toInt_sub_of_bounds (by omega) (by omega)]
      omega
    rw [List.foldlM_cons, hsum, addTxFeeForActionTrace_eq]
    by_cases hfit : acc.toInt + (getTxFeeForActionTrace t act_trace).value.toInt ≤
        Int32.maxValue.toInt
    · have hadd : (acc + (getTxFeeForActionTrace t act_trace).value).toInt =
          acc.toInt + (getTxFeeForActionTrace t act_trace).value.toInt :=
        Int32.toInt_add_of_bounds (by omega) (by omega)
      rw [if_pos (hguard.2 hfit), ok_bind, foldlM_addTxFeeForActionTrace ht rest _ (by omega), hadd,
        Int.add_assoc]
    · rw [if_neg (fun h => hfit (hguard.1 h)), error_bind, if_neg (by omega)]

/-- The sum as a word, read back as the amount handed to `pay_transaction_fee`. -/
theorem toUInt32_ofInt_of_fit {n : Int} (h₀ : 0 ≤ n) (h₁ : n < 2 ^ 31) :
    (Int32.ofInt n).toUInt32 = n.toNat.toUInt32 := by
  have hn : (Int32.ofInt n).toInt = n := Int32.toInt_ofInt_of_le (by omega) h₁
  apply UInt32.toNat_inj.1
  rw [Int32.toNat_toUInt32_of_nonneg (by omega), hn, Nat.toUInt32, UInt32.toNat_ofNat',
    Nat.mod_eq_of_lt (by omega)]

/-- The fee of a transaction is the sum of the fees of its actions run by their own contract: within
the maximum, nothing is paid on zero and otherwise `pay_transaction_fee` pays the sum; beyond it the
payment raises. -/
theorem transaction_fee_amount_exact (reqs : List FeeTableRequest)
    (action_traces : List ActionTrace) (s : TokenState) (sys_token_list : SystemTokenList)
    (fee_payer : Name) (hgood : fee_payer.good = true) (hsys : fee_payer ≠ systemAccountName) :
    let t := Machine.run feeTableStep IndexedTable.empty reqs
    let exact := ((action_traces.filter fun tr => tr.account == tr.receiver).map fun tr =>
      (getTxFeeForAction t tr.account tr.name).value.toInt).sum
    (exact ≤ 1000000000 →
        processTransactionFeePayment false (some fee_payer) t action_traces s sys_token_list =
          if exact = 0 then .ok (s, [], 0)
          else do
            let r ← payTransactionFee s sys_token_list fee_payer exact.toNat.toUInt32
            pure (r.1, r.2, exact.toNat.toUInt32)) ∧
      (1000000000 < exact → ∃ message,
        processTransactionFeePayment false (some fee_payer) t action_traces s sys_token_list =
          .error ⟨.infrablockchain_transaction_fee_exception, message⟩) := by
  intro t exact
  have hmax : Int32.maxValue.toInt = 2 ^ 31 - 1 := Int32.toInt_maxValue
  have ht : FeeTableInv t := FeeTableInv.run reqs
  -- the loop from zero returns the exact sum, or raises past `INT32_MAX`
  have hloop := foldlM_addTxFeeForActionTrace ht action_traces 0 (by decide)
  have hsum : (traceFees t action_traces).sum = exact := sum_traceFees t action_traces
  rw [Int32.toInt_zero, Int.zero_add, hsum] at hloop
  have hexact : 0 ≤ exact := by
    rw [← hsum]
    exact List.sum_nonneg fun y hy => by
      obtain ⟨tr, -, rfl⟩ := List.mem_map.1 hy
      exact ht.value_nonneg tr
  have hpayer : liftDb .invalid_transaction_fee_payer_account
      "no transaction fee payer account specified"
      ((some fee_payer).filter fun p => !p.empty) = .ok fee_payer := by
    simp only [Name.good] at hgood
    simp [Option.filter, hgood, liftDb]
  have hlimit : TxVote.infrablockchainMaxTransactionFeeAmountPerTransaction.toNat = 1000000000 :=
    rfl
  unfold processTransactionFeePayment
  rw [if_neg Bool.false_ne_true, hpayer, ok_bind, if_neg hsys, hloop]
  refine ⟨fun hle => ?_, fun hgt => ?_⟩
  · -- the sum fits: both checks pass, and a positive sum is paid
    have hv : (Int32.ofInt exact).toInt = exact := Int32.toInt_ofInt_of_le (by omega) (by omega)
    rw [if_pos (by omega), ok_bind, eosAssert_bind,
      if_pos (decide_eq_true (Int32.le_iff_toInt_le.2 (by rw [hv, Int32.toInt_zero]; omega))),
      eosAssert_bind, if_pos (decide_eq_true (by rw [hv, hlimit]; omega))]
    by_cases h0 : exact = 0
    · rw [if_pos h0, if_neg (fun h => by
        rw [gt_iff_lt, Int32.lt_iff_toInt_lt, hv, Int32.toInt_zero] at h
        omega)]
      rfl
    · rw [if_neg h0, if_pos (Int32.lt_iff_toInt_lt.2 (by rw [hv, Int32.toInt_zero]; omega)),
        toUInt32_ofInt_of_fit hexact (by omega)]
  · by_cases hfit : exact ≤ Int32.maxValue.toInt
    · -- the sum fits a word but passes the limit of a transaction
      have hv : (Int32.ofInt exact).toInt = exact := Int32.toInt_ofInt_of_le (by omega) (by omega)
      rw [if_pos hfit, ok_bind, eosAssert_bind,
        if_pos (decide_eq_true (Int32.le_iff_toInt_le.2 (by rw [hv, Int32.toInt_zero]; omega))),
        eosAssert_bind, if_neg (fun h => by
          have := of_decide_eq_true h
          rw [hv, hlimit] at this
          omega)]
      exact ⟨_, rfl⟩
    · rw [if_neg hfit, error_bind]
      exact ⟨_, rfl⟩

/-- One action of fee 10000 has its fee paid by `pay_transaction_fee`. -/
theorem transaction_fee_of_one_action :
    processTransactionFeePayment false (some ⟨1⟩) IndexedTable.empty [⟨⟨2⟩, ⟨2⟩, ⟨5⟩⟩]
        feePayerState doubleWeightList =
      (do
        let r ← payTransactionFee feePayerState doubleWeightList ⟨1⟩ 10000
        pure (r.1, r.2, 10000)) :=
  (transaction_fee_amount_exact [] [⟨⟨2⟩, ⟨2⟩, ⟨5⟩⟩] feePayerState doubleWeightList ⟨1⟩
    (by decide) (by decide)).1 (by decide)

/-- A payer without enough system token makes the payment raise. -/
theorem transaction_fee_raised_by_payment :
    (processTransactionFeePayment false (some ⟨1⟩) IndexedTable.empty [⟨⟨2⟩, ⟨2⟩, ⟨5⟩⟩]
        feePayerState doubleWeightList).map (·.2.2) =
      .error ⟨.infrablockchain_transaction_fee_exception,
        "fee payer ${payer} does not have enough system token"⟩ := by
  decide +kernel
end InfraBlockchain.Fee
