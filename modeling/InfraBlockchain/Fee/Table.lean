import Mathlib
import InfraBlockchain.Lib.IndexedTable
import InfraBlockchain.Lib.Machine
import InfraBlockchain.Types

/-!
# The transaction fee table

The fee of an action is read from a table of `transaction_fee_object`s, unique by
`(code, action)` (`infrablockchain/chain/transaction_fee_object.hpp`), that the privileged
intrinsics change through `transaction_fee_table_manager::set_tx_fee_for_action` and
`unset_tx_fee_entry_for_action` (`chain/infrablockchain/transaction_fee_table_manager.cpp`). The
lookup falls back from the row of the action's contract to the row of code `0` for the action, then
to the default row `(0, 0)`, and last to `10000`. An action that a trace records as a notification,
whose receiver is not its contract, costs nothing.

`set_tx_fee_for_action` refuses a negative value, so every row of a table that these two functions
reach holds a value of at least zero (`FeeTableInv`), and so does every fee that the lookup returns
(`FeeTableInv.value_nonneg`).
-/

namespace InfraBlockchain.Fee

/-- `transaction_fee_object`, without its id. -/
structure TransactionFeeObject where
  /-- The contract, `0` for a fee common to all contracts. -/
  code : Name
  /-- The action, `0` with code `0` for the default fee. -/
  action : Name
  /-- `tx_fee_value_type`, an `int32_t`. -/
  value : Int32
  /-- `tx_fee_type_type`. -/
  fee_type : UInt32
  deriving DecidableEq, Repr

/-- Two rows clash in the `by_code_action` index. -/
def TransactionFeeObject.clash (a b : TransactionFeeObject) : Prop :=
  a.code = b.code ∧ a.action = b.action

instance : DecidableRel TransactionFeeObject.clash := fun a b =>
  inferInstanceAs (Decidable (a.code = b.code ∧ a.action = b.action))

/-- The table of `transaction_fee_object`s. -/
abbrev TransactionFeeTable := IndexedTable TransactionFeeObject TransactionFeeObject.clash

/-- `fixed_tx_fee_per_action_type`. -/
def fixedTxFeePerActionType : UInt32 := 1

/-- `tx_fee_for_action`: a fee and its type. -/
structure TxFeeForAction where
  /-- The fee. -/
  value : Int32
  /-- Its type. -/
  fee_type : UInt32
  deriving DecidableEq, Repr

/-- The lookup `by_code_action`. -/
def byCodeAction (code action : Name) (o : TransactionFeeObject) : Bool :=
  o.code == code && o.action == action

/-- `transaction_fee_table_manager::set_tx_fee_for_action`: the row of `(code, action)` is given
the value and type, or created with them. -/
def setTxFeeForAction (t : TransactionFeeTable) (code action : Name) (value : Int32)
    (fee_type : UInt32) : Except Exception TransactionFeeTable := do
  eosAssert (value ≥ 0) .infrablockchain_transaction_fee_exception "tx fee value must be >= 0"
  eosAssert (fee_type == fixedTxFeePerActionType) .infrablockchain_transaction_fee_exception
    "currently set_tx_fee_for_action supports only fixed_tx_fee_per_action_type"
  match t.find? (byCodeAction code action) with
  | some _ =>
    liftDb .unique_index_violation "could not modify object"
      (t.modify (byCodeAction code action) fun o => { o with value, fee_type })
  | none =>
    liftDb .unique_index_violation "could not insert object"
      (t.create ⟨code, action, value, fee_type⟩)

/-- `transaction_fee_table_manager::unset_tx_fee_entry_for_action`: the row of `(code, action)`
is removed, and must exist. -/
def unsetTxFeeEntryForAction (t : TransactionFeeTable) (code action : Name) :
    Except Exception TransactionFeeTable :=
  match t.find? (byCodeAction code action) with
  | some _ => .ok (t.remove (byCodeAction code action))
  | none => .error ⟨.infrablockchain_transaction_fee_exception, "tx fee db row not found"⟩

/-- The fee that a row holds. -/
def TransactionFeeObject.txFee (o : TransactionFeeObject) : TxFeeForAction := ⟨o.value, o.fee_type⟩

/-- `transaction_fee_table_manager::get_default_tx_fee`: the row `(0, 0)`, else `10000`. -/
def getDefaultTxFee (t : TransactionFeeTable) : TxFeeForAction :=
  match t.find? (byCodeAction ⟨0⟩ ⟨0⟩) with
  | some o => o.txFee
  | none => ⟨10000, fixedTxFeePerActionType⟩

/-- `transaction_fee_table_manager::get_tx_fee_for_common_action`: the row `(0, action)`, else the
default. -/
def getTxFeeForCommonAction (t : TransactionFeeTable) (action : Name) : TxFeeForAction :=
  match t.find? (byCodeAction ⟨0⟩ action) with
  | some o => o.txFee
  | none => getDefaultTxFee t

/-- `transaction_fee_table_manager::get_tx_fee_for_action`: the row `(code, action)`, else the fee
common to the action. -/
def getTxFeeForAction (t : TransactionFeeTable) (code action : Name) : TxFeeForAction :=
  match t.find? (byCodeAction code action) with
  | some o => o.txFee
  | none => getTxFeeForCommonAction t action

/-- `action_trace`, with what the fee reads of it: the receiver, and the contract and name of the
action. -/
structure ActionTrace where
  /-- `receiver`. -/
  receiver : Name
  /-- `act.account`. -/
  account : Name
  /-- `act.name`. -/
  name : Name
  deriving DecidableEq, Repr

/-- `transaction_fee_table_manager::get_tx_fee_for_action_trace`: nothing for a notification. -/
def getTxFeeForActionTrace (t : TransactionFeeTable) (action_trace : ActionTrace) :
    TxFeeForAction :=
  if action_trace.account == action_trace.receiver then
    getTxFeeForAction t action_trace.account action_trace.name
  else ⟨0, fixedTxFeePerActionType⟩

/-- The calls that change the table. -/
inductive FeeTableRequest where
  | set_tx_fee_for_action (code action : Name) (value : Int32) (fee_type : UInt32)
  | unset_tx_fee_entry_for_action (code action : Name)

/-- One call. -/
def feeTableStep (t : TransactionFeeTable) : FeeTableRequest → Except Exception TransactionFeeTable
  | .set_tx_fee_for_action code action value fee_type => setTxFeeForAction t code action value fee_type
  | .unset_tx_fee_entry_for_action code action => unsetTxFeeEntryForAction t code action

/-! ## No fee is negative -/

/-- What `set_tx_fee_for_action` ensures of a table: no row holds a negative fee. -/
def FeeTableInv (t : TransactionFeeTable) : Prop := ∀ o ∈ t.rows, 0 ≤ o.value.toInt

/-- The empty table has no fee. -/
theorem FeeTableInv.empty : FeeTableInv IndexedTable.empty := by
  simp [FeeTableInv]

/-- A set keeps every fee non-negative: the new value is checked. -/
theorem FeeTableInv.setTxFeeForAction {t t' : TransactionFeeTable} {code action : Name}
    {value : Int32} {fee_type : UInt32} (ht : FeeTableInv t)
    (h : setTxFeeForAction t code action value fee_type = .ok t') : FeeTableInv t' := by
  simp only [Fee.setTxFeeForAction, bind_eq_ok, eosAssert_eq_ok, decide_eq_true_eq] at h
  obtain ⟨-, hvalue, -, -, h⟩ := h
  have hnonneg : 0 ≤ value.toInt := Int32.le_iff_toInt_le.1 hvalue
  split at h
  · exact IndexedTable.forall_of_modify (liftDb_eq_ok.1 h) ht fun _ _ _ => hnonneg
  · exact IndexedTable.forall_of_create (liftDb_eq_ok.1 h) ht hnonneg

/-- An unset keeps every fee non-negative. -/
theorem FeeTableInv.unsetTxFeeEntryForAction {t t' : TransactionFeeTable} {code action : Name}
    (ht : FeeTableInv t) (h : unsetTxFeeEntryForAction t code action = .ok t') :
    FeeTableInv t' := by
  unfold Fee.unsetTxFeeEntryForAction at h
  split at h
  · cases h
    exact IndexedTable.forall_remove ht _
  · cases h

/-- Every call keeps every fee non-negative. -/
theorem FeeTableInv.feeTableStep {t t' : TransactionFeeTable} {r : FeeTableRequest}
    (ht : FeeTableInv t) (h : feeTableStep t r = .ok t') : FeeTableInv t' := by
  cases r with
  | set_tx_fee_for_action code action value fee_type => exact ht.setTxFeeForAction h
  | unset_tx_fee_entry_for_action code action => exact ht.unsetTxFeeEntryForAction h

/-- Every table that the calls reach from the empty one has no negative fee. -/
theorem FeeTableInv.run (reqs : List FeeTableRequest) :
    FeeTableInv (Machine.run Fee.feeTableStep IndexedTable.empty reqs) :=
  Machine.run_invariant FeeTableInv (fun _ _ _ ht h => ht.feeTableStep h) reqs FeeTableInv.empty

/-- Every fee that the lookup returns from such a table is non-negative: a row's, the default
`10000`, or a notification's `0`. -/
theorem FeeTableInv.value_nonneg {t : TransactionFeeTable} (ht : FeeTableInv t)
    (action_trace : ActionTrace) : 0 ≤ (getTxFeeForActionTrace t action_trace).value.toInt := by
  -- a fee read from a row
  have hrow : ∀ p o, t.find? p = some o → 0 ≤ o.txFee.value.toInt := fun _ o h =>
    ht o (IndexedTable.mem_of_find? h).1
  unfold getTxFeeForActionTrace getTxFeeForAction getTxFeeForCommonAction getDefaultTxFee
  split
  · split
    · exact hrow _ _ ‹_›
    · split
      · exact hrow _ _ ‹_›
      · split
        · exact hrow _ _ ‹_›
        · decide
  · decide

end InfraBlockchain.Fee
