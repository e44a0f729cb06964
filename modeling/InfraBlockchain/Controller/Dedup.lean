import Mathlib
import InfraBlockchain.Lib.IndexedTable
import InfraBlockchain.Lib.Machine
import InfraBlockchain.Types

/-!
# Input transactions and their deduplication records

The controller pushes an input transaction in `controller_impl::push_transaction`, through
`transaction_context::init_for_input_trx`: with transaction checks enabled it validates the
expiration against the pending block time (`controller::validate_expiration`), then the TaPoS
reference block, the referenced accounts and the billing limits (`validate_tapos`,
`validate_referenced_accounts`, `transaction_context::init`), and last records the id with its
expiration in the `transaction_object` table, whose unique id index raises `tx_duplicate`
(`record_transaction`). Authorization, execution and finalization follow. A push that fails is
undone as a whole by its undo session. `start_block` sets the pending block time, which must be
later than the previous block's, and `clear_expired_input_transactions` removes the records that
have expired.

The checks between `validate_expiration` and `record_transaction`, and the steps after it, read
state that this model leaves out (the block summaries, accounts, resource limits, authorities and
contracts); a push takes their outcomes as inputs, so that what is proved holds whatever they are.
`set_blockchain_parameters_packed` is modelled for the one parameter that these functions read,
`max_transaction_lifetime`, which it may set to any value.

Times are microseconds, as `fc::time_point`; expirations are seconds, as `fc::time_point_sec`.
-/

namespace InfraBlockchain.Controller

open IndexedTable

variable {I : Type}

/-- `transaction_object`: the id of an input transaction and its expiration. -/
structure TransactionObject (I : Type) where
  /-- `trx_id`. -/
  trx_id : I
  /-- `expiration`, in seconds. -/
  expiration : Nat
  deriving DecidableEq

/-- Two records with the same key in the unique `by_trx_id` index. -/
def TransactionObject.clash (a b : TransactionObject I) : Prop := a.trx_id = b.trx_id

instance [DecidableEq I] : DecidableRel (TransactionObject.clash (I := I)) := fun a b =>
  inferInstanceAs (Decidable (a.trx_id = b.trx_id))

/-- What the functions read and change. -/
structure ControllerState (I : Type) where
  /-- `transaction_multi_index`, the deduplication records. -/
  transactions : IndexedTable (TransactionObject I) TransactionObject.clash
  /-- `pending_block_time()`, in microseconds. -/
  pending_block_time : Nat
  /-- `chain_config::max_transaction_lifetime`, in seconds. -/
  max_transaction_lifetime : Nat
  deriving DecidableEq

/-- An input transaction: its id, a digest of its content, and its expiration. -/
structure InputTransaction (I : Type) where
  /-- `transaction_metadata::id()`. -/
  id : I
  /-- `transaction_header::expiration`, in seconds. -/
  expiration : Nat

/-- `fc::time_point(expiration)`: seconds as microseconds. -/
def toTimePoint (sec : Nat) : Nat := sec * 1000000

/-- `controller_impl::clear_expired_input_transactions`: the records whose expiration is before
the pending block time. The loop removes the first record of the `by_expiration` index while it
has expired, so it removes exactly the records that have. -/
def clearExpiredInputTransactions (s : ControllerState I) : ControllerState I :=
  let now := s.pending_block_time
  { s with transactions := s.transactions.remove fun t => now > toTimePoint t.expiration }

/-- `controller_impl::start_block` at time `when`, for what it does to these records: the block
must come after the previous one (`block_header_state::next`), and the expired records go. -/
def startBlock (s : ControllerState I) (when : Nat) : Except Exception (ControllerState I) := do
  eosAssert (when > s.pending_block_time) .block_validate_exception
    "next block must be in the future"
  pure (clearExpiredInputTransactions { s with pending_block_time := when })

/-- `controller::validate_expiration`: not expired, and not further ahead than the lifetime. -/
def validateExpiration (s : ControllerState I) (trx : InputTransaction I) :
    Except Exception Unit := do
  eosAssert (toTimePoint trx.expiration ≥ s.pending_block_time) .expired_tx_exception
    "transaction has expired, expiration is $\x7btrx.expiration\x7d and pending block time is ${pending_block_time}"
  eosAssert (toTimePoint trx.expiration ≤
      s.pending_block_time + toTimePoint s.max_transaction_lifetime) .tx_exp_too_far_exception
    "Transaction expiration is too far in the future relative to the reference time of ${reference_time}, expiration is $\x7btrx.expiration\x7d and the maximum transaction lifetime is ${max_til_exp} seconds"

/-- `transaction_context::record_transaction`: a record of the id, which the unique index refuses
for an id already recorded. -/
def recordTransaction [DecidableEq I] (s : ControllerState I) (id : I) (expire : Nat) :
    Except Exception (ControllerState I) := do
  let transactions ← liftDb .tx_duplicate "duplicate transaction ${id}"
    (s.transactions.create ⟨id, expire⟩)
  pure { s with transactions }

/-- `controller_impl::push_transaction` of an input transaction with transaction checks enabled:
`checks` is the outcome of `validate_tapos`, `validate_referenced_accounts` and
`transaction_context::init`, and `execution` that of `check_authorization`, `exec` and
`finalize`. -/
def pushTransaction [DecidableEq I] (s : ControllerState I) (trx : InputTransaction I)
    (checks execution : Except Exception Unit) : Except Exception (ControllerState I) := do
  validateExpiration s trx
  checks
  let s ← recordTransaction s trx.id trx.expiration
  execution
  pure s

/-- A step of the controller. -/
inductive ControllerRequest (I : Type) where
  | start_block (when : Nat)
  | push_transaction (trx : InputTransaction I) (checks execution : Except Exception Unit)
  | set_max_transaction_lifetime (max_transaction_lifetime : Nat)

/-- One step. -/
def controllerStep [DecidableEq I] (s : ControllerState I) :
    ControllerRequest I → Except Exception (ControllerState I)
  | .start_block when => startBlock s when
  | .push_transaction trx checks execution => pushTransaction s trx checks execution
  | .set_max_transaction_lifetime max_transaction_lifetime => .ok { s with max_transaction_lifetime }

end InfraBlockchain.Controller
