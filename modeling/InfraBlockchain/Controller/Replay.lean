import Mathlib
import InfraBlockchain.Controller.Dedup

/-!
# Replay protection

Once an input transaction has been pushed, its record stays until a block starts after its
expiration (`clear_expired_input_transactions` removes a record only when the pending block time
has passed it), and from then on `validate_expiration` refuses the transaction. So along a chain
no later push of the transaction succeeds: it raises `tx_duplicate` while the record stands and
the checks before `record_transaction` pass, and `expired_tx_exception` once the pending block
time has passed the expiration. A push that fails changes nothing.

The checks before `record_transaction` come first, so a later push may fail with another
exception: when `max_transaction_lifetime` has been lowered since, `validate_expiration` raises
`tx_exp_too_far_exception` (`replay_push_expiration_too_far`).
-/

namespace InfraBlockchain.Controller

open IndexedTable

variable {I : Type}

/-! ## The functions -/

section Functions

variable {s s' : ControllerState I} {trx : InputTransaction I}

/-- `validate_expiration` passes exactly when the expiration is between the pending block time and
the lifetime after it. -/
theorem validateExpiration_ok {u : Unit} :
    validateExpiration s trx = .ok u ↔ s.pending_block_time ≤ toTimePoint trx.expiration ∧
      toTimePoint trx.expiration ≤ s.pending_block_time + toTimePoint s.max_transaction_lifetime := by
  simp only [validateExpiration, bind_eq_ok, eosAssert_eq_ok, decide_eq_true_eq, exists_const]

/-- `validate_expiration` refuses a transaction whose expiration the pending block time has
passed. -/
theorem validateExpiration_expired (h : toTimePoint trx.expiration < s.pending_block_time) :
    ∃ msg, validateExpiration s trx = .error ⟨.expired_tx_exception, msg⟩ := by
  have hfail : ¬ toTimePoint trx.expiration ≥ s.pending_block_time := Nat.not_le.2 h
  simp only [validateExpiration, eosAssert_bind, decide_eq_true_eq, hfail, if_false]
  exact ⟨_, rfl⟩

/-- A started block is later than the pending one, and keeps the records that it has not
passed. -/
theorem startBlock_ok {when : Nat} (h : startBlock s when = .ok s') :
    s.pending_block_time < when ∧ s'.pending_block_time = when ∧
      s'.transactions.rows = s.transactions.rows.filter fun t => !decide (when > toTimePoint t.expiration) := by
  simp only [startBlock, bind_eq_ok, eosAssert_eq_ok, decide_eq_true_eq, pure, Except.pure,
    Except.ok.injEq, exists_const] at h
  obtain ⟨hlt, rfl⟩ := h
  exact ⟨hlt, rfl, rfl⟩

variable [DecidableEq I]

/-- A recorded transaction's record is added at the end of the table. -/
theorem recordTransaction_ok {id : I} {expire : Nat} (h : recordTransaction s id expire = .ok s') :
    s'.transactions.rows = s.transactions.rows ++ [⟨id, expire⟩] ∧
      s'.pending_block_time = s.pending_block_time := by
  simp only [recordTransaction, bind_eq_ok, liftDb_eq_ok, pure, Except.pure,
    Except.ok.injEq] at h
  obtain ⟨transactions, hcreate, rfl⟩ := h
  exact ⟨rows_of_create hcreate, rfl⟩

/-- An id with a record is refused as a duplicate. -/
theorem recordTransaction_duplicate {id : I} {expire expire' : Nat}
    (hmem : (⟨id, expire'⟩ : TransactionObject I) ∈ s.transactions.rows) :
    recordTransaction s id expire = .error ⟨.tx_duplicate, "duplicate transaction ${id}"⟩ := by
  have hnone := create_of_clash (x := (⟨id, expire⟩ : TransactionObject I)) hmem rfl
  simp [recordTransaction, hnone, liftDb]

/-- A pushed transaction was within its expiration window, and its record is added. -/
theorem pushTransaction_ok {checks execution : Except Exception Unit}
    (h : pushTransaction s trx checks execution = .ok s') :
    s.pending_block_time ≤ toTimePoint trx.expiration ∧
      toTimePoint trx.expiration ≤ s.pending_block_time + toTimePoint s.max_transaction_lifetime ∧
      s'.transactions.rows = s.transactions.rows ++ [⟨trx.id, trx.expiration⟩] ∧
      s'.pending_block_time = s.pending_block_time := by
  simp only [pushTransaction, bind_eq_ok, pure, Except.pure, Except.ok.injEq] at h
  obtain ⟨u, hvalid, -, -, s₁, hrecord, -, -, rfl⟩ := h
  obtain ⟨hlow, hhigh⟩ := validateExpiration_ok.1 hvalid
  exact ⟨hlow, hhigh, recordTransaction_ok hrecord⟩

end Functions

/-! ## The record of a pushed transaction -/

variable [DecidableEq I]

/-- The record of `trx` is there, or the pending block time has passed its expiration. -/
def RecordedOrExpired (trx : InputTransaction I) (s : ControllerState I) : Prop :=
  (⟨trx.id, trx.expiration⟩ : TransactionObject I) ∈ s.transactions.rows ∨
    toTimePoint trx.expiration < s.pending_block_time

section Record

variable {s s' : ControllerState I} {trx : InputTransaction I}

/-- Every step keeps a record until a block starts after its expiration, and block times only
grow. -/
theorem controllerStep_recordedOrExpired {r : ControllerRequest I} (hs : RecordedOrExpired trx s)
    (h : controllerStep s r = .ok s') : RecordedOrExpired trx s' := by
  cases r with
  | start_block when =>
    obtain ⟨hlt, hwhen, hrows⟩ := startBlock_ok h
    unfold RecordedOrExpired
    rw [hwhen, hrows, List.mem_filter]
    -- the record goes only with a block after its expiration
    by_cases hpassed : when > toTimePoint trx.expiration
    · exact .inr hpassed
    · rcases hs with hmem | hexp
      · exact .inl ⟨hmem, by simp [hpassed]⟩
      · exact .inr (by omega)
  | push_transaction trx' checks execution =>
    obtain ⟨-, -, hrows, hpending⟩ := pushTransaction_ok h
    unfold RecordedOrExpired
    rw [hrows, hpending, List.mem_append]
    exact hs.imp_left .inl
  | set_max_transaction_lifetime max_transaction_lifetime =>
    cases h
    exact hs

/-- Along any run, a record stays until a block starts after its expiration. -/
theorem run_recordedOrExpired (reqs : List (ControllerRequest I)) (hs : RecordedOrExpired trx s) :
    RecordedOrExpired trx (Machine.run controllerStep s reqs) :=
  Machine.run_invariant (RecordedOrExpired trx)
    (fun _ _ _ hs h => controllerStep_recordedOrExpired hs h) reqs hs

/-- A transaction with a record, or past its expiration, is refused: as a duplicate when the
checks before `record_transaction` pass, as expired once its expiration has passed. -/
theorem pushTransaction_refused (hs : RecordedOrExpired trx s)
    (checks execution : Except Exception Unit) :
    ∃ e, pushTransaction s trx checks execution = .error e ∧
      (validateExpiration s trx = .ok () → checks = .ok () → e.kind = .tx_duplicate) ∧
      (toTimePoint trx.expiration < s.pending_block_time → e.kind = .expired_tx_exception) := by
  by_cases hexp : toTimePoint trx.expiration < s.pending_block_time
  · -- `validate_expiration` comes first
    obtain ⟨msg, hvalid⟩ := validateExpiration_expired hexp
    refine ⟨⟨.expired_tx_exception, msg⟩, by simp [pushTransaction, hvalid, bind, Except.bind],
      fun h => ?_, fun _ => rfl⟩
    rw [hvalid] at h
    cases h
  have hmem : (⟨trx.id, trx.expiration⟩ : TransactionObject I) ∈ s.transactions.rows :=
    hs.resolve_right hexp
  cases hvalid : validateExpiration s trx with
  | error e =>
    exact ⟨e, by simp [pushTransaction, hvalid, bind, Except.bind], (fun h => by cases h),
      fun h => absurd h hexp⟩
  | ok u =>
    cases hchecks : checks with
    | error e =>
      exact ⟨e, by simp [pushTransaction, hvalid, bind, Except.bind],
        (fun _ h => by cases h), fun h => absurd h hexp⟩
    | ok v =>
      -- both checks pass, and the record refuses the id
      refine ⟨⟨.tx_duplicate, "duplicate transaction ${id}"⟩, ?_, fun _ _ => rfl,
        fun h => absurd h hexp⟩
      have hdup : recordTransaction s trx.id trx.expiration =
          .error ⟨.tx_duplicate, "duplicate transaction ${id}"⟩ := recordTransaction_duplicate hmem
      simp [pushTransaction, hvalid, hdup, bind, Except.bind]

end Record

/-! ## Along a chain -/

/-- After a successful push of an input transaction, along every later run of blocks, pushes and
parameter changes: the transaction was within its expiration window when pushed; its record
stands as long as the pending block time has not passed its expiration; and every later push of
it fails and changes nothing, with `tx_duplicate` when the checks before `record_transaction`
pass, and with `expired_tx_exception` once its expiration has passed. -/
theorem replay_protection {s s₁ : ControllerState I} {trx : InputTransaction I}
    {checks execution : Except Exception Unit}
    (h : pushTransaction s trx checks execution = .ok s₁) (reqs : List (ControllerRequest I)) :
    let t := Machine.run controllerStep s₁ reqs
    s.pending_block_time ≤ toTimePoint trx.expiration ∧
      toTimePoint trx.expiration ≤ s.pending_block_time + toTimePoint s.max_transaction_lifetime ∧
      (t.pending_block_time ≤ toTimePoint trx.expiration →
        (⟨trx.id, trx.expiration⟩ : TransactionObject I) ∈ t.transactions.rows) ∧
      ∀ checks' execution', ∃ e, pushTransaction t trx checks' execution' = .error e ∧
        Machine.commit controllerStep t (.push_transaction trx checks' execution') = t ∧
        (validateExpiration t trx = .ok () → checks' = .ok () → e.kind = .tx_duplicate) ∧
        (toTimePoint trx.expiration < t.pending_block_time → e.kind = .expired_tx_exception) := by
  intro t
  obtain ⟨hlow, hhigh, hrows, -⟩ := pushTransaction_ok h
  -- the push leaves the record, and the run keeps it until the expiration passes
  have hrec : RecordedOrExpired trx s₁ := by
    left
    rw [hrows]
    exact List.mem_append_right _ (List.mem_singleton_self _)
  have ht : RecordedOrExpired trx t := run_recordedOrExpired reqs hrec
  refine ⟨hlow, hhigh, fun hle => ht.resolve_right (Nat.not_lt.2 hle), fun checks' execution' => ?_⟩
  obtain ⟨e, hpush, hdup, hexp⟩ := pushTransaction_refused ht checks' execution'
  exact ⟨e, hpush, Machine.commit_of_error hpush, hdup, hexp⟩

/-- A transaction that expires an hour after the pending block time, pushed with every other
check passing, keeps its record in the next block. -/
theorem replay_protection_first_push :
    let s₀ : ControllerState Nat := ⟨.empty, 1000000, 3600⟩
    let s₁ := Machine.run controllerStep s₀ [.push_transaction ⟨7, 3601⟩ (.ok ()) (.ok ())]
    pushTransaction s₀ ⟨7, 3601⟩ (.ok ()) (.ok ()) = .ok s₁ ∧
      (⟨7, 3601⟩ : TransactionObject Nat) ∈
        (Machine.run controllerStep s₁ [.start_block 2000000]).transactions.rows := by
  intro s₀ s₁
  have h : pushTransaction s₀ ⟨7, 3601⟩ (.ok ()) (.ok ()) = .ok s₁ := by decide
  exact ⟨h, (replay_protection h [.start_block 2000000]).2.2.1 (by decide)⟩

set_option maxRecDepth 4096 in
/-- The same transaction after `max_transaction_lifetime` is lowered to a minute: its record
stands and its expiration has not passed, but `validate_expiration` refuses it as too far ahead
before `record_transaction` can refuse it as a duplicate. -/
theorem replay_push_expiration_too_far :
    let t := Machine.run controllerStep (⟨.empty, 1000000, 3600⟩ : ControllerState Nat)
      [.push_transaction ⟨7, 3601⟩ (.ok ()) (.ok ()), .set_max_transaction_lifetime 60,
        .start_block 2000000]
    (⟨7, 3601⟩ : TransactionObject Nat) ∈ t.transactions.rows ∧
      t.pending_block_time ≤ toTimePoint 3601 ∧
      pushTransaction t ⟨7, 3601⟩ (.ok ()) (.ok ()) = .error ⟨.tx_exp_too_far_exception,
        "Transaction expiration is too far in the future relative to the reference time of ${reference_time}, expiration is $\x7btrx.expiration\x7d and the maximum transaction lifetime is ${max_til_exp} seconds"⟩ := by
  decide

end InfraBlockchain.Controller
