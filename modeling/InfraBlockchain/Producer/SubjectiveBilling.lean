import InfraBlockchain.Resource.Accumulator
import InfraBlockchain.Lib.IndexedTable
import InfraBlockchain.Lib.FlatMap
import InfraBlockchain.Lib.Machine

/-!
# Subjective billing

`subjective_billing` (`subjective_billing.hpp`) is what the producer charges an account for the CPU
time of its transactions that are not yet in a block. The same bill is kept in three places: the
transaction cache, one entry per transaction id with its account, bill and expiry; the account
cache, the sum of the account's pending bills and a decaying accumulator of its expired and failed
ones; and the block cache, the part of the pending bills that the block being built already
charges. `get_subjective_bill` reads the account's pending bills less those in the block, plus the
accumulator.

Along every run of its calls, the pending bills of an account are the sum of the bills of its cached
transactions (`Bookkeeping`), as long as the bills given to it total less than `2^64`: a subtraction
never wraps, and an account's entry is erased only when nothing is left of it. The accumulator
never holds more than the bills moved into it, and decays to zero a window after its last slot.
An expiry moves the bills of the expired transactions from the pending bills into the accumulator
at the slot of the call (`removeExpired_moves`). When the block's bills are bills of cached
transactions, `get_subjective_bill` returns the account's other pending bills and the
accumulator's value, but narrowed to the `uint32_t` that it returns: past `2^32` microseconds it
wraps.

Accounts and transaction ids are any types with equality. `fc::time_point` and `fc::microseconds`
are `Int64` counts of microseconds. The maps are lists of pairs (`FlatMap`), the transaction cache
a table unique in the id (`IndexedTable`), kept in the order of insertion, and the order of the
`by_expiry` index is that list sorted stably by expiry. The deadline of `remove_expired` is read
from a clock, one reading per iteration.
-/

namespace InfraBlockchain.Producer

open Resource

/-- `subjective_billing::subjective_time_interval_ms`. -/
def subjectiveTimeIntervalMs : Nat := 5000

/-- `config::account_cpu_usage_average_window_ms`. -/
def accountCpuUsageAverageWindowMs : Nat := 24 * 60 * 60 * 1000

/-- `subjective_billing::expired_accumulator_average_window`, in intervals. -/
def expiredAccumulatorAverageWindow : UInt32 :=
  (accountCpuUsageAverageWindowMs / subjectiveTimeIntervalMs).toUInt32

/-- `time_ordinal_for(t)`: the interval of a time. The signed count of microseconds is divided by
an unsigned number, so it is read as unsigned. -/
def timeOrdinalFor (t : Int64) : Except Exception UInt32 := do
  let ordinal := t.toUInt64.toNat / (1000 * subjectiveTimeIntervalMs)
  eosAssert (ordinal ≤ 2 ^ 32 - 1) .tx_resource_exhaustion
    "overflow of quantized time in subjective billing"
  pure ordinal.toUInt32

/-- `std::max<int64_t>(0, elapsed.count())`, narrowed to the `uint32_t` bill. -/
def billOf (elapsed : Int64) : UInt32 := (if 0 < elapsed then elapsed else 0).toUInt64.toUInt32

/-- `trx_cache_entry`. -/
structure TrxCacheEntry (ι α : Type) where
  /-- The transaction billed. -/
  trx_id : ι
  /-- The account billed. -/
  account : α
  /-- The bill, in microseconds. -/
  subjective_cpu_bill : UInt32
  /-- When the entry expires. -/
  expiry : Int64
  deriving DecidableEq, Repr

/-- Two entries clash in the `by_id` index when they have one id. -/
def TrxCacheEntry.clash {ι α : Type} (e e' : TrxCacheEntry ι α) : Prop := e.trx_id = e'.trx_id

instance {ι α : Type} [DecidableEq ι] : DecidableRel (@TrxCacheEntry.clash ι α) :=
  fun e e' => inferInstanceAs (Decidable (e.trx_id = e'.trx_id))

section Bills

variable {ι α : Type}

/-- The sum of the bills of entries. -/
def billSum (l : List (TrxCacheEntry ι α)) : Nat :=
  (l.map fun e => e.subjective_cpu_bill.toNat).sum

@[simp] theorem billSum_nil : billSum ([] : List (TrxCacheEntry ι α)) = 0 := rfl

@[simp] theorem billSum_cons (e : TrxCacheEntry ι α) (l : List (TrxCacheEntry ι α)) :
    billSum (e :: l) = e.subjective_cpu_bill.toNat + billSum l := by
  simp [billSum]

@[simp] theorem billSum_append (l l' : List (TrxCacheEntry ι α)) :
    billSum (l ++ l') = billSum l + billSum l' := by
  simp [billSum]

/-- The sum of bills does not depend on their order. -/
theorem billSum_perm {l l' : List (TrxCacheEntry ι α)} (h : l.Perm l') : billSum l = billSum l' :=
  (h.map _).sum_eq

/-- A sublist has a smaller sum. -/
theorem billSum_le_of_sublist {l l' : List (TrxCacheEntry ι α)} (h : l.Sublist l') :
    billSum l ≤ billSum l' :=
  (h.map _).sum_le_sum fun _ _ => Nat.zero_le _

/-- Each bill is at most the sum. -/
theorem le_billSum {e : TrxCacheEntry ι α} {l : List (TrxCacheEntry ι α)} (h : e ∈ l) :
    e.subjective_cpu_bill.toNat ≤ billSum l :=
  List.le_sum_of_mem (List.mem_map_of_mem h)

end Bills

/-- `subjective_billing_info`: the bills of the account's transactions that may still be in a
block, and the accumulator of its expired and failed ones. -/
structure SubjectiveBillingInfo where
  /-- The bills of the account's transactions still pending. -/
  pending_cpu_us : UInt64 := 0
  /-- The decaying average of its expired bills. -/
  expired_accumulator : ExponentialDecayAccumulator := {}
  deriving DecidableEq, Repr

/-- `subjective_billing_info::empty(time_ordinal)`. The accumulator is read only when nothing is
pending. -/
def SubjectiveBillingInfo.empty (info : SubjectiveBillingInfo) (time_ordinal : UInt32) :
    Except Exception Bool :=
  if info.pending_cpu_us = 0 then do
    let value ← info.expired_accumulator.valueAt time_ordinal expiredAccumulatorAverageWindow
    pure (value = 0)
  else pure false

/-- The transaction of a receipt: the id of a deferred transaction, or a packed transaction, of
which only the id is read. -/
inductive ReceiptTrx (ι : Type)
  | transaction_id (id : ι)
  | packed_transaction (id : ι)
  deriving DecidableEq, Repr

/-- `subjective_billing`. -/
structure SubjectiveBilling (ι α : Type) where
  /-- `_disabled`. -/
  disabled : Bool
  /-- `_trx_cache_index`. -/
  trx_cache_index : IndexedTable (TrxCacheEntry ι α) TrxCacheEntry.clash
  /-- `_account_subjective_bill_cache`. -/
  account_subjective_bill_cache : List (α × SubjectiveBillingInfo)
  /-- `_block_subjective_bill_cache`. -/
  block_subjective_bill_cache : List (α × UInt64)
  /-- `_disabled_accounts`. -/
  disabled_accounts : List α

namespace SubjectiveBilling

variable {ι α : Type} [DecidableEq ι] [DecidableEq α]

/-- A new `subjective_billing`, after `disable` and `disable_account` as configured. -/
def init (disabled : Bool) (disabled_accounts : List α) : SubjectiveBilling ι α :=
  ⟨disabled, .empty, [], [], disabled_accounts⟩

/-- `!_disabled && !_disabled_accounts.count(first_auth)`. -/
def billingEnabled (s : SubjectiveBilling ι α) (first_auth : α) : Bool :=
  !s.disabled && !decide (first_auth ∈ s.disabled_accounts)

/-- `_account_subjective_bill_cache[account]`: an account without an entry reads as a new one. -/
def infoOf (s : SubjectiveBilling ι α) (account : α) : SubjectiveBillingInfo :=
  (s.account_subjective_bill_cache.lookup account).getD {}

/-- `_block_subjective_bill_cache[account]`. -/
def inBlockOf (s : SubjectiveBilling ι α) (account : α) : UInt64 :=
  (s.block_subjective_bill_cache.lookup account).getD 0

/-- `remove_subjective_billing(entry, time_ordinal)`: the entry's bill leaves its account's pending
bills, and the account's entry is erased when nothing is left of it. The check that follows the
subtraction, `pending_cpu_us >= 0`, is made on an unsigned number and always passes. -/
def removeEntryBilling (s : SubjectiveBilling ι α) (entry : TrxCacheEntry ι α)
    (time_ordinal : UInt32) : Except Exception (SubjectiveBilling ι α) :=
  match s.account_subjective_bill_cache.lookup entry.account with
  | none => pure s
  | some info => do
    let info := { info with
      pending_cpu_us := info.pending_cpu_us - entry.subjective_cpu_bill.toUInt64 }
    let empty ← info.empty time_ordinal
    if empty then
      pure { s with account_subjective_bill_cache :=
        FlatMap.erase s.account_subjective_bill_cache entry.account }
    else
      pure { s with account_subjective_bill_cache :=
        FlatMap.assign s.account_subjective_bill_cache entry.account info }

/-- `transition_to_expired(entry, time_ordinal)`: the entry's bill moves from its account's pending
bills into the account's accumulator. -/
def transitionToExpired (s : SubjectiveBilling ι α) (entry : TrxCacheEntry ι α)
    (time_ordinal : UInt32) : Except Exception (SubjectiveBilling ι α) :=
  match s.account_subjective_bill_cache.lookup entry.account with
  | none => pure s
  | some info => do
    let expired_accumulator ← info.expired_accumulator.add entry.subjective_cpu_bill.toUInt64
      time_ordinal expiredAccumulatorAverageWindow
    let info := { pending_cpu_us := info.pending_cpu_us - entry.subjective_cpu_bill.toUInt64,
                  expired_accumulator : SubjectiveBillingInfo }
    pure { s with account_subjective_bill_cache :=
      FlatMap.assign s.account_subjective_bill_cache entry.account info }

/-- The cache without the entry of an id. -/
def eraseTrx (s : SubjectiveBilling ι α) (trx_id : ι) : SubjectiveBilling ι α :=
  { s with trx_cache_index := s.trx_cache_index.remove fun e => decide (e.trx_id = trx_id) }

/-- `remove_subjective_billing(trx_id, time_ordinal)`. -/
def removeSubjectiveBilling (s : SubjectiveBilling ι α) (trx_id : ι) (time_ordinal : UInt32) :
    Except Exception (SubjectiveBilling ι α) :=
  match s.trx_cache_index.find? (fun e => decide (e.trx_id = trx_id)) with
  | none => pure s
  | some entry => do
    let s ← s.removeEntryBilling entry time_ordinal
    pure (s.eraseTrx trx_id)

/-- One receipt of `remove_subjective_billing(bsp, time_ordinal)`: a packed transaction's bill is
removed. -/
def removeReceiptBilling (s : SubjectiveBilling ι α) (time_ordinal : UInt32) :
    ReceiptTrx ι → Except Exception (SubjectiveBilling ι α)
  | .packed_transaction id => s.removeSubjectiveBilling id time_ordinal
  | .transaction_id _ => pure s

/-- `remove_subjective_billing(bsp, time_ordinal)` over the receipts of the block. -/
def removeBlockBilling (s : SubjectiveBilling ι α) (transactions : List (ReceiptTrx ι))
    (time_ordinal : UInt32) : Except Exception (SubjectiveBilling ι α) :=
  if s.trx_cache_index.rows = [] then pure s
  else transactions.foldlM (fun s r => s.removeReceiptBilling time_ordinal r) s

/-- `on_block(bsp, now)`, with the receipts of the block, or none for a null block. -/
def onBlock (s : SubjectiveBilling ι α) (bsp : Option (List (ReceiptTrx ι))) (now : Int64) :
    Except Exception (SubjectiveBilling ι α) :=
  match bsp with
  | none => pure s
  | some transactions => do
    let time_ordinal ← timeOrdinalFor now
    s.removeBlockBilling transactions time_ordinal

/-- The entry of a new transaction is created unless one of its id is cached. -/
def Fresh (s : SubjectiveBilling ι α) (id : ι) : Prop :=
  ∀ r ∈ s.trx_cache_index.rows, r.trx_id ≠ id

instance (s : SubjectiveBilling ι α) (id : ι) : Decidable (s.Fresh id) :=
  inferInstanceAs (Decidable (∀ r ∈ s.trx_cache_index.rows, r.trx_id ≠ id))

/-- `subjective_bill(id, expire, first_auth, elapsed, in_pending_block)`. -/
def subjectiveBill (s : SubjectiveBilling ι α) (id : ι) (expire : Int64) (first_auth : α)
    (elapsed : Int64) (in_pending_block : Bool) : SubjectiveBilling ι α :=
  if s.billingEnabled first_auth then
    let bill := billOf elapsed
    match s.trx_cache_index.create ⟨id, first_auth, bill, expire⟩ with
    | none => s
    | some trx_cache_index =>
      let info := s.infoOf first_auth
      let info := { info with pending_cpu_us := info.pending_cpu_us + bill.toUInt64 }
      { s with
        trx_cache_index
        account_subjective_bill_cache := FlatMap.assign s.account_subjective_bill_cache first_auth info
        block_subjective_bill_cache :=
          if in_pending_block then
            FlatMap.assign s.block_subjective_bill_cache first_auth
              (s.inBlockOf first_auth + bill.toUInt64)
          else s.block_subjective_bill_cache }
  else s

/-- `subjective_bill_failure(first_auth, elapsed, now)`. -/
def subjectiveBillFailure (s : SubjectiveBilling ι α) (first_auth : α) (elapsed now : Int64) :
    Except Exception (SubjectiveBilling ι α) :=
  if s.billingEnabled first_auth then do
    let bill := billOf elapsed
    let time_ordinal ← timeOrdinalFor now
    let info := s.infoOf first_auth
    let expired_accumulator ← info.expired_accumulator.add bill.toUInt64 time_ordinal
      expiredAccumulatorAverageWindow
    let info := { info with expired_accumulator }
    pure { s with account_subjective_bill_cache :=
      FlatMap.assign s.account_subjective_bill_cache first_auth info }
  else pure s

/-- `get_subjective_bill(first_auth, now)`. The sum is taken in 64 bits and returned as the
`uint32_t` it is assigned to. -/
def getSubjectiveBill (s : SubjectiveBilling ι α) (first_auth : α) (now : Int64) :
    Except Exception UInt32 :=
  if s.billingEnabled first_auth then do
    let time_ordinal ← timeOrdinalFor now
    let in_block_pending_cpu_us := s.inBlockOf first_auth
    match s.account_subjective_bill_cache.lookup first_auth with
    | none => pure 0
    | some sub_bill_info => do
      eosAssert (sub_bill_info.pending_cpu_us ≥ in_block_pending_cpu_us) .tx_resource_exhaustion
        "Logic error subjective billing ${a}"
      let value ← sub_bill_info.expired_accumulator.valueAt time_ordinal
        expiredAccumulatorAverageWindow
      pure (sub_bill_info.pending_cpu_us - in_block_pending_cpu_us + value).toUInt32
  else pure 0

/-- `abort_block()`. -/
def abortBlock (s : SubjectiveBilling ι α) : SubjectiveBilling ι α :=
  { s with block_subjective_bill_cache := [] }

/-- The entries in the order of the `by_expiry` index: by expiry, and entries of one expiry in the
order of insertion. -/
def byExpiry (s : SubjectiveBilling ι α) : List (TrxCacheEntry ι α) :=
  s.trx_cache_index.rows.mergeSort fun e e' => decide (e.expiry ≤ e'.expiry)

/-- The loop of `remove_expired`, over the entries left in the `by_expiry` order, with the number
of iterations so far: it returns whether the deadline was reached, and the state. -/
def removeExpiredLoop (pending_block_time deadline : Int64) (clock : Nat → Int64)
    (time_ordinal : UInt32) :
    Nat → List (TrxCacheEntry ι α) → SubjectiveBilling ι α →
      Except Exception (Bool × SubjectiveBilling ι α)
  | _, [], s => pure (false, s)
  | n, b :: rest, s =>
    if deadline ≤ clock n then pure (true, s)
    else if b.expiry > pending_block_time then pure (false, s)
    else do
      let s ← s.transitionToExpired b time_ordinal
      removeExpiredLoop pending_block_time deadline clock time_ordinal (n + 1) rest
        (s.eraseTrx b.trx_id)

/-- `remove_expired(log, pending_block_time, now, deadline)`: whether every expired transaction
was processed before the deadline, and the state. -/
def removeExpired (s : SubjectiveBilling ι α) (pending_block_time now deadline : Int64)
    (clock : Nat → Int64) : Except Exception (Bool × SubjectiveBilling ι α) :=
  if s.trx_cache_index.rows = [] then pure (true, s)
  else do
    let time_ordinal ← timeOrdinalFor now
    let r ← removeExpiredLoop pending_block_time deadline clock time_ordinal 0 s.byExpiry s
    pure (!r.1, r.2)

end SubjectiveBilling

/-- The calls of `subjective_billing` that change it. -/
inductive BillingCall (ι α : Type)
  | subjective_bill (id : ι) (expire : Int64) (first_auth : α) (elapsed : Int64)
      (in_pending_block : Bool)
  | subjective_bill_failure (first_auth : α) (elapsed now : Int64)
  | on_block (bsp : Option (List (ReceiptTrx ι))) (now : Int64)
  | remove_subjective_billing (trx_id : ι) (time_ordinal : UInt32)
  | remove_expired (pending_block_time now deadline : Int64) (clock : Nat → Int64)
  | abort_block

open SubjectiveBilling

variable {ι α : Type} [DecidableEq ι] [DecidableEq α]

/-- One call: the state after it, or the exception it raises, before any change. -/
def billingStep (s : SubjectiveBilling ι α) : BillingCall ι α → Except Exception (SubjectiveBilling ι α)
  | .subjective_bill id expire first_auth elapsed in_pending_block =>
    pure (s.subjectiveBill id expire first_auth elapsed in_pending_block)
  | .subjective_bill_failure first_auth elapsed now => s.subjectiveBillFailure first_auth elapsed now
  | .on_block bsp now => s.onBlock bsp now
  | .remove_subjective_billing trx_id time_ordinal => s.removeSubjectiveBilling trx_id time_ordinal
  | .remove_expired pending_block_time now deadline clock =>
    Prod.snd <$> s.removeExpired pending_block_time now deadline clock
  | .abort_block => pure s.abortBlock

/-! ## The bills of the cache -/

namespace SubjectiveBilling

/-- The cached entries of an account, in the order of insertion. -/
def entriesOf (s : SubjectiveBilling ι α) (a : α) : List (TrxCacheEntry ι α) :=
  s.trx_cache_index.rows.filter fun e => decide (e.account = a)

/-- Erasing the id of a cached entry leaves the cache without exactly that entry: the ids are
unique. -/
theorem perm_eraseTrx {s : SubjectiveBilling ι α} {b : TrxCacheEntry ι α}
    (hb : b ∈ s.trx_cache_index.rows) :
    (b :: (s.eraseTrx b.trx_id).trx_cache_index.rows).Perm s.trx_cache_index.rows := by
  have hperm := List.perm_cons_erase hb
  have hunique : (b :: s.trx_cache_index.rows.erase b).Pairwise fun x y => ¬ x.clash y :=
    hperm.pairwise s.trx_cache_index.no_clash fun h h' => h h'.symm
  have hfresh : ∀ e ∈ s.trx_cache_index.rows.erase b, e.trx_id ≠ b.trx_id :=
    fun e he h => (List.pairwise_cons.1 hunique).1 e he h.symm
  have hfilter : ((s.eraseTrx b.trx_id).trx_cache_index.rows).Perm
      (s.trx_cache_index.rows.erase b) := by
    rw [eraseTrx, IndexedTable.rows_remove]
    refine (hperm.filter _).trans ?_
    rw [List.filter_cons_of_neg (by simp), List.filter_eq_self.2 (fun e he => by simpa using hfresh e he)]
  exact (hfilter.cons b).trans hperm.symm

/-- Erasing the id of a cached entry takes its bill from its account's entries. -/
theorem billSum_eraseTrx {s : SubjectiveBilling ι α} {b : TrxCacheEntry ι α}
    (hb : b ∈ s.trx_cache_index.rows) (a : α) :
    billSum ((s.eraseTrx b.trx_id).entriesOf a) +
        (if b.account = a then b.subjective_cpu_bill.toNat else 0) = billSum (s.entriesOf a) := by
  rw [entriesOf, entriesOf, ← billSum_perm ((perm_eraseTrx hb).filter _), List.filter_cons]
  by_cases hba : b.account = a
  · simp only [hba, decide_true, if_true, billSum_cons]
    omega
  · simp only [hba, decide_false, Bool.false_eq_true, if_false, Nat.add_zero]

/-- Erasing a transaction keeps a sublist of each account's entries. -/
theorem entriesOf_eraseTrx_sublist (s : SubjectiveBilling ι α) (trx_id : ι) (a : α) :
    ((s.eraseTrx trx_id).entriesOf a).Sublist (s.entriesOf a) := by
  rw [entriesOf, entriesOf, eraseTrx, IndexedTable.rows_remove]
  exact List.filter_sublist.filter _

@[simp] theorem infoOf_eraseTrx (s : SubjectiveBilling ι α) (trx_id : ι) (a : α) :
    (s.eraseTrx trx_id).infoOf a = s.infoOf a := rfl

@[simp] theorem billingEnabled_eraseTrx (s : SubjectiveBilling ι α) (trx_id : ι) (a : α) :
    (s.eraseTrx trx_id).billingEnabled a = s.billingEnabled a := rfl

@[simp] theorem inBlockOf_eraseTrx (s : SubjectiveBilling ι α) (trx_id : ι) (a : α) :
    (s.eraseTrx trx_id).inBlockOf a = s.inBlockOf a := rfl

/-! ## Changes to one account -/

/-- `s'` is `s` with at most the entry of the account `k` changed in the account cache. -/
structure AccountUpdate (s s' : SubjectiveBilling ι α) (k : α) : Prop where
  /-- Only the account cache changes. -/
  eq_with : s' = { s with account_subjective_bill_cache := s'.account_subjective_bill_cache }
  /-- Other accounts keep their entries. -/
  infoOf_of_ne : ∀ a, a ≠ k → s'.infoOf a = s.infoOf a

omit [DecidableEq ι] in
/-- Changing nothing is an update of any account. -/
theorem AccountUpdate.refl (s : SubjectiveBilling ι α) (k : α) : AccountUpdate s s k :=
  ⟨rfl, fun _ _ => rfl⟩

omit [DecidableEq ι] in
/-- An account update keeps the transaction cache. -/
theorem AccountUpdate.trx_cache_index {s s' : SubjectiveBilling ι α} {k : α}
    (h : AccountUpdate s s' k) : s'.trx_cache_index = s.trx_cache_index := by
  have h' := congrArg SubjectiveBilling.trx_cache_index h.eq_with
  exact h'

omit [DecidableEq ι] in
/-- An account update keeps the entries of every account. -/
theorem AccountUpdate.entriesOf {s s' : SubjectiveBilling ι α} {k : α}
    (h : AccountUpdate s s' k) (a : α) : s'.entriesOf a = s.entriesOf a := by
  rw [SubjectiveBilling.entriesOf, SubjectiveBilling.entriesOf, h.trx_cache_index]

omit [DecidableEq ι] in
/-- An account update keeps which accounts are billed. -/
theorem AccountUpdate.billingEnabled {s s' : SubjectiveBilling ι α} {k : α}
    (h : AccountUpdate s s' k) (a : α) : s'.billingEnabled a = s.billingEnabled a := by
  rw [h.eq_with]
  rfl

omit [DecidableEq ι] in
/-- An account update keeps the bills of the block. -/
theorem AccountUpdate.inBlockOf {s s' : SubjectiveBilling ι α} {k : α}
    (h : AccountUpdate s s' k) (a : α) : s'.inBlockOf a = s.inBlockOf a := by
  rw [h.eq_with]
  rfl

/-- `info'` is `info` with `moved` of its pending bills moved into its accumulator at a slot: the
pending bills lose it, and the value read at the slot gains it, up to the saturation. -/
structure MovedInto (info info' : SubjectiveBillingInfo) (time_ordinal : UInt32) (moved : Nat) :
    Prop where
  /-- The pending bills lose `moved`. -/
  pending_eq : info'.pending_cpu_us = info.pending_cpu_us - moved.toUInt64
  /-- The accumulated value gains at most `moved`. -/
  value_ex_le : info'.expired_accumulator.value_ex.toNat ≤
    info.expired_accumulator.value_ex.toNat + moved * rateLimitingPrecision
  /-- The value read at the slot gains `moved`, saturated. -/
  valueExAt_eq : ∀ v, info.expired_accumulator.valueExAt time_ordinal
      expiredAccumulatorAverageWindow = .ok v →
    info'.expired_accumulator.valueExAt time_ordinal expiredAccumulatorAverageWindow =
      .ok (min (v.toNat + moved * rateLimitingPrecision) (2 ^ 64 - 1)).toUInt64

/-- Moving nothing. -/
theorem MovedInto.refl (info : SubjectiveBillingInfo) (time_ordinal : UInt32) :
    MovedInto info info time_ordinal 0 := by
  refine ⟨by simp, by simp, fun v hv => ?_⟩
  have hlt := UInt64.toNat_lt v
  rw [hv, Nat.zero_mul, Nat.add_zero, Nat.min_eq_left (by omega)]
  simp

/-- Moves at one slot add up. -/
theorem MovedInto.trans {info info' info'' : SubjectiveBillingInfo} {time_ordinal : UInt32}
    {m m' : Nat} (h : MovedInto info info' time_ordinal m)
    (h' : MovedInto info' info'' time_ordinal m') : MovedInto info info'' time_ordinal (m + m') := by
  refine ⟨?_, ?_, fun v hv => ?_⟩
  · rw [h'.pending_eq, h.pending_eq, Nat.toUInt64_eq, Nat.toUInt64_eq, Nat.toUInt64_eq,
      UInt64.ofNat_add, sub_sub]
  · have := h.value_ex_le
    have := h'.value_ex_le
    rw [Nat.add_mul]
    omega
  · rw [h'.valueExAt_eq _ (h.valueExAt_eq v hv), Nat.toUInt64_eq, UInt64.toNat_ofNat',
      Nat.mod_eq_of_lt (by omega), Nat.add_mul]
    congr 2
    omega

/-! ## The account cache's operations -/

/-- An account's entry reads as empty only when nothing is pending; the check always succeeds. -/
theorem empty_spec (info : SubjectiveBillingInfo) (time_ordinal : UInt32) :
    ∃ e, info.empty time_ordinal = .ok e ∧ (e = true → info.pending_cpu_us = 0) := by
  unfold SubjectiveBillingInfo.empty
  by_cases h : info.pending_cpu_us = 0
  · obtain ⟨r, hr, -⟩ := info.expired_accumulator.valueAt_le_of_le
      (Nat.le_mul_of_pos_left _ (show 0 < rateLimitingPrecision by decide)) time_ordinal
      expiredAccumulatorAverageWindow
    exact ⟨decide (r = 0), by rw [if_pos h, hr, ok_bind]; rfl, fun _ => h⟩
  · exact ⟨false, by rw [if_neg h]; rfl, nofun⟩

omit [DecidableEq ι] in
/-- An account without an entry reads as a new one. -/
theorem infoOf_of_lookup_none {s : SubjectiveBilling ι α} {a : α}
    (h : s.account_subjective_bill_cache.lookup a = none) : s.infoOf a = {} := by
  rw [infoOf, h, Option.getD_none]

omit [DecidableEq ι] [DecidableEq α] in
/-- The bill of a cached entry, narrowed to `uint32_t` and widened again, is the bill. -/
theorem subjective_cpu_bill_toUInt64 (b : TrxCacheEntry ι α) :
    b.subjective_cpu_bill.toUInt64 = b.subjective_cpu_bill.toNat.toUInt64 := by
  simp

omit [DecidableEq ι] in
/-- `remove_subjective_billing(entry, time_ordinal)` succeeds and changes the entry of the entry's
account only: the pending bills lose the entry's bill, unless the account has no entry, and the
accumulator is kept, or erased with the account's entry. -/
theorem removeEntryBilling_spec (s : SubjectiveBilling ι α) (b : TrxCacheEntry ι α)
    (time_ordinal : UInt32) :
    ∃ s', s.removeEntryBilling b time_ordinal = .ok s' ∧ AccountUpdate s s' b.account ∧
      (s'.infoOf b.account).pending_cpu_us = (s.infoOf b.account).pending_cpu_us -
        (if (s.account_subjective_bill_cache.lookup b.account).isSome then
          b.subjective_cpu_bill.toNat else 0).toUInt64 ∧
      (s'.infoOf b.account).expired_accumulator.value_ex.toNat ≤
        (s.infoOf b.account).expired_accumulator.value_ex.toNat := by
  unfold removeEntryBilling
  cases hlook : s.account_subjective_bill_cache.lookup b.account with
  | none => exact ⟨s, rfl, .refl s _, by simp, le_refl _⟩
  | some info =>
    have hinfo : s.infoOf b.account = info := by rw [infoOf, hlook, Option.getD_some]
    obtain ⟨e, he, hzero⟩ := empty_spec
      { info with pending_cpu_us := info.pending_cpu_us - b.subjective_cpu_bill.toUInt64 }
      time_ordinal
    dsimp only
    rw [he, ok_bind]
    cases e with
    | true =>
      -- the account's entry is erased: nothing was left of it
      have hpending := hzero rfl
      refine ⟨_, rfl, ⟨rfl, fun a ha => ?_⟩, ?_, ?_⟩
      · simp [infoOf, FlatMap.lookup_erase, ha]
      · simp only [infoOf, FlatMap.lookup_erase, if_true, Option.getD_none, hlook,
          Option.getD_some, Option.isSome_some]
        rw [← subjective_cpu_bill_toUInt64, ← hpending]
      · simp [infoOf, FlatMap.lookup_erase]
    | false =>
      refine ⟨_, rfl, ⟨rfl, fun a ha => ?_⟩, ?_, ?_⟩
      · simp [infoOf, FlatMap.lookup_assign, ha]
      · simp only [infoOf, FlatMap.lookup_assign, if_true, hlook, Option.getD_some,
          Option.isSome_some]
        rw [← subjective_cpu_bill_toUInt64]
      · simp only [infoOf, FlatMap.lookup_assign, if_true, hlook, Option.getD_some]
        exact le_refl _

omit [DecidableEq ι] in
/-- An expiry of an entry moves its bill into its account's accumulator, unless the account has no
entry, and changes nothing else. -/
theorem transitionToExpired_spec (s : SubjectiveBilling ι α) (b : TrxCacheEntry ι α)
    (time_ordinal : UInt32) :
    ∃ s', s.transitionToExpired b time_ordinal = .ok s' ∧ AccountUpdate s s' b.account ∧
      MovedInto (s.infoOf b.account) (s'.infoOf b.account) time_ordinal
        (if (s.account_subjective_bill_cache.lookup b.account).isSome then
          b.subjective_cpu_bill.toNat else 0) := by
  unfold transitionToExpired
  cases hlook : s.account_subjective_bill_cache.lookup b.account with
  | none => exact ⟨s, rfl, .refl s _, by simpa using MovedInto.refl _ time_ordinal⟩
  | some info =>
    have hunits : b.subjective_cpu_bill.toUInt64.toNat ≤ maxRawValue := by
      have := UInt32.toNat_lt b.subjective_cpu_bill
      rw [UInt32.toNat_toUInt64]
      exact this.le.trans (by decide)
    obtain ⟨v, acc, hv, hadd, hlast, hvalue⟩ := info.expired_accumulator.add_spec time_ordinal
      expiredAccumulatorAverageWindow hunits
    obtain ⟨v', hv', hle⟩ := info.expired_accumulator.valueExAt_le time_ordinal
      expiredAccumulatorAverageWindow
    rw [hv, Except.ok.injEq] at hv'
    subst hv'
    dsimp only
    rw [hadd, ok_bind]
    refine ⟨_, rfl, ⟨rfl, fun a ha => by simp [infoOf, FlatMap.lookup_assign, ha]⟩, ?_⟩
    rw [UInt32.toNat_toUInt64] at hvalue
    simp only [infoOf, FlatMap.lookup_assign, if_true, Option.getD_some, hlook, Option.isSome_some]
    refine ⟨subjective_cpu_bill_toUInt64 b ▸ rfl, by dsimp only; omega, fun w hw => ?_⟩
    rw [hv, Except.ok.injEq] at hw
    subst hw
    rw [ExponentialDecayAccumulator.valueExAt_of_le hlast, Except.ok.injEq]
    apply UInt64.toNat_inj.1
    rw [hvalue, Nat.toUInt64_eq, UInt64.toNat_ofNat', Nat.mod_eq_of_lt (by omega)]
    omega

/-! ## The bookkeeping invariant -/

/-- The billing of an account is in order: its pending bills are the bills of its cached entries,
and an account whose billing is disabled has neither cached entries nor an entry of its own. -/
structure Bookkeeping (s : SubjectiveBilling ι α) (a : α) : Prop where
  /-- The pending bills are the bills of the cached entries. -/
  pending_eq : (s.infoOf a).pending_cpu_us.toNat = billSum (s.entriesOf a)
  /-- A disabled account has neither. -/
  clear_of_disabled : s.billingEnabled a = false → s.entriesOf a = [] ∧ s.infoOf a = {}

omit [DecidableEq ι] in
/-- An account without an entry has no bills cached but bills of zero. -/
theorem Bookkeeping.billSum_eq_zero {s : SubjectiveBilling ι α} {a : α} (h : Bookkeeping s a)
    (hnone : s.account_subjective_bill_cache.lookup a = none) : billSum (s.entriesOf a) = 0 := by
  rw [← h.pending_eq, infoOf_of_lookup_none hnone]
  rfl

/-- Taking a cached entry's bill from its account's pending bills, unless the account has no entry,
and erasing the entry keeps the bookkeeping: the bill was part of the pending bills. -/
theorem Bookkeeping.eraseTrx {s s₁ : SubjectiveBilling ι α} {b : TrxCacheEntry ι α} {a : α}
    (h : Bookkeeping s a) (hb : b ∈ s.trx_cache_index.rows) (hu : AccountUpdate s s₁ b.account)
    (hpending : (s₁.infoOf b.account).pending_cpu_us = (s.infoOf b.account).pending_cpu_us -
      (if (s.account_subjective_bill_cache.lookup b.account).isSome then
        b.subjective_cpu_bill.toNat else 0).toUInt64) :
    Bookkeeping (s₁.eraseTrx b.trx_id) a := by
  have hsum := billSum_eraseTrx (hu.trx_cache_index ▸ hb : b ∈ s₁.trx_cache_index.rows) a
  rw [hu.entriesOf] at hsum
  constructor
  · rw [infoOf_eraseTrx]
    by_cases hba : b.account = a
    · subst hba
      rw [if_pos rfl] at hsum
      have hmem : b ∈ s.entriesOf b.account := List.mem_filter.2 ⟨hb, decide_eq_true rfl⟩
      have hle := h.pending_eq ▸ le_billSum hmem
      rw [hpending]
      split
      · -- the bill leaves the pending bills, of which it is a part
        have hbill := UInt32.toNat_lt b.subjective_cpu_bill
        rw [UInt64.toNat_sub_of_le, Nat.toUInt64_eq, UInt64.toNat_ofNat', Nat.mod_eq_of_lt (by omega),
          h.pending_eq]
        · omega
        · rw [UInt64.le_iff_toNat_le, Nat.toUInt64_eq, UInt64.toNat_ofNat', Nat.mod_eq_of_lt (by omega)]
          exact hle
      · -- an account without an entry has bills of zero only
        rename_i hnone
        have hzero := h.billSum_eq_zero (Option.not_isSome_iff_eq_none.1 hnone)
        rw [show (0 : Nat).toUInt64 = 0 from rfl, sub_zero, h.pending_eq]
        omega
    · rw [if_neg hba, Nat.add_zero] at hsum
      rw [hu.infoOf_of_ne a (Ne.symm hba), h.pending_eq, hsum]
  · intro hdis
    rw [billingEnabled_eraseTrx, hu.billingEnabled] at hdis
    obtain ⟨hnil, hinfo⟩ := h.clear_of_disabled hdis
    -- the entry is not the account's, which has none
    have hba : b.account ≠ a := fun hba =>
      List.not_mem_nil (hnil ▸ List.mem_filter.2 ⟨hb, decide_eq_true hba⟩ : b ∈ ([] : List _))
    refine ⟨List.eq_nil_of_sublist_nil ?_, ?_⟩
    · rw [← hnil, ← hu.entriesOf]
      exact entriesOf_eraseTrx_sublist _ _ _
    · rw [infoOf_eraseTrx, hu.infoOf_of_ne a (Ne.symm hba), hinfo]

/-! ## Removing bills -/

/-- `s'` caches at most the bills of `a` that `s` caches, and holds at most its accumulated
value. -/
structure Shrinks (s s' : SubjectiveBilling ι α) (a : α) : Prop where
  /-- Fewer bills. -/
  billSum_le : billSum (s'.entriesOf a) ≤ billSum (s.entriesOf a)
  /-- No more accumulated value. -/
  value_ex_le : (s'.infoOf a).expired_accumulator.value_ex.toNat ≤
    (s.infoOf a).expired_accumulator.value_ex.toNat

omit [DecidableEq ι] in
/-- Every state shrinks to itself. -/
theorem Shrinks.refl (s : SubjectiveBilling ι α) (a : α) : Shrinks s s a :=
  ⟨le_refl _, le_refl _⟩

omit [DecidableEq ι] in
/-- Shrinking is transitive. -/
theorem Shrinks.trans {s s' s'' : SubjectiveBilling ι α} {a : α} (h : Shrinks s s' a)
    (h' : Shrinks s' s'' a) : Shrinks s s'' a :=
  ⟨h'.billSum_le.trans h.billSum_le, h'.value_ex_le.trans h.value_ex_le⟩

/-- `remove_subjective_billing(trx_id, time_ordinal)` does nothing when no entry has the id, and
otherwise removes the entry's bill from its account and erases the entry. -/
theorem removeSubjectiveBilling_cases {s s' : SubjectiveBilling ι α} {trx_id : ι}
    {time_ordinal : UInt32} (h : s.removeSubjectiveBilling trx_id time_ordinal = .ok s') :
    s' = s ∨ ∃ b ∈ s.trx_cache_index.rows, b.trx_id = trx_id ∧
      ∃ s₁, s.removeEntryBilling b time_ordinal = .ok s₁ ∧ s' = s₁.eraseTrx trx_id := by
  unfold removeSubjectiveBilling at h
  cases hfind : s.trx_cache_index.find? (fun e => decide (e.trx_id = trx_id)) with
  | none =>
    rw [hfind] at h
    exact .inl (Except.ok.inj h).symm
  | some b =>
    rw [hfind] at h
    obtain ⟨hb, hid⟩ := IndexedTable.mem_of_find? hfind
    obtain ⟨s₁, h₁, h⟩ := bind_eq_ok.1 h
    exact .inr ⟨b, hb, of_decide_eq_true hid, s₁, h₁, (Except.ok.inj h).symm⟩

/-- `remove_subjective_billing` keeps the bookkeeping. -/
theorem Bookkeeping.removeSubjectiveBilling {s s' : SubjectiveBilling ι α} {a : α} {trx_id : ι}
    {time_ordinal : UInt32} (h : Bookkeeping s a)
    (hs : s.removeSubjectiveBilling trx_id time_ordinal = .ok s') : Bookkeeping s' a := by
  rcases removeSubjectiveBilling_cases hs with rfl | ⟨b, hb, rfl, s₁, h₁, rfl⟩
  · exact h
  · obtain ⟨s₂, h₂, hu, hpending, -⟩ := removeEntryBilling_spec s b time_ordinal
    rw [h₁, Except.ok.injEq] at h₂
    subst h₂
    exact h.eraseTrx hb hu hpending

/-- `remove_subjective_billing` shrinks the bills of every account. -/
theorem removeSubjectiveBilling_shrinks {s s' : SubjectiveBilling ι α} {trx_id : ι}
    {time_ordinal : UInt32} (hs : s.removeSubjectiveBilling trx_id time_ordinal = .ok s') (a : α) :
    Shrinks s s' a := by
  rcases removeSubjectiveBilling_cases hs with rfl | ⟨b, hb, rfl, s₁, h₁, rfl⟩
  · exact .refl _ a
  · obtain ⟨s₂, h₂, hu, -, hvalue⟩ := removeEntryBilling_spec s b time_ordinal
    rw [h₁, Except.ok.injEq] at h₂
    subst h₂
    refine ⟨?_, ?_⟩
    · rw [← hu.entriesOf a]
      exact billSum_le_of_sublist (entriesOf_eraseTrx_sublist _ _ _)
    · rw [infoOf_eraseTrx]
      by_cases hab : a = b.account
      · subst hab
        exact hvalue
      · rw [hu.infoOf_of_ne a hab]

/-- `on_block(bsp, now)` removes bills only, and keeps the bookkeeping. -/
theorem onBlock_shrinks {s s' : SubjectiveBilling ι α} {bsp : Option (List (ReceiptTrx ι))}
    {now : Int64} (hs : s.onBlock bsp now = .ok s') (a : α) :
    (Bookkeeping s a → Bookkeeping s' a) ∧ Shrinks s s' a := by
  -- each receipt keeps both, from the state at the start of the block
  have hreceipt : ∀ (t t' : SubjectiveBilling ι α) (time_ordinal : UInt32) (r : ReceiptTrx ι),
      t.removeReceiptBilling time_ordinal r = .ok t' →
      (Bookkeeping t a → Bookkeeping t' a) ∧ Shrinks t t' a := by
    intro t t' time_ordinal r ht
    cases r with
    | packed_transaction _ =>
      exact ⟨fun hb => hb.removeSubjectiveBilling ht, removeSubjectiveBilling_shrinks ht a⟩
    | transaction_id _ =>
      cases (Except.ok.inj ht : t = t')
      exact ⟨id, .refl t a⟩
  unfold onBlock at hs
  cases bsp with
  | none =>
    cases (Except.ok.inj hs : s = s')
    exact ⟨id, .refl s a⟩
  | some transactions =>
    obtain ⟨time_ordinal, -, hs⟩ := bind_eq_ok.1 hs
    unfold removeBlockBilling at hs
    split at hs
    · cases (Except.ok.inj hs : s = s')
      exact ⟨id, .refl s a⟩
    · exact Machine.foldlM_invariant
        (fun _ t => (Bookkeeping s a → Bookkeeping t a) ∧ Shrinks s t a) (fun _ => 0)
        (fun t r t' _ ht hstep => by
          obtain ⟨hbook, hshrink⟩ := hreceipt t t' time_ordinal r hstep
          exact ⟨fun hb => hbook (ht.1 hb), ht.2.trans hshrink⟩)
        transactions 0 ⟨id, .refl s a⟩ hs

/-! ## Expiry -/

omit [DecidableEq ι] [DecidableEq α] in
/-- The `by_expiry` order lists the cache. -/
theorem byExpiry_perm (s : SubjectiveBilling ι α) : s.byExpiry.Perm s.trx_cache_index.rows :=
  List.mergeSort_perm _ _

omit [DecidableEq ι] [DecidableEq α] in
/-- The `by_expiry` order is by expiry. -/
theorem byExpiry_sorted (s : SubjectiveBilling ι α) :
    s.byExpiry.Pairwise fun e e' => e.expiry ≤ e'.expiry := by
  refine (List.pairwise_mergeSort (fun x y z hxy hyz => ?_) (fun x y => ?_) _).imp
    fun h => of_decide_eq_true h
  · rw [decide_eq_true_eq, Int64.le_iff_toInt_le] at hxy hyz ⊢
    omega
  · rw [Bool.or_eq_true, decide_eq_true_eq, decide_eq_true_eq, Int64.le_iff_toInt_le,
      Int64.le_iff_toInt_le]
    omega

omit [DecidableEq ι] in
/-- The bill that the expiry of an entry moves into its account: all of it, since an account
without an entry has bills of zero. -/
theorem Bookkeeping.moved_eq {s : SubjectiveBilling ι α} {b : TrxCacheEntry ι α}
    (h : Bookkeeping s b.account) (hb : b ∈ s.trx_cache_index.rows) :
    (if (s.account_subjective_bill_cache.lookup b.account).isSome then
      b.subjective_cpu_bill.toNat else 0) = b.subjective_cpu_bill.toNat := by
  split
  · rfl
  · rename_i hnone
    have hzero := h.billSum_eq_zero (Option.not_isSome_iff_eq_none.1 hnone)
    have hle : b.subjective_cpu_bill.toNat ≤ billSum (s.entriesOf b.account) :=
      le_billSum (List.mem_filter.2 ⟨hb, decide_eq_true rfl⟩)
    omega

/-- The loop of `remove_expired`, over the cache in the order of expiry, processes a first part
of it, each entry expired, and stops at the deadline or at the first entry not expired. It keeps
the bookkeeping, and moves the bills of `a`'s processed entries into `a`'s accumulator. By
induction on the entries left, which are the cache's at each iteration. -/
theorem removeExpiredLoop_spec {pending_block_time deadline : Int64} {clock : Nat → Int64}
    {time_ordinal : UInt32} (a : α) :
    ∀ (l : List (TrxCacheEntry ι α)) (n : Nat) (s : SubjectiveBilling ι α) {r : Bool}
      {s' : SubjectiveBilling ι α}, l.Perm s.trx_cache_index.rows →
      l.Pairwise (fun e e' => e.expiry ≤ e'.expiry) → Bookkeeping s a →
      removeExpiredLoop pending_block_time deadline clock time_ordinal n l s = .ok (r, s') →
      ∃ P R, l = P ++ R ∧ R.Perm s'.trx_cache_index.rows ∧ Bookkeeping s' a ∧
        (∀ e ∈ P, e.expiry ≤ pending_block_time) ∧
        (r = false → ∀ e ∈ R, pending_block_time < e.expiry) ∧
        MovedInto (s.infoOf a) (s'.infoOf a) time_ordinal
          (billSum (P.filter fun e => decide (e.account = a)))
  | [], _, s, _, _, hperm, _, h, hs => by
    cases (Except.ok.inj hs)
    exact ⟨[], [], rfl, hperm, h, nofun, fun _ => nofun, MovedInto.refl _ _⟩
  | b :: rest, n, s, r, s', hperm, hsorted, h, hs => by
    unfold removeExpiredLoop at hs
    split at hs
    · -- the deadline is reached
      cases (Except.ok.inj hs)
      exact ⟨[], b :: rest, rfl, hperm, h, nofun, nofun, MovedInto.refl _ _⟩
    split at hs
    · -- the first entry left has not expired, and the later ones expire later
      rename_i _ hlive
      cases (Except.ok.inj hs)
      refine ⟨[], b :: rest, rfl, hperm, h, nofun, fun _ e he => ?_, MovedInto.refl _ _⟩
      rcases List.mem_cons.1 he with rfl | he
      · exact hlive
      · have hle := Int64.le_iff_toInt_le.1 ((List.pairwise_cons.1 hsorted).1 e he)
        rw [gt_iff_lt, Int64.lt_iff_toInt_lt] at hlive
        rw [Int64.lt_iff_toInt_lt]
        omega
    · rename_i _ hexpired
      obtain ⟨s₁, h₁, hs⟩ := bind_eq_ok.1 hs
      have hb : b ∈ s.trx_cache_index.rows := hperm.subset List.mem_cons_self
      obtain ⟨s₂, h₂, hu, hmoved⟩ := transitionToExpired_spec s b time_ordinal
      rw [h₁, Except.ok.injEq] at h₂
      subst h₂
      -- what is left of the cache after this entry is the rest of the entries
      have hperm' : rest.Perm (s₁.eraseTrx b.trx_id).trx_cache_index.rows := by
        have hdrop := perm_eraseTrx (hu.trx_cache_index ▸ hb : b ∈ s₁.trx_cache_index.rows)
        rw [hu.trx_cache_index] at hdrop
        exact (hperm.trans hdrop.symm).cons_inv
      obtain ⟨P, R, rfl, hR, hbook, hP, hr, hmoved'⟩ := removeExpiredLoop_spec a rest (n + 1) _
        hperm' (List.pairwise_cons.1 hsorted).2 (h.eraseTrx hb hu hmoved.pending_eq) hs
      -- this entry moves its bill when it is `a`'s
      have hfirst : MovedInto (s.infoOf a) (s₁.infoOf a) time_ordinal
          (if b.account = a then b.subjective_cpu_bill.toNat else 0) := by
        by_cases hba : b.account = a
        · subst hba
          rw [if_pos rfl, ← h.moved_eq hb]
          exact hmoved
        · rw [if_neg hba, hu.infoOf_of_ne a (Ne.symm hba)]
          exact MovedInto.refl _ _
      refine ⟨b :: P, R, rfl, hR, hbook, ?_, hr, ?_⟩
      · intro e he
        rcases List.mem_cons.1 he with rfl | he
        · rw [Int64.le_iff_toInt_le]
          rw [gt_iff_lt, Int64.lt_iff_toInt_lt] at hexpired
          omega
        · exact hP e he
      · have hsum : billSum ((b :: P).filter fun e => decide (e.account = a)) =
            (if b.account = a then b.subjective_cpu_bill.toNat else 0) +
              billSum (P.filter fun e => decide (e.account = a)) := by
          by_cases hba : b.account = a <;> simp [hba]
        rw [hsum]
        exact hfirst.trans hmoved'

/-- The loop of `remove_expired` does not raise an account's accumulated value and cached bills
together: an expired bill moves from the one into the other. -/
theorem removeExpiredLoop_potential {pending_block_time deadline : Int64} {clock : Nat → Int64}
    {time_ordinal : UInt32} (a : α) :
    ∀ (l : List (TrxCacheEntry ι α)) (n : Nat) (s : SubjectiveBilling ι α) {r : Bool}
      {s' : SubjectiveBilling ι α}, l.Perm s.trx_cache_index.rows →
      removeExpiredLoop pending_block_time deadline clock time_ordinal n l s = .ok (r, s') →
      (s'.infoOf a).expired_accumulator.value_ex.toNat +
          billSum (s'.entriesOf a) * rateLimitingPrecision ≤
        (s.infoOf a).expired_accumulator.value_ex.toNat +
          billSum (s.entriesOf a) * rateLimitingPrecision
  | [], _, s, _, _, _, hs => by
    cases (Except.ok.inj hs)
    exact le_refl _
  | b :: rest, n, s, r, s', hperm, hs => by
    unfold removeExpiredLoop at hs
    split at hs
    · cases (Except.ok.inj hs)
      exact le_refl _
    split at hs
    · cases (Except.ok.inj hs)
      exact le_refl _
    · obtain ⟨s₁, h₁, hs⟩ := bind_eq_ok.1 hs
      have hb : b ∈ s.trx_cache_index.rows := hperm.subset List.mem_cons_self
      obtain ⟨s₂, h₂, hu, hmoved⟩ := transitionToExpired_spec s b time_ordinal
      rw [h₁, Except.ok.injEq] at h₂
      subst h₂
      have hb₁ : b ∈ s₁.trx_cache_index.rows := hu.trx_cache_index ▸ hb
      have hperm' : rest.Perm (s₁.eraseTrx b.trx_id).trx_cache_index.rows := by
        have hdrop := perm_eraseTrx hb₁
        rw [hu.trx_cache_index] at hdrop
        exact (hperm.trans hdrop.symm).cons_inv
      have ih := removeExpiredLoop_potential a rest (n + 1) _ hperm' hs
      have hsum := billSum_eraseTrx hb₁ a
      rw [hu.entriesOf] at hsum
      rw [infoOf_eraseTrx] at ih
      -- the entry's bill leaves the cached bills and at most enters the accumulator
      have hvalue : (s₁.infoOf a).expired_accumulator.value_ex.toNat ≤
          (s.infoOf a).expired_accumulator.value_ex.toNat +
            (if b.account = a then b.subjective_cpu_bill.toNat else 0) * rateLimitingPrecision := by
        by_cases hba : b.account = a
        · subst hba
          have hle := hmoved.value_ex_le
          rw [if_pos rfl]
          split at hle
          · exact hle
          · omega
        · rw [hu.infoOf_of_ne a (Ne.symm hba), if_neg hba]
          omega
      have hsum' := congrArg (· * rateLimitingPrecision) hsum
      simp only [Nat.add_mul] at hsum'
      omega

/-- `remove_expired` does nothing on an empty cache, and otherwise runs its loop at the slot of
`now` over the cache in the order of expiry. -/
theorem removeExpired_cases {s s' : SubjectiveBilling ι α}
    {pending_block_time now deadline : Int64} {clock : Nat → Int64} {r : Bool}
    (h : s.removeExpired pending_block_time now deadline clock = .ok (r, s')) :
    (s.trx_cache_index.rows = [] ∧ r = true ∧ s' = s) ∨
      ∃ time_ordinal exhausted, timeOrdinalFor now = .ok time_ordinal ∧
        removeExpiredLoop pending_block_time deadline clock time_ordinal 0 s.byExpiry s =
          .ok (exhausted, s') ∧ r = !exhausted := by
  unfold removeExpired at h
  split at h
  · rename_i hempty
    simp only [pure, Except.pure, Except.ok.injEq, Prod.mk.injEq] at h
    exact .inl ⟨hempty, h.1.symm, h.2.symm⟩
  · obtain ⟨time_ordinal, htime, h⟩ := bind_eq_ok.1 h
    obtain ⟨q, hq, h⟩ := bind_eq_ok.1 h
    simp only [pure, Except.pure, Except.ok.injEq, Prod.mk.injEq] at h
    obtain ⟨rfl, rfl⟩ := h
    exact .inr ⟨time_ordinal, q.1, htime, hq, rfl⟩

/-- `remove_expired` keeps the bookkeeping. -/
theorem Bookkeeping.removeExpired {s s' : SubjectiveBilling ι α} {a : α}
    {pending_block_time now deadline : Int64} {clock : Nat → Int64} {r : Bool}
    (h : Bookkeeping s a)
    (hs : s.removeExpired pending_block_time now deadline clock = .ok (r, s')) :
    Bookkeeping s' a := by
  rcases removeExpired_cases hs with ⟨-, -, rfl⟩ | ⟨_, _, -, hloop, -⟩
  · exact h
  · obtain ⟨_, _, -, -, hbook, -⟩ :=
      removeExpiredLoop_spec a _ 0 s s.byExpiry_perm s.byExpiry_sorted h hloop
    exact hbook

/-- `remove_expired` moves the bills of the expired entries of an account that it processes from
its pending bills into its accumulator, at the slot of `now`. When it reports that it processed
all, none of the account's entries left has expired. -/
theorem removeExpired_moves {s s' : SubjectiveBilling ι α} {a : α}
    {pending_block_time now deadline : Int64} {clock : Nat → Int64} {r : Bool}
    (h : Bookkeeping s a)
    (hs : s.removeExpired pending_block_time now deadline clock = .ok (r, s')) :
    ∃ moved, billSum (s'.entriesOf a) + moved = billSum (s.entriesOf a) ∧
      (∀ time_ordinal, timeOrdinalFor now = .ok time_ordinal →
        MovedInto (s.infoOf a) (s'.infoOf a) time_ordinal moved) ∧
      (∀ e ∈ s.entriesOf a, e ∉ s'.entriesOf a → e.expiry ≤ pending_block_time) ∧
      (r = true → ∀ e ∈ s'.entriesOf a, pending_block_time < e.expiry) := by
  rcases removeExpired_cases hs with ⟨hempty, -, hsame⟩ | ⟨ordinal, exhausted, htime', hloop, rfl⟩
  · rw [hsame]
    have hnil : s.entriesOf a = [] := by rw [entriesOf, hempty, List.filter_nil]
    exact ⟨0, rfl, fun _ _ => MovedInto.refl _ _, fun e he => absurd he (hnil ▸ List.not_mem_nil),
      fun _ e he => absurd he (hnil ▸ List.not_mem_nil)⟩
  obtain ⟨P, R, hl, hR, -, hP, hr, hmoved⟩ :=
    removeExpiredLoop_spec a _ 0 s s.byExpiry_perm s.byExpiry_sorted h hloop
  -- the account's entries before are its processed entries and its entries after
  have hbefore : billSum (s.entriesOf a) = billSum (P.filter fun e => decide (e.account = a)) +
      billSum (s'.entriesOf a) := by
    rw [entriesOf, entriesOf, ← billSum_perm (s.byExpiry_perm.filter _), hl, List.filter_append,
      billSum_append, billSum_perm (hR.filter _)]
  have hleft : ∀ e, e ∈ s'.trx_cache_index.rows → e ∈ R := fun e he => hR.symm.subset he
  refine ⟨billSum (P.filter fun e => decide (e.account = a)), by omega,
    fun time_ordinal htime => ?_, fun e he hgone => ?_, fun hdone e he => ?_⟩
  · rw [htime', Except.ok.injEq] at htime
    exact htime ▸ hmoved
  · obtain ⟨hrow, hacc⟩ := List.mem_filter.1 he
    have hmem : e ∈ P ++ R := hl ▸ s.byExpiry_perm.symm.subset hrow
    rcases List.mem_append.1 hmem with hP' | hR'
    · exact hP e hP'
    · exact absurd (List.mem_filter.2 ⟨hR.subset hR', hacc⟩) hgone
  · exact hr (by simpa using hdone) e (hleft e (List.mem_filter.1 he).1)

/-- `remove_expired` does not raise an account's accumulated value and cached bills together. -/
theorem removeExpired_potential {s s' : SubjectiveBilling ι α} (a : α)
    {pending_block_time now deadline : Int64} {clock : Nat → Int64} {r : Bool}
    (hs : s.removeExpired pending_block_time now deadline clock = .ok (r, s')) :
    (s'.infoOf a).expired_accumulator.value_ex.toNat +
        billSum (s'.entriesOf a) * rateLimitingPrecision ≤
      (s.infoOf a).expired_accumulator.value_ex.toNat +
        billSum (s.entriesOf a) * rateLimitingPrecision := by
  rcases removeExpired_cases hs with ⟨-, -, rfl⟩ | ⟨_, _, -, hloop, -⟩
  · exact le_refl _
  · exact removeExpiredLoop_potential a _ 0 s s.byExpiry_perm hloop

/-! ## New bills -/

/-- `subjective_bill` does nothing when billing is disabled for the account or an entry of the id
is cached. -/
theorem subjectiveBill_of_not_billed {s : SubjectiveBilling ι α} {id : ι} {expire : Int64}
    {first_auth : α} {elapsed : Int64} {in_pending_block : Bool}
    (h : ¬ (s.billingEnabled first_auth = true ∧ s.Fresh id)) :
    s.subjectiveBill id expire first_auth elapsed in_pending_block = s := by
  unfold subjectiveBill
  split
  · rename_i hen
    have hclash : ¬ s.Fresh id := fun hf => h ⟨hen, hf⟩
    simp only [Fresh, not_forall, not_not] at hclash
    obtain ⟨r, hr, hid⟩ := hclash
    simp only [IndexedTable.create_of_clash hr
      (show r.clash ⟨id, first_auth, billOf elapsed, expire⟩ from hid)]
  · rfl

/-- `subjective_bill` caches its entry when it bills. -/
theorem entriesOf_subjectiveBill (s : SubjectiveBilling ι α) (id : ι) (expire : Int64)
    (first_auth : α) (elapsed : Int64) (in_pending_block : Bool) (a : α) :
    (s.subjectiveBill id expire first_auth elapsed in_pending_block).entriesOf a =
      if s.billingEnabled first_auth = true ∧ s.Fresh id ∧ first_auth = a then
        s.entriesOf a ++ [⟨id, first_auth, billOf elapsed, expire⟩]
      else s.entriesOf a := by
  by_cases hbilled : s.billingEnabled first_auth = true ∧ s.Fresh id
  · obtain ⟨t, ht, hrows⟩ := IndexedTable.create_of_fresh (t := s.trx_cache_index)
      (x := ⟨id, first_auth, billOf elapsed, expire⟩) (fun r hr => hbilled.2 r hr)
    unfold subjectiveBill
    rw [if_pos hbilled.1]
    simp only [ht]
    by_cases hfa : first_auth = a
    · subst hfa
      simp [entriesOf, hrows, hbilled]
    · simp [entriesOf, hrows, hfa]
  · rw [subjectiveBill_of_not_billed hbilled, if_neg (fun h => hbilled ⟨h.1, h.2.1⟩)]

/-- `subjective_bill` adds its bill to its account's pending bills when it bills. -/
theorem infoOf_subjectiveBill (s : SubjectiveBilling ι α) (id : ι) (expire : Int64)
    (first_auth : α) (elapsed : Int64) (in_pending_block : Bool) (a : α) :
    (s.subjectiveBill id expire first_auth elapsed in_pending_block).infoOf a =
      if s.billingEnabled first_auth = true ∧ s.Fresh id ∧ first_auth = a then
        { s.infoOf a with
          pending_cpu_us := (s.infoOf a).pending_cpu_us + (billOf elapsed).toUInt64 }
      else s.infoOf a := by
  by_cases hbilled : s.billingEnabled first_auth = true ∧ s.Fresh id
  · obtain ⟨t, ht, -⟩ := IndexedTable.create_of_fresh (t := s.trx_cache_index)
      (x := ⟨id, first_auth, billOf elapsed, expire⟩) (fun r hr => hbilled.2 r hr)
    unfold subjectiveBill
    rw [if_pos hbilled.1]
    simp only [ht]
    by_cases hfa : first_auth = a
    · subst hfa
      simp [infoOf, FlatMap.lookup_assign, hbilled]
    · simp [infoOf, FlatMap.lookup_assign, hfa, Ne.symm hfa]
  · rw [subjectiveBill_of_not_billed hbilled, if_neg (fun h => hbilled ⟨h.1, h.2.1⟩)]


@[simp] theorem billingEnabled_subjectiveBill (s : SubjectiveBilling ι α) (id : ι)
    (expire : Int64) (first_auth : α) (elapsed : Int64) (in_pending_block : Bool) (a : α) :
    (s.subjectiveBill id expire first_auth elapsed in_pending_block).billingEnabled a =
      s.billingEnabled a := by
  by_cases hbilled : s.billingEnabled first_auth = true ∧ s.Fresh id
  · obtain ⟨t, ht, -⟩ := IndexedTable.create_of_fresh (t := s.trx_cache_index)
      (x := ⟨id, first_auth, billOf elapsed, expire⟩) (fun r hr => hbilled.2 r hr)
    unfold subjectiveBill
    rw [if_pos hbilled.1]
    simp only [ht]
    rfl
  · rw [subjectiveBill_of_not_billed hbilled]

/-- A new bill keeps the bookkeeping when the account's bills stay below `2^64`. -/
theorem Bookkeeping.subjectiveBill {s : SubjectiveBilling ι α} {a : α} (h : Bookkeeping s a)
    {id : ι} {expire : Int64} {first_auth : α} {elapsed : Int64} {in_pending_block : Bool}
    (hfit : billSum (s.entriesOf a) + (if first_auth = a then (billOf elapsed).toNat else 0) <
      2 ^ 64) :
    Bookkeeping (s.subjectiveBill id expire first_auth elapsed in_pending_block) a := by
  constructor
  · rw [infoOf_subjectiveBill, entriesOf_subjectiveBill]
    split
    · rename_i hbilled
      obtain ⟨-, -, rfl⟩ := hbilled
      rw [if_pos rfl] at hfit
      dsimp only
      rw [billSum_append, billSum_cons, billSum_nil, UInt64.toNat_add, UInt32.toNat_toUInt64,
        h.pending_eq, Nat.mod_eq_of_lt hfit]
      rfl
    · exact h.pending_eq
  · intro hdis
    rw [billingEnabled_subjectiveBill] at hdis
    -- billing is disabled for the account, so nothing was billed to it
    have hnot : ¬ (s.billingEnabled first_auth = true ∧ s.Fresh id ∧ first_auth = a) :=
      fun ⟨hen, _, hfa⟩ => by
        rw [hfa, hdis] at hen
        exact Bool.false_ne_true hen
    rw [infoOf_subjectiveBill, entriesOf_subjectiveBill, if_neg hnot, if_neg hnot]
    exact h.clear_of_disabled hdis


/-! ## Failed transactions -/

omit [DecidableEq ι] in
/-- `subjective_bill_failure` does nothing when billing is disabled for the account, and otherwise
adds the bill to the account's accumulator at the slot of `now`. -/
theorem subjectiveBillFailure_cases {s s' : SubjectiveBilling ι α} {first_auth : α}
    {elapsed now : Int64} (h : s.subjectiveBillFailure first_auth elapsed now = .ok s') :
    s' = s ∨ (s.billingEnabled first_auth = true ∧ ∃ time_ordinal acc,
      timeOrdinalFor now = .ok time_ordinal ∧
      (s.infoOf first_auth).expired_accumulator.add (billOf elapsed).toUInt64 time_ordinal
        expiredAccumulatorAverageWindow = .ok acc ∧
      AccountUpdate s s' first_auth ∧
      s'.infoOf first_auth = { s.infoOf first_auth with expired_accumulator := acc }) := by
  unfold subjectiveBillFailure at h
  split at h
  · rename_i hen
    obtain ⟨time_ordinal, htime, h⟩ := bind_eq_ok.1 h
    obtain ⟨acc, hacc, h⟩ := bind_eq_ok.1 h
    cases (Except.ok.inj h)
    refine .inr ⟨hen, time_ordinal, acc, htime, hacc, ⟨rfl, fun a ha => ?_⟩, ?_⟩
    · simp [infoOf, FlatMap.lookup_assign, ha]
    · simp [infoOf, FlatMap.lookup_assign]
  · exact .inl (Except.ok.inj h).symm

omit [DecidableEq ι] in
/-- `subjective_bill_failure` keeps the bookkeeping. -/
theorem Bookkeeping.subjectiveBillFailure {s s' : SubjectiveBilling ι α} {a first_auth : α}
    {elapsed now : Int64} (h : Bookkeeping s a)
    (hs : s.subjectiveBillFailure first_auth elapsed now = .ok s') : Bookkeeping s' a := by
  rcases subjectiveBillFailure_cases hs with rfl | ⟨hen, _, _, -, -, hu, hinfo⟩
  · exact h
  -- the account's pending bills and cached entries are as they were
  have hsame : (s'.infoOf a).pending_cpu_us = (s.infoOf a).pending_cpu_us := by
    by_cases hfa : a = first_auth
    · subst hfa
      rw [hinfo]
    · rw [hu.infoOf_of_ne a hfa]
  constructor
  · rw [hsame, hu.entriesOf]
    exact h.pending_eq
  · intro hdis
    rw [hu.billingEnabled] at hdis
    have hfa : a ≠ first_auth := by
      rintro rfl
      rw [hdis] at hen
      exact Bool.false_ne_true hen
    rw [hu.entriesOf, hu.infoOf_of_ne a hfa]
    exact h.clear_of_disabled hdis

/-! ## Runs -/

/-- The most that a call bills to `a`: the bill given to `subjective_bill` for it. -/
def billedTo (a : α) : BillingCall ι α → Nat
  | .subjective_bill _ _ first_auth elapsed _ => if first_auth = a then (billOf elapsed).toNat else 0
  | _ => 0

/-- The bills that a call moves into `a`'s accumulator: the bill of a failed transaction of `a`,
or the bills of `a`'s cached entries that expire. -/
def expiredBills (a : α) (s : SubjectiveBilling ι α) (c : BillingCall ι α)
    (s' : SubjectiveBilling ι α) : Int :=
  match c with
  | .subjective_bill_failure first_auth elapsed now =>
    if first_auth = a ∧ s.billingEnabled a = true ∧ (timeOrdinalFor now).toBool = true then
      (billOf elapsed).toNat
    else 0
  | .remove_expired .. => (billSum (s.entriesOf a) : Int) - billSum (s'.entriesOf a)
  | _ => 0

/-- The state that `remove_expired` leaves, as a call. -/
theorem billingStep_remove_expired {s s' : SubjectiveBilling ι α}
    {pending_block_time now deadline : Int64} {clock : Nat → Int64}
    (hs : billingStep s (.remove_expired pending_block_time now deadline clock) = .ok s') :
    ∃ r, s.removeExpired pending_block_time now deadline clock = .ok (r, s') := by
  change Prod.snd <$> s.removeExpired pending_block_time now deadline clock = .ok s' at hs
  cases hq : s.removeExpired pending_block_time now deadline clock with
  | error e =>
    rw [hq] at hs
    cases hs
  | ok q =>
    rw [hq] at hs
    cases (Except.ok.inj hs)
    exact ⟨q.1, rfl⟩

/-- A call keeps the bookkeeping of an account while its bills stay below `2^64`, and caches at
most the bill it gives to the account more. -/
theorem Bookkeeping.step {s s' : SubjectiveBilling ι α} {a : α} {c : BillingCall ι α}
    (h : Bookkeeping s a) (hfit : billSum (s.entriesOf a) + billedTo a c < 2 ^ 64)
    (hs : billingStep s c = .ok s') :
    Bookkeeping s' a ∧ billSum (s'.entriesOf a) ≤ billSum (s.entriesOf a) + billedTo a c := by
  cases c with
  | subjective_bill id expire first_auth elapsed in_pending_block =>
    cases (Except.ok.inj hs)
    refine ⟨h.subjectiveBill hfit, ?_⟩
    rw [entriesOf_subjectiveBill, billedTo]
    split
    · rename_i hbilled
      rw [if_pos hbilled.2.2, billSum_append, billSum_cons, billSum_nil]
      rfl
    · exact Nat.le_add_right _ _
  | subjective_bill_failure first_auth elapsed now =>
    refine ⟨h.subjectiveBillFailure hs, ?_⟩
    rcases subjectiveBillFailure_cases hs with rfl | ⟨-, -, -, -, -, hu, -⟩
    · exact Nat.le_add_right _ _
    · rw [hu.entriesOf]
      exact Nat.le_add_right _ _
  | on_block bsp now =>
    obtain ⟨hbook, hshrink⟩ := onBlock_shrinks hs a
    exact ⟨hbook h, hshrink.billSum_le.trans (Nat.le_add_right _ _)⟩
  | remove_subjective_billing trx_id time_ordinal =>
    exact ⟨h.removeSubjectiveBilling hs,
      (removeSubjectiveBilling_shrinks hs a).billSum_le.trans (Nat.le_add_right _ _)⟩
  | remove_expired pending_block_time now deadline clock =>
    obtain ⟨r, hr⟩ := billingStep_remove_expired hs
    obtain ⟨moved, hmoved, -⟩ := removeExpired_moves h hr
    exact ⟨h.removeExpired hr, by omega⟩
  | abort_block =>
    cases (Except.ok.inj hs)
    exact ⟨⟨h.pending_eq, h.clear_of_disabled⟩, Nat.le_add_right _ _⟩

/-- The bookkeeping of an account holds after every run whose bills to it total below `2^64`. -/
theorem Bookkeeping.run (disabled : Bool) (disabled_accounts : List α)
    (calls : List (BillingCall ι α)) {a : α} (hbudget : (calls.map (billedTo a)).sum < 2 ^ 64) :
    Bookkeeping (Machine.run billingStep (init disabled disabled_accounts) calls) a := by
  -- the invariant with the bills still to come as the budget
  have hrun := @Machine.run_invariant_budget _ _ _ billingStep
    (fun n (s : SubjectiveBilling ι α) => Bookkeeping s a ∧ billSum (s.entriesOf a) + n < 2 ^ 64)
    (billedTo a) (fun _ _ _ hmn hs => ⟨hs.1, by omega⟩)
    (fun s c s' n hs hstep => by
      obtain ⟨hbook, hle⟩ := hs.1.step (by omega) hstep
      exact ⟨hbook, by omega⟩)
    calls (init disabled disabled_accounts) (2 ^ 64 - 1 - (calls.map (billedTo a)).sum) ?_
  · exact hrun.1
  · -- nothing is billed at the start
    refine ⟨⟨rfl, fun _ => ⟨rfl, rfl⟩⟩, ?_⟩
    show 0 + _ < _
    omega

/-! ## The accumulated value -/

/-- A call raises an account's accumulated value by at most the bills it moves into it. -/
theorem value_ex_billingStep {s s' : SubjectiveBilling ι α} (a : α) {c : BillingCall ι α}
    (hs : billingStep s c = .ok s') :
    ((s'.infoOf a).expired_accumulator.value_ex.toNat : Int) -
        (s.infoOf a).expired_accumulator.value_ex.toNat ≤
      rateLimitingPrecision * expiredBills a s c s' := by
  cases c with
  | subjective_bill id expire first_auth elapsed in_pending_block =>
    cases (Except.ok.inj hs)
    rw [infoOf_subjectiveBill]
    split <;> simp [expiredBills]
  | subjective_bill_failure first_auth elapsed now =>
    rcases subjectiveBillFailure_cases hs with rfl | ⟨hen, time_ordinal, acc, htime, hacc, hu, hinfo⟩
    · simp only [expiredBills, sub_self]
      split <;> positivity
    by_cases hfa : a = first_auth
    · subst hfa
      -- the failed bill is added to the value decayed to the slot
      have hunits : (billOf elapsed).toUInt64.toNat ≤ maxRawValue := by
        rw [UInt32.toNat_toUInt64]
        exact (UInt32.toNat_lt _).le.trans (by decide)
      obtain ⟨v, acc', hv, hadd, -, hvalue⟩ :=
        (s.infoOf a).expired_accumulator.add_spec time_ordinal expiredAccumulatorAverageWindow hunits
      obtain ⟨v', hv', hle⟩ := (s.infoOf a).expired_accumulator.valueExAt_le time_ordinal
        expiredAccumulatorAverageWindow
      rw [hv, Except.ok.injEq] at hv'
      subst hv'
      rw [hacc, Except.ok.injEq] at hadd
      subst hadd
      rw [UInt32.toNat_toUInt64] at hvalue
      have hgrow : acc.value_ex.toNat ≤ (s.infoOf a).expired_accumulator.value_ex.toNat +
          (billOf elapsed).toNat * rateLimitingPrecision := by
        omega
      rw [hinfo, expiredBills, if_pos ⟨rfl, hen, by rw [htime]; rfl⟩, ← Nat.cast_mul,
        Nat.mul_comm]
      dsimp only
      omega
    · rw [hu.infoOf_of_ne a hfa]
      simp only [expiredBills, sub_self]
      split <;> positivity
  | on_block bsp now =>
    have := (onBlock_shrinks hs a).2.value_ex_le
    simp only [expiredBills]
    omega
  | remove_subjective_billing trx_id time_ordinal =>
    have := (removeSubjectiveBilling_shrinks hs a).value_ex_le
    simp only [expiredBills]
    omega
  | remove_expired pending_block_time now deadline clock =>
    obtain ⟨r, hr⟩ := billingStep_remove_expired hs
    have hpot := removeExpired_potential a hr
    simp only [expiredBills]
    rw [Int.mul_sub, ← Nat.cast_mul, ← Nat.cast_mul, Nat.mul_comm _ (billSum (s.entriesOf a)),
      Nat.mul_comm _ (billSum (s'.entriesOf a))]
    omega
  | abort_block =>
    cases (Except.ok.inj hs)
    change ((s.infoOf a).expired_accumulator.value_ex.toNat : Int) -
      (s.infoOf a).expired_accumulator.value_ex.toNat ≤ rateLimitingPrecision * 0
    omega

/-- Over a run, an account's accumulated value grows by at most the bills moved into it. -/
theorem value_ex_run (a : α) (calls : List (BillingCall ι α)) (s : SubjectiveBilling ι α) :
    (((Machine.run billingStep s calls).infoOf a).expired_accumulator.value_ex.toNat : Int) -
        (s.infoOf a).expired_accumulator.value_ex.toNat ≤
      rateLimitingPrecision * Machine.runSum billingStep (expiredBills a) s calls := by
  rw [← Machine.runSum_mul]
  refine Machine.runSum_le (fun _ => True)
    (fun s : SubjectiveBilling ι α => ((s.infoOf a).expired_accumulator.value_ex.toNat : Int)) calls
    (fun s c _ _ => ⟨trivial, ?_⟩) trivial
  cases hstep : billingStep s c with
  | ok s' =>
    rw [Machine.commit_of_ok hstep]
    exact value_ex_billingStep a hstep
  | error e =>
    -- a call that raises changes nothing, and moves nothing in
    rw [Machine.commit_of_error hstep, sub_self]
    cases c <;> simp only [expiredBills, sub_self, Int.mul_zero, le_refl]
    split <;> positivity

/-! ## Reading the bill -/

omit [DecidableEq ι] in
/-- An account with nothing billed reads a value of zero. -/
theorem valueAt_infoOf_empty {s : SubjectiveBilling ι α} {a : α} (h : s.infoOf a = {})
    (time_ordinal : UInt32) :
    (s.infoOf a).expired_accumulator.valueAt time_ordinal expiredAccumulatorAverageWindow =
      .ok 0 := by
  rw [h]
  exact ExponentialDecayAccumulator.valueAt_of_value_ex rfl _ _

omit [DecidableEq ι] in
/-- When an account's bills in the pending block are the bills of some of its cached entries,
`get_subjective_bill` succeeds at every time whose slot fits in 32 bits, and returns the bills of
its other cached entries and its accumulated value, narrowed to `uint32_t`. -/
theorem getSubjectiveBill_eq {s : SubjectiveBilling ι α} {a : α} (h : Bookkeeping s a)
    {billed rest : List (TrxCacheEntry ι α)} (hsplit : (billed ++ rest).Perm (s.entriesOf a))
    (hblock : (s.inBlockOf a).toNat = billSum billed) {now : Int64} {time_ordinal : UInt32}
    (htime : timeOrdinalFor now = .ok time_ordinal) :
    ∃ r, (s.infoOf a).expired_accumulator.valueAt time_ordinal
        expiredAccumulatorAverageWindow = .ok r ∧
      s.getSubjectiveBill a now = .ok (billSum rest + r.toNat).toUInt32 := by
  have hsum := billSum_perm hsplit
  rw [billSum_append, ← h.pending_eq] at hsum
  -- an account without bills reads zero
  have hzero : s.infoOf a = {} → s.getSubjectiveBill a now = .ok 0 →
      ∃ r, (s.infoOf a).expired_accumulator.valueAt time_ordinal
        expiredAccumulatorAverageWindow = .ok r ∧
      s.getSubjectiveBill a now = .ok (billSum rest + r.toNat).toUInt32 := by
    intro hinfo hget
    have hrest : billSum rest = 0 := by
      rw [hinfo] at hsum
      change billSum billed + billSum rest = 0 at hsum
      omega
    exact ⟨0, valueAt_infoOf_empty hinfo _, by rw [hget, hrest]; rfl⟩
  by_cases hen : s.billingEnabled a = true
  · cases hlook : s.account_subjective_bill_cache.lookup a with
    | none =>
      refine hzero (infoOf_of_lookup_none hlook) ?_
      rw [getSubjectiveBill, if_pos hen, htime, ok_bind]
      dsimp only
      rw [hlook]
      rfl
    | some info =>
      have hinfo : s.infoOf a = info := by rw [infoOf, hlook, Option.getD_some]
      rw [hinfo] at hsum ⊢
      obtain ⟨r, hr, -⟩ := info.expired_accumulator.valueAt_le_of_le
        (Nat.le_mul_of_pos_left _ (show 0 < rateLimitingPrecision by decide)) time_ordinal
        expiredAccumulatorAverageWindow
      -- the block's bills are part of the pending bills
      have hcover : s.inBlockOf a ≤ info.pending_cpu_us := by
        rw [UInt64.le_iff_toNat_le]
        omega
      refine ⟨r, hr, ?_⟩
      rw [getSubjectiveBill, if_pos hen, htime, ok_bind]
      dsimp only
      rw [hlook]
      dsimp only
      rw [eosAssert_bind, if_pos (decide_eq_true hcover), hr, ok_bind]
      congr 1
      apply UInt32.toNat_inj.1
      rw [UInt64.toNat_toUInt32, UInt64.toNat_add, UInt64.toNat_sub_of_le _ _ hcover,
        Nat.mod_mod_of_dvd _ (by decide), Nat.toUInt32_eq, UInt32.toNat_ofNat']
      congr 1
      omega
  · obtain ⟨-, hinfo⟩ := h.clear_of_disabled (by simpa using hen)
    exact hzero hinfo (by rw [getSubjectiveBill, if_neg hen]; rfl)

end SubjectiveBilling

/-- Along every run of `subjective_billing`'s calls whose bills to an account total below
`2^64`: the account's pending bills are the bills of its cached entries; its accumulator never
holds more than the bills moved into it and reads zero a window after its last slot; when its bills
in the pending block are the bills of some of its cached entries, `get_subjective_bill` returns,
at every time whose slot fits in 32 bits, its other cached bills and the accumulator's value,
narrowed to `uint32_t`; and `remove_expired` moves the bills of the expired entries it processes
from the pending bills into the accumulator. -/
theorem subjective_billing_bookkeeping (disabled : Bool) (disabled_accounts : List α)
    (calls : List (BillingCall ι α)) (a : α)
    (hbudget : (calls.map (billedTo a)).sum < 2 ^ 64) :
    let s := Machine.run billingStep (init disabled disabled_accounts) calls
    (s.infoOf a).pending_cpu_us.toNat = billSum (s.entriesOf a) ∧
    (∀ time_ordinal : UInt32, ∃ r, (s.infoOf a).expired_accumulator.valueAt time_ordinal
        expiredAccumulatorAverageWindow = .ok r ∧
      (r.toNat : Int) ≤
        Machine.runSum billingStep (expiredBills a) (init disabled disabled_accounts) calls ∧
      ((s.infoOf a).expired_accumulator.last_ordinal.toNat +
          expiredAccumulatorAverageWindow.toNat ≤ time_ordinal.toNat → r = 0)) ∧
    (∀ (billed rest : List (TrxCacheEntry ι α)) (now : Int64) (time_ordinal : UInt32),
      (billed ++ rest).Perm (s.entriesOf a) → (s.inBlockOf a).toNat = billSum billed →
      timeOrdinalFor now = .ok time_ordinal →
      ∃ r, (s.infoOf a).expired_accumulator.valueAt time_ordinal
          expiredAccumulatorAverageWindow = .ok r ∧
        s.getSubjectiveBill a now = .ok (billSum rest + r.toNat).toUInt32) ∧
    (∀ (pending_block_time now deadline : Int64) (clock : Nat → Int64) (r : Bool)
        (s' : SubjectiveBilling ι α),
      s.removeExpired pending_block_time now deadline clock = .ok (r, s') →
      ∃ moved, billSum (s'.entriesOf a) + moved = billSum (s.entriesOf a) ∧
        (∀ time_ordinal, timeOrdinalFor now = .ok time_ordinal →
          MovedInto (s.infoOf a) (s'.infoOf a) time_ordinal moved) ∧
        (∀ e ∈ s.entriesOf a, e ∉ s'.entriesOf a → e.expiry ≤ pending_block_time) ∧
        (r = true → ∀ e ∈ s'.entriesOf a, pending_block_time < e.expiry)) := by
  intro s
  have hbook : Bookkeeping s a := Bookkeeping.run disabled disabled_accounts calls hbudget
  refine ⟨hbook.pending_eq, fun time_ordinal => ?_,
    fun _ _ _ _ hsplit hblock htime => getSubjectiveBill_eq hbook hsplit hblock htime,
    fun _ _ _ _ _ _ hs => removeExpired_moves hbook hs⟩
  -- the value stored is within the bills moved in, so the value read is too
  have hmoved := value_ex_run a calls (init disabled disabled_accounts)
  have hstart : ((init disabled disabled_accounts : SubjectiveBilling ι α).infoOf a
      ).expired_accumulator.value_ex.toNat = 0 := rfl
  rw [hstart, Nat.cast_zero, sub_zero] at hmoved
  set T := Machine.runSum billingStep (expiredBills a) (init disabled disabled_accounts) calls
  have hnonneg : 0 ≤ T := by
    have hP : (0 : Int) < rateLimitingPrecision := by decide
    by_contra hneg
    have : (rateLimitingPrecision : Int) * T < 0 := Int.mul_neg_of_pos_of_neg hP (by omega)
    omega
  have hT : (s.infoOf a).expired_accumulator.value_ex.toNat ≤ rateLimitingPrecision * T.toNat := by
    zify [hnonneg]
    rw [Int.toNat_of_nonneg hnonneg]
    exact hmoved
  obtain ⟨r, hr, hle⟩ := ExponentialDecayAccumulator.valueAt_le_of_le hT time_ordinal
    expiredAccumulatorAverageWindow
  have hTnat := Int.toNat_of_nonneg hnonneg
  refine ⟨r, hr, by omega, fun hwin => ?_⟩
  -- a window after the last slot, nothing is left
  have hW : expiredAccumulatorAverageWindow.toNat = 17280 := rfl
  have hlt : (s.infoOf a).expired_accumulator.last_ordinal < time_ordinal :=
    UInt32.lt_iff_toNat_lt.2 (by omega)
  rw [ExponentialDecayAccumulator.valueAt_of_window hlt hwin, Except.ok.injEq] at hr
  exact hr.symm

/-- The bookkeeping on two bills of one account, each of `2^31` microseconds. -/
theorem subjective_billing_two_bills :
    ([BillingCall.subjective_bill 1 0 7 2147483648 false,
        BillingCall.subjective_bill 2 0 7 2147483648 false].map (billedTo 7)).sum < 2 ^ 64 ∧
      ((Machine.run billingStep (init false [] : SubjectiveBilling Nat Nat)
        [.subjective_bill 1 0 7 2147483648 false, .subjective_bill 2 0 7 2147483648 false]).infoOf
          7).pending_cpu_us.toNat = 2 ^ 32 :=
  ⟨by decide, (subjective_billing_bookkeeping false [] _ 7 (by decide)).1.trans (by decide)⟩

/-- Two cached bills of `2^31` microseconds of one account: `get_subjective_bill` returns 0 for
their sum of `2^32`, and at a time `2^32` intervals after the epoch it raises. -/
theorem subjective_bill_narrowed :
    let s := Machine.run billingStep (init false [] : SubjectiveBilling Nat Nat)
      [.subjective_bill 1 0 7 2147483648 false, .subjective_bill 2 0 7 2147483648 false]
    billSum (s.entriesOf 7) = 2 ^ 32 ∧ s.getSubjectiveBill 7 0 = .ok 0 ∧
      s.getSubjectiveBill 7 21474836480000000 =
        .error ⟨.tx_resource_exhaustion, "overflow of quantized time in subjective billing"⟩ := by
  decide

end InfraBlockchain.Producer
