import Mathlib
import InfraBlockchain.Lib.Machine
import InfraBlockchain.Lib.IndexedTable
import InfraBlockchain.Auth.Authorization
import InfraBlockchain.Contract.Table
import InfraBlockchain.Chain.BlockHeaderState
import InfraBlockchain.Auth.Satisfies

/-!
# Deferred transactions and the RAM that they take

A contract schedules a transaction for later with `apply_context::schedule_deferred_transaction`
(`send_deferred`) under an id of its choice, its `sender_id`: the transaction is kept, packed, in a
`generated_transaction_object`, and the payer is charged `billable_size_v<generated_transaction_object>`
and the packed size. Scheduling again under the same sender and id replaces the object when the
contract asks for it, refunding the old payer (before `replace_deferred`, the refund is recorded as
a RAM correction instead), and raises `deferred_tx_duplicate` otherwise.
`cancel_deferred_transaction` removes an object and refunds its payer, and so does the controller's
`remove_scheduled_transaction` when it retires one. A transaction that its signers delay is stored
by `transaction_context::schedule_transaction` under the empty sender.

The index `by_sender_id` is unique, so no two objects share a sender and an id. Over every run of
these operations, each committed or rolled back, what has been charged to an account less its RAM
corrections is what its objects bill (`ramBalance`); with `replace_deferred` active there is no
correction, and the RAM charged is what the objects bill. A duplicate that is not to replace
changes nothing, and raises `deferred_tx_duplicate` once the checks before the lookup have passed.

The packing of a transaction and its id are parameters (`DeferredConfig`); a packed transaction is
below `2^32` bytes, as the memory and the network that it comes through are. The actor whitelist and
blacklist of block production and the deadline of the authorization check are not modelled: they
only raise.
-/

namespace InfraBlockchain.Contract

open IndexedTable
open Chain (Action TransactionExtension)
open Token (ApplyContext requireAuthorization addRamUsage)

variable {K : Type}

/-! ## Objects and state -/

/-- `billable_size_v<generated_transaction_object>`: 96 bytes of fields, 4 bytes for the size of
the packed transaction, and five index overheads. -/
def billableSizeGeneratedTransactionObject : Int :=
  billableSizeV (96 + 4 + overheadPerRowPerIndexRamBytes * 5)

/-- `generated_transaction_object`, with its times in microseconds. -/
structure GeneratedTransactionObject where
  /-- The object's id. -/
  id : Nat
  /-- `trx_id`. -/
  trx_id : Nat
  /-- `sender`, empty for a transaction delayed by its signers. -/
  sender : Name
  /-- `sender_id`. -/
  sender_id : Nat
  /-- `payer`. -/
  payer : Name
  /-- `delay_until`. -/
  delay_until : Int
  /-- `expiration`. -/
  expiration : Int
  /-- `published`. -/
  published : Int
  /-- `packed_trx`. -/
  packed_trx : List UInt8

/-- The key of the `by_sender_id` index. -/
def GeneratedTransactionObject.senderKey (g : GeneratedTransactionObject) : Name × Nat :=
  (g.sender, g.sender_id)

/-- Two objects clash in the unique indices `by_id`, `by_trx_id` and `by_sender_id`; the keys of
`by_expiration` and `by_delay` end with the id, so these clash only where `by_id` does. -/
def GeneratedTransactionObject.clash (a b : GeneratedTransactionObject) : Prop :=
  a.id = b.id ∨ a.trx_id = b.trx_id ∨ a.senderKey = b.senderKey

instance : DecidableRel GeneratedTransactionObject.clash := fun a b =>
  inferInstanceAs (Decidable (a.id = b.id ∨ a.trx_id = b.trx_id ∨ a.senderKey = b.senderKey))

/-- The RAM that an object takes: the billable size and the packed transaction. -/
def GeneratedTransactionObject.ramBytes (g : GeneratedTransactionObject) : Int :=
  billableSizeGeneratedTransactionObject + g.packed_trx.length

/-- The generated transactions, the id of the next object, the RAM charged to each account, and the
RAM corrections (`account_ram_correction_object`) recorded before `replace_deferred`. -/
structure DeferredState where
  /-- `generated_transaction_multi_index`. -/
  generated_transactions : IndexedTable GeneratedTransactionObject GeneratedTransactionObject.clash
  /-- The id of the next object. -/
  next_id : Nat
  /-- The RAM charged to each account. -/
  ram : Name → Int
  /-- The RAM correction of each account. -/
  ram_correction : Name → Int

/-- No generated transaction, no charge and no correction. -/
def DeferredState.empty : DeferredState := ⟨.empty, 0, fun _ => 0, fun _ => 0⟩

/-- A transaction extension with the payload of a deferred transaction generation context beyond the
sender that `TransactionExtension` keeps. -/
structure DeferredExtension extends TransactionExtension where
  /-- `sender_id` of a generation context. -/
  sender_id : Nat
  /-- `sender_trx_id` of a generation context. -/
  sender_trx_id : Nat

/-- `transaction`, with the fields that scheduling it reads and writes. -/
structure DeferredTransaction (K : Type) where
  /-- `expiration`, in seconds. -/
  expiration : UInt32
  /-- `ref_block_num`. -/
  ref_block_num : UInt16
  /-- `ref_block_prefix`. -/
  ref_block_prefix : UInt32
  /-- `delay_sec`. -/
  delay_sec : Nat
  /-- `context_free_actions`. -/
  context_free_actions : List (Action K)
  /-- `actions`. -/
  actions : List (Action K)
  /-- `transaction_extensions`, in their order. -/
  transaction_extensions : List DeferredExtension

/-- The transaction as `validate_and_extract_extensions` reads it. -/
def DeferredTransaction.toTransaction (trx : DeferredTransaction K) : Chain.Transaction K :=
  ⟨trx.actions, trx.delay_sec, trx.transaction_extensions.map (·.toTransactionExtension)⟩

/-- `fc::raw::pack` of a transaction, below `2^32` bytes, and `transaction::id`, the `sha256` of the
packed transaction as the number whose 64-bit words, lowest first, are `_hash[0]` to `_hash[3]`. -/
structure DeferredConfig (K : Type) where
  /-- `fc::raw::pack`. -/
  pack : DeferredTransaction K → List UInt8
  /-- `transaction::id`. -/
  id : DeferredTransaction K → Nat
  /-- A packed transaction is below `2^32` bytes. -/
  pack_lt : ∀ trx, (pack trx).length < 2 ^ 32

/-! ## Net usage and contexts -/

/-- `config::transaction_id_net_usage`. -/
def transactionIdNetUsage : Nat := 32

/-- The net usage of a `transaction_context`, and what `check_net_usage` reads. -/
structure NetUsage where
  /-- `net_usage`. -/
  net_usage : Nat
  /-- `eager_net_limit`. -/
  eager_net_limit : Nat
  /-- `net_limit_due_to_block`. -/
  net_limit_due_to_block : Bool
  /-- `net_limit_due_to_greylist`. -/
  net_limit_due_to_greylist : Bool
  /-- `control.skip_trx_checks()`. -/
  skip_trx_checks : Bool

/-- `transaction_context::add_net_usage` and its `check_net_usage`. -/
def NetUsage.add (n : NetUsage) (u : Nat) : Except Exception NetUsage := do
  let n := { n with net_usage := n.net_usage + u }
  if !n.skip_trx_checks && n.net_usage > n.eager_net_limit then
    if n.net_limit_due_to_block then
      throw ⟨.block_net_usage_exceeded, "not enough space left in block: ${net_usage} > ${net_limit}"⟩
    else if n.net_limit_due_to_greylist then
      throw ⟨.greylist_net_usage_exceeded,
        "greylisted transaction net usage is too high: ${net_usage} > ${net_limit}"⟩
    else
      throw ⟨.tx_net_usage_exceeded, "transaction net usage is too high: ${net_usage} > ${net_limit}"⟩
  pure n

/-- What the transaction context and the controller give every operation that stores a transaction. -/
structure TrxContext where
  /-- The transaction context's net usage. -/
  net : NetUsage
  /-- `base_per_transaction_net_usage` of the global configuration. -/
  base_per_transaction_net_usage : Nat
  /-- `deferred_trx_expiration_window` of the global configuration, in seconds. -/
  deferred_trx_expiration_window : Nat
  /-- `pending_block_time()`, in microseconds. -/
  pending_block_time : Int

/-- What `schedule_deferred_transaction` reads of the `apply_context`, the transaction context and
the controller. -/
structure DeferredContext (K : Type) extends ApplyContext, TrxContext where
  /-- `privileged`. -/
  privileged : Bool
  /-- `trx_context.id`, the sending transaction. -/
  trx_id : Nat
  /-- `control.get_authorization_manager()`. -/
  am : Auth.AuthorizationManager K
  /-- The head block's number, `endian_reverse_u32` of `_hash[0]` of its id. -/
  head_block_num : UInt32
  /-- `_hash[1]` of the head block's id. -/
  head_block_id_prefix : UInt64
  /-- `control.is_producing_block()`. -/
  is_producing_block : Bool
  /-- `control.skip_auth_check()`. -/
  skip_auth_check : Bool
  /-- `control.all_subjective_mitigations_disabled()`. -/
  all_subjective_mitigations_disabled : Bool
  /-- `control.is_ram_billing_in_notify_allowed()`. -/
  ram_billing_in_notify_allowed : Bool
  /-- Whether `no_duplicate_deferred_id` is activated. -/
  no_duplicate_deferred_id : Bool
  /-- Whether `replace_deferred` is activated. -/
  replace_deferred : Bool
  /-- Whether `ram_restrictions` is activated. -/
  ram_restrictions : Bool
  /-- Whether `restrict_action_to_self` is activated. -/
  restrict_action_to_self : Bool

/-! ## Scheduling -/

/-- `apply_context::has_authorization`. -/
def hasAuthorization (ctx : ApplyContext) (account : Name) : Bool :=
  ctx.authorization.any (·.actor == account)

/-- The existence checks of one declared authorization in `validate_referenced_accounts`. -/
def validateAuthorization (am : Auth.AuthorizationManager K) (auth : PermissionLevel) :
    Except Exception Unit := do
  eosAssert (am.db.accounts.find? (Auth.byName auth.actor)).isSome .transaction_exception
    "action's authorizing actor '${account}' does not exist"
  let permission ← Auth.findPermission am.db auth
  eosAssert permission.isSome .transaction_exception
    "action's authorizations include a non-existent permission: ${permission}"

/-- `transaction_context::validate_referenced_accounts` without the actor lists: every contract and
actor exists, and every declared permission; context-free actions declare none, and some action
declares one. -/
def validateReferencedAccounts (am : Auth.AuthorizationManager K) (trx : DeferredTransaction K) :
    Except Exception Unit := do
  trx.context_free_actions.forM fun a => do
    eosAssert (am.db.accounts.find? (Auth.byName a.account)).isSome .transaction_exception
      "action's code account '${account}' does not exist"
    eosAssert (a.authorization.length == 0) .transaction_exception
      "context-free actions cannot have authorizations"
  -- `one_auth` turns true at the first declared authorization
  let one_auth ← trx.actions.foldlM (fun one_auth a => do
      eosAssert (am.db.accounts.find? (Auth.byName a.account)).isSome .transaction_exception
        "action's code account '${account}' does not exist"
      a.authorization.foldlM (fun _ auth => do
          validateAuthorization am auth
          pure true)
        one_auth)
    false
  eosAssert one_auth .tx_no_auths "transaction must have at least one authorization"

/-- The deferred transaction generation context that the transaction of a contract gets. -/
def generationContext (ctx : DeferredContext K) (sender_id : Nat) : DeferredExtension :=
  ⟨⟨Chain.deferredTransactionGenerationContextId, ctx.receiver⟩, sender_id, ctx.trx_id⟩

/-- What `schedule_deferred_transaction` does to the transaction before storing it. After
`no_duplicate_deferred_id`, the extensions are validated, and the only one allowed is a generation
context of this sender, id and sending transaction, added when there is none; the expiration and
the reference block are cleared. Before, the expiration is the pending block time rounded up to a
second, and the reference block is the head. The extensions that the validation extracts are the
transaction's own, so the match reads them there. -/
def prepareDeferredTransaction (ctx : DeferredContext K) (sender_id : Nat)
    (trx : DeferredTransaction K) : Except Exception (DeferredTransaction K) :=
  if ctx.no_duplicate_deferred_id then do
    let _ ← Chain.validateAndExtractExtensions trx.toTransaction
    let trx ← match trx.transaction_extensions with
      | [] => pure { trx with transaction_extensions := [generationContext ctx sender_id] }
      | [context] => do
        -- `get<deferred_transaction_generation_context>()` of the one extension
        eosAssert (context.id == Chain.deferredTransactionGenerationContextId) .assert_exception
          "static_variant does not contain a value of type ${t}"
        eosAssert (context.account == ctx.receiver)
          .ill_formed_deferred_transaction_generation_context
          "deferred transaction generaction context contains mismatching sender"
        eosAssert (context.sender_id == sender_id)
          .ill_formed_deferred_transaction_generation_context
          "deferred transaction generaction context contains mismatching sender_id"
        eosAssert (context.sender_trx_id == ctx.trx_id)
          .ill_formed_deferred_transaction_generation_context
          "deferred transaction generaction context contains mismatching sender_trx_id"
        pure trx
      | _ :: _ :: _ => throw ⟨.invalid_transaction_extension,
          "only the deferred_transaction_generation_context extension is currently supported for deferred transactions"⟩
    pure { trx with expiration := 0, ref_block_num := 0, ref_block_prefix := 0 }
  else
    pure { trx with
      expiration := ((ctx.pending_block_time + 999999) / 1000000).toNat.toUInt32
      ref_block_num := ctx.head_block_num.toUInt16
      ref_block_prefix := ctx.head_block_id_prefix.toUInt32 }

/-- Whether every action of the transaction is to `self`. -/
def isSendingOnlyToSelf (trx : DeferredTransaction K) (self : Name) : Bool :=
  trx.actions.all (·.account == self)

/-- The authorization checks of `schedule_deferred_transaction`, skipped when replaying or for a
privileged contract. A payer other than the receiver must have authorized the action, which after
`ram_restrictions` must also be the receiver's own. The actions must be authorized by the receiver's
`eosio.code`; before `restrict_action_to_self`, a transaction of actions to the sender only passes
anyway outside block production. -/
def checkDeferredAuthorization [DecidableEq K] (ctx : DeferredContext K) (payer : Name)
    (trx : DeferredTransaction K) (delay : Int) : Except Exception Unit :=
  if !ctx.skip_auth_check && !ctx.privileged then do
    if payer != ctx.receiver then
      if ctx.ram_restrictions then do
        eosAssert (ctx.receiver == ctx.act_account) .action_validate_exception
          "cannot bill RAM usage of deferred transactions to another account within notify context"
        eosAssert (hasAuthorization ctx.toApplyContext payer) .action_validate_exception
          "cannot bill RAM usage of deferred transaction to another account that has not authorized the action: ${payer}"
      else requireAuthorization ctx.toApplyContext payer
    match Auth.checkAuthorization ctx.am trx.actions [] none [⟨ctx.receiver, eosioCodeName⟩] delay
        false [] with
    | .ok () => pure ()
    | .error e =>
      if ctx.restrict_action_to_self || !isSendingOnlyToSelf trx ctx.receiver then throw e
      else if ctx.is_producing_block then
        throw ⟨.subjective_block_production_exception,
          "Authorization failure with sent deferred transaction consisting only of actions to self"⟩
      else pure ()
  else pure ()

/-- The part of `schedule_deferred_transaction` before the lookup of the sender's id: the checks,
the rewriting of the transaction, the net usage of its retirement charged ahead, and the
authorization; the transaction as it is to be stored. -/
def deferredChecks [DecidableEq K] (ctx : DeferredContext K) (sender_id : Nat) (payer : Name)
    (trx : DeferredTransaction K) : Except Exception (DeferredTransaction K) := do
  eosAssert (trx.context_free_actions.length == 0) .cfa_inside_generated_tx
    "context free actions are not currently allowed in generated transactions"
  validateReferencedAccounts ctx.am trx
  let trx ← prepareDeferredTransaction ctx sender_id trx
  let _ ← ctx.net.add (ctx.base_per_transaction_net_usage + transactionIdNetUsage)
  checkDeferredAuthorization ctx payer trx ((trx.delay_sec : Int) * 1000000)
  pure trx

/-- The object that stores a transaction: published at the pending block time, due after the
delay, and expiring the expiration window after that. -/
def newGeneratedTransaction (ctx : TrxContext) (id trx_id : Nat) (sender : Name) (sender_id : Nat)
    (payer : Name) (delay : Int) (packed_trx : List UInt8) : GeneratedTransactionObject :=
  ⟨id, trx_id, sender, sender_id, payer, ctx.pending_block_time + delay,
    ctx.pending_block_time + delay + ctx.deferred_trx_expiration_window * 1000000,
    ctx.pending_block_time, packed_trx⟩

/-- `db.create<generated_transaction_object>` of an object with the next id, which raises when the
object clashes in a unique index. -/
def createGeneratedTransaction (s : DeferredState) (g : GeneratedTransactionObject) :
    Except Exception DeferredState := do
  let generated_transactions ← liftDb .unique_index_violation "could not insert object"
    (s.generated_transactions.create g)
  pure { s with generated_transactions, next_id := s.next_id + 1 }

/-- `db.remove` of an object. -/
def removeGeneratedTransaction (s : DeferredState) (g : GeneratedTransactionObject) : DeferredState :=
  { s with generated_transactions := s.generated_transactions.remove (·.id == g.id) }

/-- The refund of a replaced object's payer: `add_ram_usage` after `replace_deferred`, and before
it `add_to_ram_correction`, on the ledger of corrections. -/
def refundReplaced (replace_deferred : Bool) (s : DeferredState) (ptr : GeneratedTransactionObject) :
    DeferredState :=
  if replace_deferred then { s with ram := addRamUsage s.ram ptr.payer (-ptr.ramBytes) }
  else { s with ram_correction := addRamUsage s.ram_correction ptr.payer ptr.ramBytes }

/-- The part of `schedule_deferred_transaction` from the lookup of the sender's id on, with the
packed size as the `uint32_t` that `generated_transaction_object::set` returns. An object of the
same sender and id is replaced when asked and its payer refunded; before `replace_deferred` a RAM
correction is recorded instead, and the new object keeps the old transaction id. Otherwise a
duplicate raises. -/
def storeDeferredTransaction (cfg : DeferredConfig K) (ctx : DeferredContext K) (s : DeferredState)
    (sender_id : Nat) (payer : Name) (trx : DeferredTransaction K) (replace_existing : Bool) :
    Except Exception (DeferredState × UInt32) := do
  let delay : Int := (trx.delay_sec : Int) * 1000000
  let packed_trx := cfg.pack trx
  match s.generated_transactions.lookup GeneratedTransactionObject.senderKey
      (ctx.receiver, sender_id) with
  | some ptr => do
    eosAssert replace_existing .deferred_tx_duplicate
      "deferred transaction with the same sender_id and payer already exists"
    eosAssert (ctx.replace_deferred || !ctx.is_producing_block ||
        ctx.all_subjective_mitigations_disabled)
      .subjective_block_production_exception "Replacing a deferred transaction is temporarily disabled."
    let s := refundReplaced ctx.replace_deferred s ptr
    let trx_id_for_new_obj := if ctx.replace_deferred then cfg.id trx else ptr.trx_id
    let s := removeGeneratedTransaction s ptr
    let s ← createGeneratedTransaction s (newGeneratedTransaction ctx.toTrxContext s.next_id
      trx_id_for_new_obj ctx.receiver sender_id payer delay packed_trx)
    pure (s, packed_trx.length.toUInt32)
  | none => do
    let s ← createGeneratedTransaction s (newGeneratedTransaction ctx.toTrxContext s.next_id
      (cfg.id trx) ctx.receiver sender_id payer delay packed_trx)
    pure (s, packed_trx.length.toUInt32)

/-- `apply_context::schedule_deferred_transaction`: the payer is charged the billable size and the
packed size, which during a notification must be the receiver's own before `ram_restrictions`. -/
def scheduleDeferredTransaction [DecidableEq K] (cfg : DeferredConfig K) (ctx : DeferredContext K)
    (s : DeferredState) (sender_id : Nat) (payer : Name) (trx : DeferredTransaction K)
    (replace_existing : Bool) : Except Exception DeferredState := do
  let trx ← deferredChecks ctx sender_id payer trx
  let (s, trx_size) ← storeDeferredTransaction cfg ctx s sender_id payer trx replace_existing
  eosAssert (ctx.ram_restrictions || ctx.ram_billing_in_notify_allowed ||
      ctx.receiver == ctx.act_account || ctx.receiver == payer || ctx.privileged)
    .subjective_block_production_exception "Cannot charge RAM to other accounts during notify."
  pure { s with
    ram := addRamUsage s.ram payer (billableSizeGeneratedTransactionObject + trx_size.toNat) }

/-- `apply_context::cancel_deferred_transaction`: the object of the sender and id, if any, is
removed and its payer refunded; whether there was one. -/
def cancelDeferredTransaction (s : DeferredState) (sender_id : Nat) (sender : Name) :
    DeferredState × Bool :=
  match s.generated_transactions.lookup GeneratedTransactionObject.senderKey (sender, sender_id) with
  | some gto =>
    (removeGeneratedTransaction { s with ram := addRamUsage s.ram gto.payer (-gto.ramBytes) } gto,
      true)
  | none => (s, false)

/-- `transaction_id_to_sender_id`: `_hash[3]` and `_hash[2]` of the id, its upper 128 bits. -/
def transactionIdToSenderId (tid : Nat) : Nat := tid / 2 ^ 128 % 2 ^ 128

/-- `transaction_context::schedule_transaction`: a transaction that its signers delay is stored under
the empty sender, with the sender id that its id gives, and charged to its first authorizer; the
net usage of its retirement is charged here unless its delay has charged it already. -/
def scheduleTransaction (cfg : DeferredConfig K) (ctx : TrxContext) (s : DeferredState)
    (trx : DeferredTransaction K) : Except Exception DeferredState := do
  let _ ← (if trx.delay_sec == 0 then
    discard <| ctx.net.add (ctx.base_per_transaction_net_usage + transactionIdNetUsage)
    else pure ())
  let first_auth := Chain.firstAuthorizer trx.actions
  let trx_id := cfg.id trx
  let packed_trx := cfg.pack trx
  let s ← createGeneratedTransaction s (newGeneratedTransaction ctx s.next_id trx_id ⟨0⟩
    (transactionIdToSenderId trx_id) first_auth ((trx.delay_sec : Int) * 1000000) packed_trx)
  pure { s with
    ram := addRamUsage s.ram first_auth
      (billableSizeGeneratedTransactionObject + packed_trx.length.toUInt32.toNat) }

/-- `controller_impl::remove_scheduled_transaction`: the payer is refunded. -/
def removeScheduledTransaction (s : DeferredState) (gto : GeneratedTransactionObject) :
    DeferredState :=
  removeGeneratedTransaction { s with ram := addRamUsage s.ram gto.payer (-gto.ramBytes) } gto

/-- The operations on generated transactions. -/
inductive DeferredRequest (K : Type) where
  /-- `schedule_deferred_transaction`, through `send_deferred`. -/
  | schedule_deferred_transaction (ctx : DeferredContext K) (sender_id : Nat) (payer : Name)
      (trx : DeferredTransaction K) (replace_existing : Bool)
  /-- `cancel_deferred_transaction`, through `cancel_deferred` or `canceldelay`. -/
  | cancel_deferred_transaction (sender_id : Nat) (sender : Name)
  /-- `schedule_transaction` of a delayed input transaction. -/
  | schedule_transaction (ctx : TrxContext) (trx : DeferredTransaction K)
  /-- The retirement of the transaction of that id by `push_scheduled_transaction`. -/
  | remove_scheduled_transaction (trx_id : Nat)

/-- One operation: a retirement finds its object by transaction id, and raises without it. -/
def deferredStep [DecidableEq K] (cfg : DeferredConfig K) :
    DeferredState → DeferredRequest K → Except Exception DeferredState
  | s, .schedule_deferred_transaction ctx sender_id payer trx replace_existing =>
    scheduleDeferredTransaction cfg ctx s sender_id payer trx replace_existing
  | s, .cancel_deferred_transaction sender_id sender =>
    pure (cancelDeferredTransaction s sender_id sender).1
  | s, .schedule_transaction ctx trx => scheduleTransaction cfg ctx s trx
  | s, .remove_scheduled_transaction trx_id => do
    let gto ← liftDb .unknown_transaction_exception "unknown transaction"
      (s.generated_transactions.lookup GeneratedTransactionObject.trx_id trx_id)
    pure (removeScheduledTransaction s gto)

/-! ## The unique index and the ledger -/

namespace GeneratedTransactionObject

/-- Two objects with one id clash. -/
theorem clash_of_id {a b : GeneratedTransactionObject} (h : a.id = b.id) : a.clash b := .inl h

/-- Two objects with one transaction id clash. -/
theorem clash_of_trx_id {a b : GeneratedTransactionObject} (h : a.trx_id = b.trx_id) :
    a.clash b := .inr (.inl h)

/-- Two objects with one sender and sender id clash. -/
theorem clash_of_senderKey {a b : GeneratedTransactionObject} (h : a.senderKey = b.senderKey) :
    a.clash b := .inr (.inr h)

/-- Clashing is symmetric. -/
theorem clash_symm {a b : GeneratedTransactionObject} (h : a.clash b) : b.clash a := by
  rcases h with h | h | h
  · exact clash_of_id h.symm
  · exact clash_of_trx_id h.symm
  · exact clash_of_senderKey h.symm

/-- What an object bills an account: its RAM when the account pays for it. -/
def billedTo (g : GeneratedTransactionObject) (a : Name) : Int :=
  if a = g.payer then g.ramBytes else 0

end GeneratedTransactionObject

open GeneratedTransactionObject (billedTo)

/-- No two objects share a sender and a sender id, for `by_sender_id` is unique. -/
theorem DeferredState.eq_of_senderKey (s : DeferredState) {g g' : GeneratedTransactionObject}
    (hg : g ∈ s.generated_transactions.rows) (hg' : g' ∈ s.generated_transactions.rows)
    (h : g.senderKey = g'.senderKey) : g = g' :=
  IndexedTable.eq_of_clash (fun _ _ => GeneratedTransactionObject.clash_symm) hg hg'
    (GeneratedTransactionObject.clash_of_senderKey h)

/-- What an account's objects bill. -/
def DeferredState.billed (s : DeferredState) (a : Name) : Int :=
  s.generated_transactions.sumBy (billedTo · a)

/-- What has been charged to an account, less its RAM corrections and what its objects bill. -/
def DeferredState.ramBalance (s : DeferredState) (a : Name) : Int :=
  s.ram a - s.ram_correction a - s.billed a

namespace DeferredState

/-- Charging `d` to the payer `p` moves its balance by `d`. -/
theorem ramBalance_charge (s : DeferredState) (p a : Name) (d : Int) :
    ({ s with ram := addRamUsage s.ram p d } : DeferredState).ramBalance a =
      s.ramBalance a + if a = p then d else 0 := by
  simp only [ramBalance, billed, Token.addRamUsage_apply]
  ring

/-- A correction of `d` on the payer `p` moves its balance back by `d`. -/
theorem ramBalance_correct (s : DeferredState) (p a : Name) (d : Int) :
    ({ s with ram_correction := addRamUsage s.ram_correction p d } : DeferredState).ramBalance a =
      s.ramBalance a - if a = p then d else 0 := by
  simp only [ramBalance, billed, Token.addRamUsage_apply]
  ring

end DeferredState

open DeferredState (ramBalance_charge ramBalance_correct)

@[simp] theorem refundReplaced_generated_transactions (rd : Bool) (s : DeferredState)
    (ptr : GeneratedTransactionObject) :
    (refundReplaced rd s ptr).generated_transactions = s.generated_transactions := by
  cases rd <;> rfl

/-- A refund, to the charges or to the corrections, takes away what the replaced object bills. -/
theorem refundReplaced_ramBalance (rd : Bool) (s : DeferredState) (ptr : GeneratedTransactionObject)
    (a : Name) : (refundReplaced rd s ptr).ramBalance a = s.ramBalance a - billedTo ptr a := by
  unfold billedTo
  cases rd with
  | false =>
    rw [refundReplaced, if_neg Bool.false_ne_true, ramBalance_correct]
  | true =>
    rw [refundReplaced, if_pos rfl, ramBalance_charge]
    split_ifs <;> ring


/-- `create` of a generated transaction changes the table only. -/
theorem createGeneratedTransaction_ok {s s' : DeferredState} {g : GeneratedTransactionObject}
    (h : createGeneratedTransaction s g = .ok s') :
    s.generated_transactions.create g = some s'.generated_transactions ∧ s'.ram = s.ram ∧
      s'.ram_correction = s.ram_correction := by
  unfold createGeneratedTransaction at h
  obtain ⟨t, ht, h⟩ := bind_eq_ok.1 h
  cases h
  exact ⟨liftDb_eq_ok.1 ht, rfl, rfl⟩

/-- A created object adds what it bills. -/
theorem createGeneratedTransaction_ramBalance {s s' : DeferredState} {g : GeneratedTransactionObject}
    (h : createGeneratedTransaction s g = .ok s') (a : Name) :
    s'.ramBalance a = s.ramBalance a - billedTo g a := by
  obtain ⟨hcreate, hram, hcorr⟩ := createGeneratedTransaction_ok h
  have hsum := IndexedTable.sumBy_of_create hcreate (billedTo · a)
  simp only [DeferredState.ramBalance, DeferredState.billed, hram, hcorr, hsum]
  ring

/-- A new object bills its payer its RAM. -/
theorem billedTo_newGeneratedTransaction (ctx : TrxContext) (id trx_id : Nat) (sender : Name)
    (sender_id : Nat) (payer : Name) (delay : Int) (packed_trx : List UInt8) (a : Name) :
    billedTo (newGeneratedTransaction ctx id trx_id sender sender_id payer delay packed_trx) a =
      if a = payer then billableSizeGeneratedTransactionObject + packed_trx.length else 0 := rfl

/-- A removed object takes away what it bills. -/
theorem removeGeneratedTransaction_ramBalance {s : DeferredState} {g : GeneratedTransactionObject}
    (hg : g ∈ s.generated_transactions.rows) (a : Name) :
    (removeGeneratedTransaction s g).ramBalance a = s.ramBalance a + billedTo g a := by
  -- the object is the one row with its id
  have hlookup := IndexedTable.lookup_of_mem
    (fun (a b : GeneratedTransactionObject) (e : a.id = b.id) =>
      GeneratedTransactionObject.clash_of_id e) hg
  obtain ⟨l₁, l₂, hrows, hrows'⟩ :=
    IndexedTable.rows_of_remove_lookup (fun _ _ => GeneratedTransactionObject.clash_of_id) hlookup
  have hsum := IndexedTable.sumBy_of_drop hrows hrows' (billedTo · a)
  simp only [removeGeneratedTransaction, DeferredState.ramBalance, DeferredState.billed]
  linarith

/-- A refunded and removed object leaves the balance as it was. -/
theorem removeScheduledTransaction_ramBalance {s : DeferredState} {gto : GeneratedTransactionObject}
    (hg : gto ∈ s.generated_transactions.rows) (a : Name) :
    (removeScheduledTransaction s gto).ramBalance a = s.ramBalance a := by
  rw [removeScheduledTransaction,
    removeGeneratedTransaction_ramBalance (s := { s with ram := addRamUsage s.ram gto.payer _ }) hg,
    ramBalance_charge, billedTo]
  split_ifs <;> ring

/-! ## What each operation does -/

section Operations

variable {cfg : DeferredConfig K} {ctx : DeferredContext K} {s s' : DeferredState}
  {sender_id : Nat} {payer : Name} {trx : DeferredTransaction K} {replace_existing : Bool}

/-- A stored transaction is a new object for the payer, with its packed size, created in the state
as it was or after the replaced object of the sender and id was refunded and removed. -/
theorem storeDeferredTransaction_ok {trx_size : UInt32}
    (h : storeDeferredTransaction cfg ctx s sender_id payer trx replace_existing = .ok (s', trx_size)) :
    trx_size.toNat = (cfg.pack trx).length ∧
      ∃ s₀ trx_id, createGeneratedTransaction s₀ (newGeneratedTransaction ctx.toTrxContext s₀.next_id
          trx_id ctx.receiver sender_id payer ((trx.delay_sec : Int) * 1000000) (cfg.pack trx)) =
          .ok s' ∧
        (s₀ = s ∨ ∃ ptr, s.generated_transactions.lookup GeneratedTransactionObject.senderKey
            (ctx.receiver, sender_id) = some ptr ∧
          s₀ = removeGeneratedTransaction (refundReplaced ctx.replace_deferred s ptr) ptr) := by
  have hsize : (cfg.pack trx).length.toUInt32.toNat = (cfg.pack trx).length :=
    Chain.toNat_toUInt32_of_lt (cfg.pack_lt trx)
  unfold storeDeferredTransaction at h
  split at h
  · -- an object of the sender and id is there: it is replaced
    rename_i ptr hptr
    obtain ⟨_, -, h⟩ := bind_eq_ok.1 h
    obtain ⟨_, -, h⟩ := bind_eq_ok.1 h
    obtain ⟨s₁, hcreate, h⟩ := bind_eq_ok.1 h
    cases h
    exact ⟨hsize, _, _, hcreate, .inr ⟨ptr, hptr, rfl⟩⟩
  · obtain ⟨s₁, hcreate, h⟩ := bind_eq_ok.1 h
    cases h
    exact ⟨hsize, _, _, hcreate, .inl rfl⟩

/-- Storing takes away what the new object bills the payer. -/
theorem storeDeferredTransaction_ramBalance {trx_size : UInt32}
    (h : storeDeferredTransaction cfg ctx s sender_id payer trx replace_existing = .ok (s', trx_size))
    (a : Name) :
    s'.ramBalance a = s.ramBalance a -
      if a = payer then billableSizeGeneratedTransactionObject + trx_size.toNat else 0 := by
  obtain ⟨hsize, s₀, trx_id, hcreate, hs₀⟩ := storeDeferredTransaction_ok h
  rw [createGeneratedTransaction_ramBalance hcreate, billedTo_newGeneratedTransaction, hsize]
  rcases hs₀ with rfl | ⟨ptr, hptr, rfl⟩
  · rfl
  · -- the replaced object's refund and removal cancel out
    have hmem : ptr ∈ (refundReplaced ctx.replace_deferred s ptr).generated_transactions.rows := by
      rw [refundReplaced_generated_transactions]
      exact (IndexedTable.mem_of_lookup hptr).1
    rw [removeGeneratedTransaction_ramBalance hmem, refundReplaced_ramBalance]
    ring

/-- After `replace_deferred`, storing records no correction. -/
theorem storeDeferredTransaction_ram_correction {trx_size : UInt32}
    (h : storeDeferredTransaction cfg ctx s sender_id payer trx replace_existing = .ok (s', trx_size))
    (hrd : ctx.replace_deferred = true) : s'.ram_correction = s.ram_correction := by
  obtain ⟨-, s₀, trx_id, hcreate, hs₀⟩ := storeDeferredTransaction_ok h
  rw [(createGeneratedTransaction_ok hcreate).2.2]
  rcases hs₀ with rfl | ⟨ptr, -, rfl⟩
  · rfl
  · rw [hrd]
    rfl

/-- A scheduled transaction passed the checks and was stored, and the payer was charged its size. -/
theorem scheduleDeferredTransaction_ok [DecidableEq K]
    (h : scheduleDeferredTransaction cfg ctx s sender_id payer trx replace_existing = .ok s') :
    ∃ trx' s₁ trx_size, deferredChecks ctx sender_id payer trx = .ok trx' ∧
      storeDeferredTransaction cfg ctx s sender_id payer trx' replace_existing = .ok (s₁, trx_size) ∧
      s' = { s₁ with
        ram := addRamUsage s₁.ram payer (billableSizeGeneratedTransactionObject + trx_size.toNat) } := by
  unfold scheduleDeferredTransaction at h
  obtain ⟨trx', hchecks, h⟩ := bind_eq_ok.1 h
  obtain ⟨⟨s₁, trx_size⟩, hstore, h⟩ := bind_eq_ok.1 h
  obtain ⟨_, -, h⟩ := bind_eq_ok.1 h
  cases h
  exact ⟨trx', s₁, trx_size, hchecks, hstore, rfl⟩

/-- Scheduling a deferred transaction keeps every balance of RAM. -/
theorem scheduleDeferredTransaction_ramBalance [DecidableEq K]
    (h : scheduleDeferredTransaction cfg ctx s sender_id payer trx replace_existing = .ok s')
    (a : Name) : s'.ramBalance a = s.ramBalance a := by
  obtain ⟨trx', s₁, trx_size, -, hstore, rfl⟩ := scheduleDeferredTransaction_ok h
  rw [ramBalance_charge, storeDeferredTransaction_ramBalance hstore]
  ring

/-- The part before the lookup never changes the state, so a duplicate that is not to replace
raises the exception of the checks, or the duplicate when they pass. -/
theorem scheduleDeferredTransaction_of_duplicate [DecidableEq K] {ptr : GeneratedTransactionObject}
    (hptr : s.generated_transactions.lookup GeneratedTransactionObject.senderKey
      (ctx.receiver, sender_id) = some ptr) :
    scheduleDeferredTransaction cfg ctx s sender_id payer trx false =
      match deferredChecks ctx sender_id payer trx with
      | .ok _ => .error ⟨.deferred_tx_duplicate,
          "deferred transaction with the same sender_id and payer already exists"⟩
      | .error e => .error e := by
  have hstore : ∀ trx', storeDeferredTransaction cfg ctx s sender_id payer trx' false =
      .error ⟨.deferred_tx_duplicate,
        "deferred transaction with the same sender_id and payer already exists"⟩ := by
    intro trx'
    simp only [storeDeferredTransaction, hptr]
    rfl
  unfold scheduleDeferredTransaction
  cases deferredChecks ctx sender_id payer trx with
  | error e => rfl
  | ok trx' =>
    show (storeDeferredTransaction cfg ctx s sender_id payer trx' false >>= _) = _
    rw [hstore]
    rfl

/-- `schedule_transaction` creates the object, sent by no contract and paid by the first authorizer,
and charges its size to that authorizer. -/
theorem scheduleTransaction_ok {ctx : TrxContext}
    (h : scheduleTransaction cfg ctx s trx = .ok s') :
    ∃ s₁, createGeneratedTransaction s (newGeneratedTransaction ctx s.next_id (cfg.id trx) ⟨0⟩
        (transactionIdToSenderId (cfg.id trx)) (Chain.firstAuthorizer trx.actions)
        ((trx.delay_sec : Int) * 1000000) (cfg.pack trx)) = .ok s₁ ∧
      s' = { s₁ with
        ram := addRamUsage s₁.ram (Chain.firstAuthorizer trx.actions)
          (billableSizeGeneratedTransactionObject + (cfg.pack trx).length.toUInt32.toNat) } := by
  unfold scheduleTransaction at h
  obtain ⟨_, -, h⟩ := bind_eq_ok.1 h
  obtain ⟨s₁, hcreate, h⟩ := bind_eq_ok.1 h
  cases h
  exact ⟨s₁, hcreate, rfl⟩

/-- `schedule_transaction` keeps every balance of RAM. -/
theorem scheduleTransaction_ramBalance {ctx : TrxContext}
    (h : scheduleTransaction cfg ctx s trx = .ok s') (a : Name) :
    s'.ramBalance a = s.ramBalance a := by
  obtain ⟨s₁, hcreate, rfl⟩ := scheduleTransaction_ok h
  rw [ramBalance_charge, createGeneratedTransaction_ramBalance hcreate,
    billedTo_newGeneratedTransaction, Chain.toNat_toUInt32_of_lt (cfg.pack_lt trx)]
  ring

/-- Cancelling a deferred transaction keeps every balance of RAM. -/
theorem cancelDeferredTransaction_ramBalance (s : DeferredState) (sender_id : Nat) (sender a : Name) :
    (cancelDeferredTransaction s sender_id sender).1.ramBalance a = s.ramBalance a := by
  unfold cancelDeferredTransaction
  split
  · rename_i gto hgto
    exact removeScheduledTransaction_ramBalance (IndexedTable.mem_of_lookup hgto).1 a
  · rfl

end Operations

/-! ## Over every run -/

section Run

variable {cfg : DeferredConfig K} {s s' : DeferredState}

/-- Every operation keeps the balance of every account. -/
theorem deferredStep_ramBalance [DecidableEq K] {r : DeferredRequest K}
    (h : deferredStep cfg s r = .ok s') (a : Name) : s'.ramBalance a = s.ramBalance a := by
  cases r with
  | schedule_deferred_transaction ctx sender_id payer trx replace_existing =>
    exact scheduleDeferredTransaction_ramBalance h a
  | cancel_deferred_transaction sender_id sender =>
    cases h
    exact cancelDeferredTransaction_ramBalance s sender_id sender a
  | schedule_transaction ctx trx => exact scheduleTransaction_ramBalance h a
  | remove_scheduled_transaction trx_id =>
    obtain ⟨gto, hgto, h⟩ := bind_eq_ok.1 h
    cases h
    exact removeScheduledTransaction_ramBalance (IndexedTable.mem_of_lookup (liftDb_eq_ok.1 hgto)).1 a

/-- Over every run, each operation committed or rolled back, the balance of every account stays. -/
theorem DeferredState.ramBalance_run [DecidableEq K] (cfg : DeferredConfig K)
    (reqs : List (DeferredRequest K)) (s : DeferredState) (a : Name) :
    (Machine.run (deferredStep cfg) s reqs).ramBalance a = s.ramBalance a :=
  Machine.run_invariant (fun t => t.ramBalance a = s.ramBalance a)
    (fun _ _ _ ht h => (deferredStep_ramBalance h a).trans ht) reqs rfl

/-- After `replace_deferred`, no operation records a correction. -/
theorem deferredStep_ram_correction [DecidableEq K] {r : DeferredRequest K}
    (hrd : ∀ ctx sender_id payer trx replace_existing,
      r = .schedule_deferred_transaction ctx sender_id payer trx replace_existing →
        ctx.replace_deferred = true)
    (h : deferredStep cfg s r = .ok s') : s'.ram_correction = s.ram_correction := by
  cases r with
  | schedule_deferred_transaction ctx sender_id payer trx replace_existing =>
    obtain ⟨trx', s₁, trx_size, -, hstore, rfl⟩ := scheduleDeferredTransaction_ok h
    exact (storeDeferredTransaction_ram_correction hstore (hrd _ _ _ _ _ rfl) :)
  | cancel_deferred_transaction sender_id sender =>
    cases h
    unfold cancelDeferredTransaction
    split <;> rfl
  | schedule_transaction ctx trx =>
    obtain ⟨s₁, hcreate, rfl⟩ := scheduleTransaction_ok h
    exact (createGeneratedTransaction_ok hcreate).2.2
  | remove_scheduled_transaction trx_id =>
    obtain ⟨gto, -, h⟩ := bind_eq_ok.1 h
    cases h
    rfl

/-- After `replace_deferred`, a run records no correction. -/
theorem DeferredState.ram_correction_run [DecidableEq K] (cfg : DeferredConfig K)
    (reqs : List (DeferredRequest K))
    (hrep : ∀ ctx sender_id payer trx replace_existing,
      DeferredRequest.schedule_deferred_transaction ctx sender_id payer trx replace_existing ∈ reqs →
        ctx.replace_deferred = true)
    (s : DeferredState) :
    (Machine.run (deferredStep cfg) s reqs).ram_correction = s.ram_correction :=
  Machine.run_invariant_of_mem (fun t => t.ram_correction = s.ram_correction) reqs
    (fun _ _ _ hr ht h => (deferredStep_ram_correction
      (fun ctx sender_id payer trx replace_existing e =>
        hrep ctx sender_id payer trx replace_existing (e ▸ hr)) h).trans ht) rfl

end Run

/-! ## The bookkeeping -/

section Example

/-- A packing for examples: every transaction packs to nothing and has the id `0`. -/
def emptyPacking : DeferredConfig Nat := ⟨fun _ => [], fun _ => 0, fun _ => by simp⟩

/-- An authorization database with the account `eosio` and its `active` permission. -/
def eosioAuthState : Auth.AuthState Nat where
  accounts := ⟨[⟨systemAccountName, true⟩], List.pairwise_singleton _ _⟩
  permissions := ⟨[⟨1, 0, systemAccountName, activeName, Auth.genesisAuthority⟩],
    List.pairwise_singleton _ _⟩
  next_permission_id := 2
  links := .empty
  ram := fun _ => 0

/-- `eosio`, privileged, sending a transaction in its own action, with the protocol features of
today. -/
def eosioDeferredContext : DeferredContext Nat where
  receiver := systemAccountName
  act_account := systemAccountName
  authorization := [⟨systemAccountName, activeName⟩]
  net := ⟨0, 1000, false, false, false⟩
  base_per_transaction_net_usage := 12
  deferred_trx_expiration_window := 600
  pending_block_time := 0
  privileged := true
  trx_id := 0
  am := ⟨Auth.genesisConfig, true, eosioAuthState, []⟩
  head_block_num := 0
  head_block_id_prefix := 0
  is_producing_block := false
  skip_auth_check := false
  all_subjective_mitigations_disabled := false
  ram_billing_in_notify_allowed := false
  no_duplicate_deferred_id := true
  replace_deferred := true
  ram_restrictions := true
  restrict_action_to_self := true

/-- A transaction of one action of `eosio` under its `active` permission, with the given
context-free actions. -/
def eosioTransaction (context_free_actions : List (Action Nat)) : DeferredTransaction Nat :=
  ⟨0, 0, 0, 0, context_free_actions,
    [⟨systemAccountName, systemAccountName, [⟨systemAccountName, activeName⟩], .other⟩], []⟩

end Example

/-- Over every run of scheduling, cancelling and retiring generated transactions from none, with
`replace_deferred` active: no two objects share a sender and a sender id; scheduling under the
sender and id of an object without replacing it changes nothing, and raises
`deferred_tx_duplicate` when the checks before the lookup pass, and otherwise what the first
check that fails raises; and the RAM charged to each account is what its objects bill. -/
theorem deferred_transaction_bookkeeping [DecidableEq K] (cfg : DeferredConfig K)
    (reqs : List (DeferredRequest K))
    (hrep : ∀ ctx sender_id payer trx replace_existing,
      DeferredRequest.schedule_deferred_transaction ctx sender_id payer trx replace_existing ∈ reqs →
        ctx.replace_deferred = true) :
    let s := Machine.run (deferredStep cfg) DeferredState.empty reqs
    (∀ g ∈ s.generated_transactions.rows, ∀ g' ∈ s.generated_transactions.rows,
      g.sender = g'.sender → g.sender_id = g'.sender_id → g = g') ∧
    (∀ ctx sender_id payer trx,
      (s.generated_transactions.lookup GeneratedTransactionObject.senderKey
        (ctx.receiver, sender_id)).isSome →
      Machine.commit (deferredStep cfg) s
          (.schedule_deferred_transaction ctx sender_id payer trx false) = s ∧
        (∀ trx', deferredChecks ctx sender_id payer trx = .ok trx' →
          deferredStep cfg s (.schedule_deferred_transaction ctx sender_id payer trx false) =
            .error ⟨.deferred_tx_duplicate,
              "deferred transaction with the same sender_id and payer already exists"⟩) ∧
        ∀ e, deferredChecks ctx sender_id payer trx = .error e →
          deferredStep cfg s (.schedule_deferred_transaction ctx sender_id payer trx false) =
            .error e) ∧
    ∀ a, s.ram a = s.billed a := by
  intro s
  refine ⟨fun g hg g' hg' hsender hid => s.eq_of_senderKey hg hg' ?_,
    fun ctx sender_id payer trx hsome => ?_, fun a => ?_⟩
  · rw [GeneratedTransactionObject.senderKey, GeneratedTransactionObject.senderKey, hsender, hid]
  · obtain ⟨ptr, hptr⟩ := Option.isSome_iff_exists.1 hsome
    have hdup : scheduleDeferredTransaction cfg ctx s sender_id payer trx false = _ :=
      scheduleDeferredTransaction_of_duplicate hptr
    -- the step raises whatever the checks do, so the request is rolled back
    refine ⟨?_, fun trx' hchecks => by rw [hchecks] at hdup; exact hdup,
      fun e hchecks => by rw [hchecks] at hdup; exact hdup⟩
    cases hchecks : deferredChecks ctx sender_id payer trx with
    | ok trx' =>
      rw [hchecks] at hdup
      exact Machine.commit_of_error hdup
    | error e =>
      rw [hchecks] at hdup
      exact Machine.commit_of_error hdup
  · -- the balance starts and stays at zero, and there is no correction
    have hbal : s.ramBalance a = DeferredState.empty.ramBalance a :=
      DeferredState.ramBalance_run cfg reqs DeferredState.empty a
    have hcorr : s.ram_correction = DeferredState.empty.ram_correction :=
      DeferredState.ram_correction_run cfg reqs hrep DeferredState.empty
    have h0 : DeferredState.empty.ramBalance a = 0 := by
      simp [DeferredState.ramBalance, DeferredState.billed, DeferredState.empty]
    rw [h0, DeferredState.ramBalance, hcorr] at hbal
    have hc0 : DeferredState.empty.ram_correction a = 0 := rfl
    linarith

/-- The RAM of `eosio` after it schedules one transaction. -/
theorem deferred_bookkeeping_one_schedule :
    (Machine.run (deferredStep emptyPacking) DeferredState.empty
        [.schedule_deferred_transaction eosioDeferredContext 1 systemAccountName
          (eosioTransaction []) false]).ram systemAccountName =
      (Machine.run (deferredStep emptyPacking) DeferredState.empty
        [.schedule_deferred_transaction eosioDeferredContext 1 systemAccountName
          (eosioTransaction []) false]).billed systemAccountName :=
  (deferred_transaction_bookkeeping emptyPacking _ (by
    intro ctx sender_id payer trx replace_existing h
    simp only [List.mem_singleton, DeferredRequest.schedule_deferred_transaction.injEq] at h
    rw [h.1]
    rfl)).2.2 systemAccountName

/-- `eosio` schedules a transaction under the id `1`, then one with a context-free action under the
same id without replacing it: the second raises `cfa_inside_generated_tx`, not
`deferred_tx_duplicate`. -/
theorem deferred_duplicate_raises_cfa :
    ∃ s₁, deferredStep emptyPacking DeferredState.empty
        (.schedule_deferred_transaction eosioDeferredContext 1 systemAccountName
          (eosioTransaction []) false) = .ok s₁ ∧
      (s₁.generated_transactions.lookup GeneratedTransactionObject.senderKey
        (systemAccountName, 1)).isSome ∧
      deferredStep emptyPacking s₁
          (.schedule_deferred_transaction eosioDeferredContext 1 systemAccountName
            (eosioTransaction [⟨systemAccountName, systemAccountName, [], .other⟩]) false) =
        .error ⟨.cfa_inside_generated_tx,
          "context free actions are not currently allowed in generated transactions"⟩ :=
  ⟨_, rfl, rfl, rfl⟩

end InfraBlockchain.Contract
