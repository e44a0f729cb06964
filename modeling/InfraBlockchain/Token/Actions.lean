import InfraBlockchain.Lib.Machine
import InfraBlockchain.Token.Manager

/-!
# The built-in standard-token actions and the token intrinsics

Every account has five built-in actions (`chain/infrablockchain/standard_token_action_handlers.cpp`):
`settokenmeta`, `issue`, `transfer`, `txfee` and `retire`. Each handler runs only in its first
receiver's context, checks its data and the declared authorization, and then calls the
operations of `apply_context` or the manager. A contract reaches the same operations through the
intrinsics `issue_token`, `transfer_token` and `retire_token` of `wasm_interface.cpp`, which pass
their arguments on unchecked; there `from` and `to` of a transfer may be the same account.

`tokenStep` runs one of these eight requests on a `TokenState`. A request that raises is rolled
back with its transaction, which `Machine.run` models.
-/

namespace InfraBlockchain.Token

/-- The action data of `issue`. -/
structure Issue where
  /-- The account credited. -/
  to_ : Name
  /-- The amount issued, in the token's symbol. -/
  quantity : Asset
  /-- A note. -/
  memo : String

/-- The action data of `transfer`. -/
structure Transfer where
  /-- The account debited. -/
  from_ : Name
  /-- The account credited. -/
  to_ : Name
  /-- The amount moved. -/
  quantity : Asset
  /-- A note. -/
  memo : String

/-- The action data of `txfee`. -/
structure Txfee where
  /-- The account that pays the fee. -/
  payer : Name
  /-- The fee. -/
  fee : Asset

/-- The action data of `retire`. -/
structure Retire where
  /-- The amount burnt. -/
  quantity : Asset
  /-- A note. -/
  memo : String

/-- The meta row of the action's token, or the handlers' `token_not_yet_created_exception`. -/
def requireHandlerTokenMeta (s : TokenState) (token_id : Name) :
    Except Exception TokenMetaObject :=
  match getTokenMetaObject s token_id with
  | some m => .ok m
  | none => .error ⟨.token_not_yet_created_exception,
      "token not yet created for the account ${account}"⟩

/-- `apply_infrablockchain_built_in_action_settokenmeta`. -/
def applySettokenmeta (ctx : ApplyContext) (s : TokenState) (act : Settokenmeta) :
    Except Exception TokenState := do
  let token_id := ctx.act_account
  eosAssert (token_id == ctx.receiver) .token_action_validate_exception
    "settokenmeta built-in standard token action handler should be invoked only in first receiver context"
  requireAuthorization ctx token_id
  setTokenMetaInfo s token_id act

/-- `apply_infrablockchain_built_in_action_issue`. -/
def applyIssue (ctx : ApplyContext) (s : TokenState) (act : Issue) :
    Except Exception TokenState := do
  let token_id := ctx.act_account
  eosAssert (token_id == ctx.receiver) .token_action_validate_exception
    "issue built-in standard token action handler should be invoked only in first receiver context"
  eosAssert act.quantity.isValid .token_action_validate_exception "invalid quantity"
  eosAssert (act.memo.utf8ByteSize ≤ 256) .token_action_validate_exception
    "memo has more than 256 bytes"
  let token_meta_obj ← requireHandlerTokenMeta s token_id
  eosAssert (act.quantity.sym == token_meta_obj.sym) .token_symbol_mismatch_exception
    "token symbol of quantity field mismatches with the symbol(${sym}) of the registered token metadata"
  requireAuthorization ctx token_id
  issueToken ctx s act.to_ act.quantity.amount

/-- `apply_infrablockchain_built_in_action_transfer`. -/
def applyTransfer (ctx : ApplyContext) (s : TokenState) (act : Transfer) :
    Except Exception TokenState := do
  let token_id := ctx.act_account
  eosAssert (token_id == ctx.receiver) .token_action_validate_exception
    "transfer built-in standard token action handler should be invoked only in first receiver context"
  eosAssert (act.from_ != act.to_) .token_action_validate_exception "same from, to account"
  eosAssert act.quantity.isValid .token_action_validate_exception "invalid quantity"
  eosAssert (act.memo.utf8ByteSize ≤ 256) .token_action_validate_exception
    "memo has more than 256 bytes"
  let token_meta_obj ← requireHandlerTokenMeta s token_id
  eosAssert (act.quantity.sym == token_meta_obj.sym) .token_symbol_mismatch_exception
    "token symbol of quantity field mismatches with the symbol(${sym}) of the registered token metadata"
  requireAuthorization ctx act.from_
  transferToken ctx s act.from_ act.to_ act.quantity.amount

/-- `apply_infrablockchain_built_in_action_txfee`: the fee moves from the payer to `sys.txfee`. -/
def applyTxfee (ctx : ApplyContext) (s : TokenState) (act : Txfee) :
    Except Exception TokenState := do
  let token_id := ctx.act_account
  eosAssert (token_id == ctx.receiver) .token_action_validate_exception
    "txfee built-in standard token action handler should be invoked only in first receiver context"
  let payer_account := act.payer
  eosAssert payer_account.good .token_action_validate_exception "invalid payer account name"
  eosAssert act.fee.isValid .token_action_validate_exception "invalid fee quantity"
  let txfee_amount := act.fee.amount
  eosAssert (txfee_amount > 0) .token_action_validate_exception
    "tx fee amount must be greater than 0"
  let token_meta_obj ← requireHandlerTokenMeta s token_id
  eosAssert (act.fee.sym == token_meta_obj.sym) .token_symbol_mismatch_exception
    "token symbol of fee quantity field mismatches with the symbol(${sym}) of the registered token metadata"
  eosAssert (isAccount s payer_account) .no_token_target_account_exception
    "tx fee payer account ${account} does not exist"
  requireAuthorization ctx payer_account
  let s ← subtractTokenBalance ctx s token_id payer_account txfee_amount
  addTokenBalance ctx s token_id sysTxFeeAccountName txfee_amount

/-- `apply_infrablockchain_built_in_action_retire`. -/
def applyRetire (ctx : ApplyContext) (s : TokenState) (act : Retire) :
    Except Exception TokenState := do
  let token_id := ctx.act_account
  eosAssert (token_id == ctx.receiver) .token_action_validate_exception
    "retire built-in standard token action handler should be invoked only in first receiver context"
  eosAssert act.quantity.isValid .token_action_validate_exception
    "invalid token redemption quantity"
  eosAssert (act.memo.utf8ByteSize ≤ 256) .token_action_validate_exception
    "memo has more than 256 bytes"
  let token_meta_obj ← requireHandlerTokenMeta s token_id
  eosAssert (act.quantity.sym == token_meta_obj.sym) .token_symbol_mismatch_exception
    "token symbol of redemption quantity field mismatches with the symbol(${sym}) of the registered token metadata"
  requireAuthorization ctx token_id
  retireToken ctx s act.quantity.amount

/-- The requests that reach the standard-token tables: the five built-in actions and the three
intrinsics, each in the context that runs it. -/
inductive TokenRequest where
  | settokenmeta (ctx : ApplyContext) (act : Settokenmeta)
  | issue (ctx : ApplyContext) (act : Issue)
  | transfer (ctx : ApplyContext) (act : Transfer)
  | txfee (ctx : ApplyContext) (act : Txfee)
  | retire (ctx : ApplyContext) (act : Retire)
  | issue_token (ctx : ApplyContext) (to_ : Name) (amount : Int64)
  | transfer_token (ctx : ApplyContext) (from_ to_ : Name) (amount : Int64)
  | retire_token (ctx : ApplyContext) (amount : Int64)

/-- One request. The intrinsics are `token_api::issue_token`, `transfer_token` and
`retire_token`, which call `apply_context` directly. -/
def tokenStep (s : TokenState) : TokenRequest → Except Exception TokenState
  | .settokenmeta ctx act => applySettokenmeta ctx s act
  | .issue ctx act => applyIssue ctx s act
  | .transfer ctx act => applyTransfer ctx s act
  | .txfee ctx act => applyTxfee ctx s act
  | .retire ctx act => applyRetire ctx s act
  | .issue_token ctx to_ amount => issueToken ctx s to_ amount
  | .transfer_token ctx from_ to_ amount => transferToken ctx s from_ to_ amount
  | .retire_token ctx amount => retireToken ctx s amount

/-- The state before any token exists: the accounts, no rows, and no RAM charged. -/
def TokenState.init (accounts : List Name) : TokenState :=
  ⟨accounts, .empty, .empty, fun _ => 0⟩

end InfraBlockchain.Token
