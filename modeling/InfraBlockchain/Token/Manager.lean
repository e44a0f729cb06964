import InfraBlockchain.Lib.IndexedTable
import InfraBlockchain.Types

/-!
# The standard-token tables and `standard_token_manager`

Every account can be a token: its `token_meta_object` holds the symbol, the total supply and two
texts, and one `token_balance_object` per holder holds that holder's balance
(`infrablockchain/chain/standard_token_object.hpp`). The meta table is unique by `token_id`, the
balance table by `(token_id, account)`.

The functions of `chain/infrablockchain/standard_token_manager.cpp` that change these tables are
translated here over a `TokenState`: the two tables, the accounts that exist, and the RAM that the
functions charge to each account through `apply_context::add_ram_usage`. A balance row is created
on the first credit of an account and removed when a debit takes its whole balance; each creation
charges the row's billable size to the holder and each removal refunds it. Arithmetic on
`share_type` is `Int64`, which wraps as the C++ `int64_t` does in practice.
-/

namespace InfraBlockchain.Token

/-- `token_meta_object`. -/
structure TokenMetaObject where
  /-- The token's account. -/
  token_id : Name
  /-- Symbol and precision. -/
  sym : Symbol
  /-- Issued less retired. -/
  total_supply : Int64
  /-- Web site of the token. -/
  url : String
  /-- Description of the token. -/
  desc : String
  deriving DecidableEq, Repr

/-- `token_balance_object`. -/
structure TokenBalanceObject where
  /-- The token's account. -/
  token_id : Name
  /-- The holder. -/
  account : Name
  /-- The holder's balance. -/
  balance : Int64
  deriving DecidableEq, Repr

/-- Two meta rows clash in the `by_token_id` index. -/
def TokenMetaObject.clash (a b : TokenMetaObject) : Prop := a.token_id = b.token_id

/-- Two balance rows clash in the `by_token_account` index. -/
def TokenBalanceObject.clash (a b : TokenBalanceObject) : Prop :=
  a.token_id = b.token_id ∧ a.account = b.account

instance : DecidableRel TokenMetaObject.clash := fun a b =>
  inferInstanceAs (Decidable (a.token_id = b.token_id))

instance : DecidableRel TokenBalanceObject.clash := fun a b =>
  inferInstanceAs (Decidable (a.token_id = b.token_id ∧ a.account = b.account))

/-- `billable_size_v<token_meta_object>`: `32 + 2 (8 + 4 + 256)` bytes and two index overheads of
32, rounded up to 16. -/
def billableSizeTokenMeta : Int := 640

/-- `billable_size_v<token_balance_object>`: 32 bytes and two index overheads of 32. -/
def billableSizeTokenBalance : Int := 96

/-- What the standard-token functions read and write of the chain state. -/
structure TokenState where
  /-- The names of the `account_object`s. -/
  accounts : List Name
  /-- The `token_meta_object` table. -/
  metas : IndexedTable TokenMetaObject TokenMetaObject.clash
  /-- The `token_balance_object` table. -/
  balances : IndexedTable TokenBalanceObject TokenBalanceObject.clash
  /-- The RAM delta charged to each account through `apply_context::add_ram_usage`. -/
  ram : Name → Int

/-- What a handler reads of its `apply_context`: the receiver, the account of the action, and the
action's declared authorizations. -/
structure ApplyContext where
  /-- `apply_context::receiver`. -/
  receiver : Name
  /-- `act->account`, the contract that the action names. -/
  act_account : Name
  /-- `act->authorization`. -/
  authorization : List PermissionLevel

/-- The lookup of the meta row of `token_id` (`by_token_id`). -/
def byTokenId (token_id : Name) (m : TokenMetaObject) : Bool := m.token_id == token_id

/-- The lookup of the balance row of `owner` in `token_id` (`by_token_account`). -/
def byTokenAccount (token_id owner : Name) (b : TokenBalanceObject) : Bool :=
  b.token_id == token_id && b.account == owner

/-- `apply_context::is_account`. -/
def isAccount (s : TokenState) (a : Name) : Bool := s.accounts.contains a

/-- `apply_context::require_authorization`: some declared authorization has `account` as actor. -/
def requireAuthorization (ctx : ApplyContext) (account : Name) : Except Exception Unit :=
  eosAssert (ctx.authorization.any (·.actor == account)) .missing_auth_exception
    "missing authority of ${account}"

/-- `apply_context::add_ram_usage`, on the RAM ledger. -/
def addRamUsage (ram : Name → Int) (account : Name) (ram_delta : Int) : Name → Int :=
  Function.update ram account (ram account + ram_delta)

/-- `standard_token_manager::get_token_meta_object`. -/
def getTokenMetaObject (s : TokenState) (token_id : Name) : Option TokenMetaObject :=
  s.metas.find? (byTokenId token_id)

/-- `standard_token_manager::get_token_balance`: the balance, or zero without a row. -/
def getTokenBalance (s : TokenState) (token_id account : Name) : Int64 :=
  match s.balances.find? (byTokenAccount token_id account) with
  | some b => b.balance
  | none => 0

/-- The action data of `settokenmeta`. -/
structure Settokenmeta where
  /-- Symbol and precision. -/
  sym : Symbol
  /-- Web site of the token. -/
  url : String
  /-- Description of the token. -/
  desc : String

/-- `standard_token_manager::set_token_meta_info`: the meta row of `token_id` is created with a zero
supply, charging its size to `token_id`, or its texts are changed, keeping its symbol. -/
def setTokenMetaInfo (s : TokenState) (token_id : Name) (token_meta : Settokenmeta) :
    Except Exception TokenState := do
  let url_size := token_meta.url.utf8ByteSize
  let desc_size := token_meta.desc.utf8ByteSize
  eosAssert token_meta.sym.valid .token_meta_validate_exception "invalid token symbol"
  eosAssert (url_size > 0 && url_size ≤ 255) .token_meta_validate_exception
    "invalid token url size"
  eosAssert (desc_size > 0 && desc_size ≤ 255) .token_meta_validate_exception
    "invalid token description size"
  match getTokenMetaObject s token_id with
  | some m =>
    eosAssert (m.sym.value == token_meta.sym.value) .token_meta_validate_exception
      "token symbol cannot be modified once it is set"
    eosAssert (m.url != token_meta.url || m.desc != token_meta.desc) .token_meta_validate_exception
      "attempting update token metadata, but new metadata is same as old one"
    let metas ← liftDb .unique_index_violation "could not modify object"
      (s.metas.modify (byTokenId token_id) fun m =>
        { m with url := token_meta.url, desc := token_meta.desc })
    pure { s with metas }
  | none =>
    let metas ← liftDb .unique_index_violation "could not insert object"
      (s.metas.create ⟨token_id, token_meta.sym, 0, token_meta.url, token_meta.desc⟩)
    pure { s with metas := metas, ram := addRamUsage s.ram token_id billableSizeTokenMeta }

/-- `standard_token_manager::update_token_total_supply`: `total_supply += delta` on the meta row. -/
def updateTokenTotalSupply (s : TokenState) (token_meta : TokenMetaObject) (delta : Int64) :
    Except Exception TokenState := do
  let metas ← liftDb .unique_index_violation "could not modify object"
    (s.metas.modify (byTokenId token_meta.token_id) fun m =>
      { m with total_supply := m.total_supply + delta })
  pure { s with metas }

/-- `standard_token_manager::add_token_balance`: credit `owner`, creating its row on the first
credit and charging the row to `owner`. -/
def addTokenBalance (ctx : ApplyContext) (s : TokenState) (token_id owner : Name) (value : Int64) :
    Except Exception TokenState := do
  eosAssert (ctx.receiver == token_id) .invalid_token_balance_update_access_exception
    "add_token_balance : action context receiver mismatches token-id"
  match s.balances.find? (byTokenAccount token_id owner) with
  | some _ =>
    let balances ← liftDb .unique_index_violation "could not modify object"
      (s.balances.modify (byTokenAccount token_id owner) fun b =>
        { b with balance := b.balance + value })
    pure { s with balances }
  | none =>
    let balances ← liftDb .unique_index_violation "could not insert object"
      (s.balances.create ⟨token_id, owner, value⟩)
    pure { s with balances := balances, ram := addRamUsage s.ram owner billableSizeTokenBalance }

/-- `standard_token_manager::subtract_token_balance`: debit `owner`, removing its row and refunding
the row's RAM when the debit takes the whole balance. -/
def subtractTokenBalance (ctx : ApplyContext) (s : TokenState) (token_id owner : Name)
    (value : Int64) : Except Exception TokenState := do
  eosAssert (ctx.receiver == token_id) .invalid_token_balance_update_access_exception
    "subtract_token_balance : action context receiver mismatches token-id"
  match s.balances.find? (byTokenAccount token_id owner) with
  | some b =>
    eosAssert (b.balance ≥ value) .insufficient_token_balance_exception
      "account ${account} has insufficient token balance (token-id: ${token_id})"
    if b.balance == value then
      pure { s with
        balances := s.balances.remove (byTokenAccount token_id owner)
        ram := addRamUsage s.ram owner (-billableSizeTokenBalance) }
    else
      let balances ← liftDb .unique_index_violation "could not modify object"
        (s.balances.modify (byTokenAccount token_id owner) fun b =>
          { b with balance := b.balance - value })
      pure { s with balances }
  | none =>
    .error ⟨.insufficient_token_balance_exception,
      "account ${account} has insufficient token balance (token-id: ${token_id})"⟩

/-! ## The operations of `apply_context` -/

/-- The meta row of the receiver, or `token_not_yet_created_exception`. -/
def requireTokenMeta (s : TokenState) (token_id : Name) : Except Exception TokenMetaObject :=
  match getTokenMetaObject s token_id with
  | some m => .ok m
  | none => .error ⟨.token_not_yet_created_exception,
      "token not yet created for the account ${token_id}"⟩

/-- `apply_context::issue_token`: new tokens of the receiver to `to_`. The overflow guard is
`old_total_supply + amount > 0` on wrapping 64-bit words. -/
def issueToken (ctx : ApplyContext) (s : TokenState) (to_ : Name) (amount : Int64) :
    Except Exception TokenState := do
  eosAssert to_.good .token_action_validate_exception "invalid to account name"
  eosAssert (amount > 0) .token_action_validate_exception
    "amount of token issuance must be greater than 0"
  let token_id := ctx.receiver
  let token_meta_obj ← requireTokenMeta s token_id
  eosAssert (isAccount s to_) .no_token_target_account_exception
    "token issuance target account ${account} does not exist"
  let old_total_supply := token_meta_obj.total_supply
  eosAssert (old_total_supply + amount > 0) .token_balance_overflow_exception
    "total supply balance overflow"
  let s ← updateTokenTotalSupply s token_meta_obj amount
  addTokenBalance ctx s token_id to_ amount

/-- `apply_context::transfer_token`: tokens of the receiver from `from_` to `to_`, which may be
the same account. -/
def transferToken (ctx : ApplyContext) (s : TokenState) (from_ to_ : Name) (amount : Int64) :
    Except Exception TokenState := do
  eosAssert from_.good .token_action_validate_exception "invalid from account name"
  eosAssert to_.good .token_action_validate_exception "invalid to account name"
  eosAssert (amount > 0) .token_action_validate_exception
    "amount of token transfer must be greater than 0"
  let token_id := ctx.receiver
  eosAssert (isAccount s from_) .no_token_target_account_exception
    "transfer from account ${account} does not exist"
  eosAssert (isAccount s to_) .no_token_target_account_exception
    "transfer to account ${account} does not exist"
  let s ← subtractTokenBalance ctx s token_id from_ amount
  addTokenBalance ctx s token_id to_ amount

/-- `apply_context::retire_token`: burn tokens held by the receiver itself. The underflow guard is
`current_total_supply - amount > 0`. -/
def retireToken (ctx : ApplyContext) (s : TokenState) (amount : Int64) :
    Except Exception TokenState := do
  eosAssert (amount > 0) .token_action_validate_exception
    "amount of token redemption must be greater than 0"
  let token_account := ctx.receiver
  let token_meta_obj ← requireTokenMeta s token_account
  let current_total_supply := token_meta_obj.total_supply
  eosAssert (current_total_supply - amount > 0) .token_balance_underflow_exception
    "total supply balance underflow"
  let s ← updateTokenTotalSupply s token_meta_obj (-amount)
  subtractTokenBalance ctx s token_account token_account amount

end InfraBlockchain.Token
