import Mathlib.Data.List.Basic

/-!
# Names, permission levels, symbols, assets and exceptions

The chain's basic types as `libraries/chain/include/eosio/chain/{name,symbol,asset}.hpp` define
them. A `name` is a 64-bit word, written from text by `string_to_uint64_t`: five bits for each of
the first twelve characters and four for the thirteenth. A `symbol` keeps its precision in the low
byte and its upper-case code in the bytes above it. An `asset` is a signed 64-bit amount
(`share_type`, `int64_t`) with a symbol; `Int64` gives the wrap-around of the C++ arithmetic.

A failed `EOS_ASSERT` raises an exception of a named type with a message. `Exception` keeps both:
the type, as the constructor of `ExceptionKind` of the same name, and the message's format text.
-/

namespace InfraBlockchain

/-! ## Names -/

/-- `name`: an account, permission or action name, a 64-bit word. -/
structure Name where
  /-- The encoded word. -/
  value : UInt64
  deriving DecidableEq, Repr, Inhabited

/-- `char_to_symbol`: `a`-`z` are 6 to 31, `1`-`5` are 1 to 5, any other character is 0. -/
def charToSymbol (c : Char) : UInt64 :=
  if 'a' ≤ c ∧ c ≤ 'z' then (c.toNat - 'a'.toNat + 6).toUInt64
  else if '1' ≤ c ∧ c ≤ '5' then (c.toNat - '1'.toNat + 1).toUInt64
  else 0

/-- The loop of `string_to_uint64_t` from character `i`: each of the first twelve characters goes
into five bits from the top; the thirteenth goes into the low four bits. -/
def stringToUint64Aux : Nat → List Char → UInt64 → UInt64
  | _, [], n => n
  | i, c :: cs, n =>
    if c = '\x00' then n
    else if i < 12 then
      stringToUint64Aux (i + 1) cs (n ||| ((charToSymbol c &&& 0x1f) <<< (64 - 5 * (i + 1)).toUInt64))
    else n ||| (charToSymbol c &&& 0x0F)

/-- `string_to_uint64_t`. -/
def stringToUint64 (s : String) : UInt64 := stringToUint64Aux 0 s.toList 0

/-- `N(s)`, the name that the text `s` denotes. -/
def Name.ofString (s : String) : Name := ⟨stringToUint64 s⟩

/-- `name::empty`. -/
def Name.empty (n : Name) : Bool := n.value == 0

/-- `name::good`. -/
def Name.good (n : Name) : Bool := !n.empty

/-- Names are ordered by their words, as `name::operator<` orders them. -/
instance : LT Name := ⟨fun a b => a.value < b.value⟩

instance (a b : Name) : Decidable (a < b) := inferInstanceAs (Decidable (a.value < b.value))

/-- `config::system_account_name`. -/
def systemAccountName : Name := .ofString "eosio"

/-- `config::active_name`. -/
def activeName : Name := .ofString "active"

/-- `config::owner_name`. -/
def ownerName : Name := .ofString "owner"

/-- `config::eosio_any_name`. -/
def eosioAnyName : Name := .ofString "eosio.any"

/-- `config::eosio_code_name`. -/
def eosioCodeName : Name := .ofString "eosio.code"

/-- `infrablockchain_sys_tx_fee_account_name`, the account that collects transaction fees. -/
def sysTxFeeAccountName : Name := .ofString "sys.txfee"

/-- `permission_level`: an actor and one of its permissions. -/
structure PermissionLevel where
  /-- The account. -/
  actor : Name
  /-- The permission of the account. -/
  permission : Name
  deriving DecidableEq, Repr, Inhabited

/-! ## Symbols and assets -/

/-- `symbol`: the precision in the low byte, the code's characters in the bytes above. -/
structure Symbol where
  /-- The encoded word. -/
  value : UInt64
  deriving DecidableEq, Repr, Inhabited

/-- `symbol::max_precision`. -/
def Symbol.maxPrecision : Nat := 18

/-- `symbol::decimals`, the low byte. -/
def Symbol.decimals (s : Symbol) : Nat := (s.value &&& 0xFF).toNat

/-- The loop of `symbol::name` on the word above the precision: one character per byte, from the
low byte up, while the rest is not zero. -/
def symbolNameBytes (v : Nat) : List Nat :=
  if h : v = 0 then [] else v % 256 :: symbolNameBytes (v / 256)
termination_by v
decreasing_by omega

/-- `symbol::name`, as the characters' codes. -/
def Symbol.name (s : Symbol) : List Nat := symbolNameBytes (s.value >>> 8).toNat

/-- `symbol::valid_name`: every character is an upper-case letter. -/
def Symbol.validName (cs : List Nat) : Bool := cs.all fun c => 'A'.toNat ≤ c && c ≤ 'Z'.toNat

/-- `symbol::valid`. -/
def Symbol.valid (s : Symbol) : Bool := s.decimals ≤ Symbol.maxPrecision && Symbol.validName s.name

/-- `asset`: an amount of a token with its symbol. -/
structure Asset where
  /-- `asset::amount`, a `share_type`. -/
  amount : Int64
  /-- `asset::sym`. -/
  sym : Symbol
  deriving DecidableEq, Repr, Inhabited

/-- `asset::max_amount`, `2^62 - 1`. -/
def Asset.maxAmount : Int64 := 4611686018427387903

/-- `asset::is_amount_within_range`. -/
def Asset.isAmountWithinRange (a : Asset) : Bool :=
  -Asset.maxAmount ≤ a.amount && a.amount ≤ Asset.maxAmount

/-- `asset::is_valid`. -/
def Asset.isValid (a : Asset) : Bool := a.isAmountWithinRange && a.sym.valid

/-! ## Exceptions -/

/-- The exception types that the modelled code raises, named as in `exceptions.hpp`, with
`out_of_range_exception` from fc's unpacking, `parse_error_exception` from its number conversions,
`overflow_exception` and `underflow_exception` from its checked arithmetic, and `assert_exception`
from a `static_variant::get` of a type that the variant does not hold; `unique_index_violation` and `unknown_key` are the
container's own failures, a unique index violated by `create` or `modify` and a `get` of a missing
row. -/
inductive ExceptionKind where
  | missing_auth_exception
  | action_validate_exception
  | token_action_validate_exception
  | token_meta_validate_exception
  | token_not_yet_created_exception
  | token_symbol_mismatch_exception
  | no_token_target_account_exception
  | token_balance_overflow_exception
  | token_balance_underflow_exception
  | insufficient_token_balance_exception
  | invalid_token_balance_update_access_exception
  | infrablockchain_transaction_fee_exception
  | weighted_system_token_balance_overflow_exception
  | weighted_total_system_token_balance_per_account_overflow_exception
  | unaccessible_api
  | wasm_execution_error
  | tx_votes_weighted_unique_idx_value_overflow
  | unsatisfied_authorization
  | tx_irrelevant_sig
  | irrelevant_auth_exception
  | permission_query_exception
  | invalid_permission
  | unlinkable_min_permission_action
  | unactivated_key_type
  | account_name_exists_exception
  | account_query_exception
  | rate_limiting_state_inconsistent
  | block_validate_exception
  | fork_db_block_not_found
  | fork_database_exception
  | unlinkable_block_exception
  | tx_duplicate
  | expired_tx_exception
  | tx_exp_too_far_exception
  | invalid_ref_block_exception
  | invalid_transaction_fee_payer_account
  | invalid_transaction_extension
  | ill_formed_deferred_transaction_generation_context
  | ill_formed_transaction_fee_payer_tx_ext
  | ill_formed_transaction_vote_tx_ext
  | transaction_exception
  | tx_not_found
  | subjective_block_production_exception
  | out_of_range_exception
  | name_type_exception
  | resource_limit_exception
  | tx_cpu_usage_exceeded
  | tx_net_usage_exceeded
  | tx_resource_exhaustion
  | block_resource_exhausted
  | producer_double_confirm
  | producer_schedule_exception
  | wrong_producer
  | unique_index_violation
  | unknown_key
  | protocol_feature_exception
  | invalid_table_payer
  | table_access_violation
  | table_operation_not_permitted
  | invalid_table_iterator
  | table_not_in_cache
  | invalid_contract_vm_type
  | invalid_contract_vm_version
  | set_exact_code
  | deferred_tx_duplicate
  | cfa_inside_generated_tx
  | tx_no_auths
  | block_net_usage_exceeded
  | greylist_net_usage_exceeded
  | unknown_transaction_exception
  | assert_exception
  | chain_type_exception
  | contract_table_query_exception
  | asset_type_exception
  | symbol_type_exception
  | parse_error_exception
  | overflow_exception
  | underflow_exception
  deriving DecidableEq, Repr

/-- A raised exception: its type and its message's format text. -/
structure Exception where
  /-- The exception type. -/
  kind : ExceptionKind
  /-- The message, as the format text of the `EOS_ASSERT`. -/
  message : String
  deriving DecidableEq, Repr

/-- `EOS_ASSERT(cond, kind, message)`. -/
def eosAssert (cond : Bool) (kind : ExceptionKind) (message : String) : Except Exception Unit :=
  if cond then .ok () else .error ⟨kind, message⟩

/-- A container operation that fails with `none` raises the container's exception. -/
def liftDb {β : Type} (kind : ExceptionKind) (message : String) : Option β → Except Exception β
  | some b => .ok b
  | none => .error ⟨kind, message⟩

@[simp] theorem eosAssert_true (kind : ExceptionKind) (message : String) :
    eosAssert true kind message = .ok () := rfl

@[simp] theorem eosAssert_false (kind : ExceptionKind) (message : String) :
    eosAssert false kind message = .error ⟨kind, message⟩ := rfl

/-- An assertion passes exactly when its condition holds. -/
theorem eosAssert_eq_ok {cond : Bool} {kind : ExceptionKind} {message : String} {u : Unit} :
    eosAssert cond kind message = .ok u ↔ cond = true := by
  cases cond <;> simp [eosAssert]

/-- A step after an assertion runs when the condition holds and is skipped by the exception
otherwise. -/
@[simp] theorem eosAssert_bind {β : Type} (cond : Bool) (kind : ExceptionKind) (message : String)
    (f : Unit → Except Exception β) :
    (eosAssert cond kind message >>= f) = if cond then f () else .error ⟨kind, message⟩ := by
  cases cond <;> rfl

/-- A value returned after an assertion is returned when the condition holds. -/
@[simp] theorem map_eosAssert {β : Type} (f : Unit → β) (cond : Bool) (kind : ExceptionKind)
    (message : String) :
    f <$> eosAssert cond kind message = if cond then .ok (f ()) else .error ⟨kind, message⟩ := by
  cases cond <;> rfl

/-- A step after a container operation runs on its result, and is skipped by the container's
exception when it fails. -/
@[simp] theorem liftDb_bind {β γ : Type} (kind : ExceptionKind) (message : String) (o : Option β)
    (f : β → Except Exception γ) :
    (liftDb kind message o >>= f) = match o with
      | some b => f b
      | none => .error ⟨kind, message⟩ := by
  cases o <;> rfl

/-- A step after a result runs on it. -/
theorem ok_bind {β γ : Type} (b : β) (f : β → Except Exception γ) :
    (Except.ok b >>= f) = f b := rfl

/-- A step after an exception is skipped. -/
theorem error_bind {β γ : Type} (e : Exception) (f : β → Except Exception γ) :
    (Except.error e >>= f) = .error e := rfl

/-- A composed step succeeds when its first part succeeds and the rest succeeds on its result. -/
theorem bind_eq_ok {β γ : Type} {x : Except Exception β} {f : β → Except Exception γ} {c : γ} :
    (x >>= f) = .ok c ↔ ∃ b, x = .ok b ∧ f b = .ok c := by
  cases x with
  | error e => simp [bind, Except.bind]
  | ok b => simp [bind, Except.bind]

/-- A container operation succeeds with the value that it returns. -/
theorem liftDb_eq_ok {β : Type} {kind : ExceptionKind} {message : String} {o : Option β} {b : β} :
    liftDb kind message o = .ok b ↔ o = some b := by
  cases o <;> simp [liftDb]

/-- A computation that raises no exception of the type `k`: it succeeds, or raises another. -/
def RaisesNo {β : Type} (k : ExceptionKind) (x : Except Exception β) : Prop :=
  ∀ e, x = .error e → e.kind ≠ k

namespace RaisesNo

variable {β γ : Type} {k : ExceptionKind}

/-- A value raises nothing. -/
theorem ok (b : β) : RaisesNo k (.ok b : Except Exception β) := by
  intro e h
  cases h

/-- A composed step raises no `k` when its first part raises none and the rest raises none on
any result of the first part. -/
theorem bind {x : Except Exception β} {f : β → Except Exception γ} (hx : RaisesNo k x)
    (hf : ∀ b, x = .ok b → RaisesNo k (f b)) : RaisesNo k (x >>= f) := by
  intro e he
  cases hxv : x with
  | error e' =>
    rw [hxv] at he
    have he' : e' = e := by injection he
    exact he' ▸ hx e' hxv
  | ok b =>
    rw [hxv] at he
    exact hf b hxv e he

/-- An assertion of another type raises no `k`. -/
theorem eosAssert_of_ne {kind : ExceptionKind} (h : kind ≠ k) (cond : Bool) (message : String) :
    RaisesNo k (eosAssert cond kind message) := by
  intro e he
  cases cond with
  | false =>
    cases he
    exact h
  | true => cases he


/-- A container operation raises only the container's exception. -/
theorem liftDb {kind : ExceptionKind} (h : kind ≠ k) (message : String) (o : Option β) :
    RaisesNo k (InfraBlockchain.liftDb kind message o) := by
  intro e he
  cases o with
  | some b => cases he
  | none =>
    cases he
    exact h

end RaisesNo

end InfraBlockchain
