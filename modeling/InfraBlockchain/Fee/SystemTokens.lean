import Mathlib
import InfraBlockchain.Lib.Machine
import InfraBlockchain.Token.Manager

/-!
# The system token list

The tokens that pay transaction fees, with their weights, are the `system_token_list` of the
`infrablockchain_global_property_object` (`system_token_list.hpp`). Only the privileged intrinsic
`set_system_token_list_packed` writes it (`wasm_interface.cpp`): it checks the list's length
against `max_system_tokens`, that every token is an existing account with a valid entry, and that
no token is listed twice, and then `standard_token_manager::set_system_token_list` stores the list
with the next version, unless it equals the current one.

The checks of the intrinsic are kept by every run, so the weights by which `pay_transaction_fee`
divides are never zero. The version is a `uint32_t`, so it grows by one modulo `2^32`.
-/

namespace InfraBlockchain.Fee

open Token

/-- `max_system_tokens`. -/
def maxSystemTokens : Nat := 25

/-- `system_token`: a token account and its weight as fee payment, `10000` for `1.0x`. -/
structure SystemToken where
  /-- The token account. -/
  token_id : Name
  /-- The weight, `token_weight_1x` for one. -/
  token_weight : UInt32
  deriving DecidableEq, Repr

/-- `system_token::token_weight_1x`. -/
def tokenWeight1x : UInt32 := 10000

/-- `system_token::valid`. -/
def SystemToken.valid (t : SystemToken) : Bool := t.token_id.good && t.token_weight != 0

/-- `system_token_list`: a version and the tokens in their order of use. -/
structure SystemTokenList where
  /-- The version, incremented by each change. -/
  version : UInt32
  /-- The tokens. -/
  system_tokens : List SystemToken
  deriving DecidableEq, Repr

/-- `standard_token_manager::set_system_token_list`: `-1` when the tokens are the current ones,
else the new version, stored with the tokens. -/
def setSystemTokenList (cur : SystemTokenList) (system_tokens : List SystemToken) :
    Int64 × SystemTokenList :=
  if system_tokens == cur.system_tokens then (-1, cur)
  else
    let new_sys_token_list : SystemTokenList := ⟨cur.version + 1, system_tokens⟩
    (new_sys_token_list.version.toUInt64.toInt64, new_sys_token_list)

/-- What the intrinsic reads and writes: the accounts and the list. -/
structure SystemTokenState where
  /-- The names of the `account_object`s. -/
  accounts : List Name
  /-- `infrablockchain_global_property_object::system_token_list`. -/
  system_token_list : SystemTokenList

/-- The checks of the loop of `set_system_token_list_packed` on each token, in order. -/
def checkSystemTokens (accounts : List Name) : List SystemToken → Except Exception Unit
  | [] => .ok ()
  | sys_token :: rest => do
    eosAssert (accounts.contains sys_token.token_id) .wasm_execution_error
      "system token list includes a nonexisting account"
    eosAssert sys_token.valid .wasm_execution_error "system token list includes an invalid value"
    checkSystemTokens accounts rest

/-- `system_token_api::set_system_token_list_packed`, on the unpacked tokens. `is_privileged` is
the receiver's flag; the set of ids is the `std::set` that the loop fills. -/
def setSystemTokenListPacked (ctx : ApplyContext) (is_privileged : Bool) (s : SystemTokenState)
    (system_tokens : List SystemToken) : Except Exception (Int64 × SystemTokenState) := do
  eosAssert is_privileged .unaccessible_api "${code} does not have permission to call this API"
  requireAuthorization ctx systemAccountName
  eosAssert (system_tokens.length ≤ maxSystemTokens) .wasm_execution_error
    "System token list exceeds the maximum system token count for this chain"
  checkSystemTokens s.accounts system_tokens
  let unique_sys_tokens := (system_tokens.map (·.token_id)).toFinset
  eosAssert (system_tokens.length == unique_sys_tokens.card) .wasm_execution_error
    "duplicate system token id in system token list"
  let (version, system_token_list) := setSystemTokenList s.system_token_list system_tokens
  pure (version, { s with system_token_list })

/-- A call of the intrinsic: its context, the receiver's privilege and the tokens. -/
structure SetSystemTokenList where
  /-- The context of the calling action. -/
  ctx : ApplyContext
  /-- Whether the receiver is privileged. -/
  is_privileged : Bool
  /-- The unpacked tokens. -/
  system_tokens : List SystemToken

/-- One call, with its return value dropped. -/
def systemTokenStep (s : SystemTokenState) (r : SetSystemTokenList) :
    Except Exception SystemTokenState :=
  match setSystemTokenListPacked r.ctx r.is_privileged s r.system_tokens with
  | .ok (_, s') => .ok s'
  | .error e => .error e

/-- The list at genesis: version zero and no tokens. -/
def SystemTokenState.init (accounts : List Name) : SystemTokenState := ⟨accounts, ⟨0, []⟩⟩

/-- The divisor of a weighted fee in `pay_transaction_fee`: the token's weight as a `share_type`. -/
def feeDivisor (sys_token : SystemToken) : Int64 := sys_token.token_weight.toUInt64.toInt64

/-- One token's part of `pay_transaction_fee`: from the payer's balance in the token and the fee
that remains, the fee charged in this token and the fee that then remains. -/
def systemTokenFeeShare (sys_token : SystemToken) (cur_balance fee_remaining : Int64) :
    Int64 × Int64 :=
  if sys_token.token_weight != tokenWeight1x then
    let fee_for_this_token := fee_remaining * tokenWeight1x.toUInt64.toInt64 / feeDivisor sys_token
    if cur_balance ≥ fee_for_this_token then (fee_for_this_token, 0)
    else (cur_balance,
      fee_remaining - cur_balance * feeDivisor sys_token / tokenWeight1x.toUInt64.toInt64)
  else if cur_balance ≥ fee_remaining then (fee_remaining, 0)
  else (cur_balance, fee_remaining - cur_balance)

/-! ## What a call can do -/

/-- The loop's checks pass exactly when every token is an existing account with a valid entry. -/
theorem checkSystemTokens_eq_ok {accounts : List Name} {l : List SystemToken} :
    checkSystemTokens accounts l = .ok () ↔
      ∀ t ∈ l, accounts.contains t.token_id = true ∧ t.valid = true := by
  induction l with
  | nil => simp [checkSystemTokens]
  | cons t l ih =>
    simp only [checkSystemTokens, bind_eq_ok, eosAssert_eq_ok, exists_const, ih,
      List.forall_mem_cons, and_assoc]

/-- The ids of a list are distinct when as many as its tokens. -/
theorem nodup_of_card_eq {l : List SystemToken}
    (h : l.length = (l.map (·.token_id)).toFinset.card) : (l.map (·.token_id)).Nodup := by
  have hcard : (l.map (·.token_id)).toFinset.card = (l.map (·.token_id)).length := by
    rw [List.length_map]
    exact h.symm
  exact Multiset.toFinset_card_eq_card_iff_nodup.1 hcard

/-- `set_system_token_list` returns `-1` and keeps the list when the tokens are the current ones,
and otherwise stores them with the next version and returns it. -/
theorem setSystemTokenList_eq (cur : SystemTokenList) (tokens : List SystemToken) :
    (tokens = cur.system_tokens ∧ setSystemTokenList cur tokens = (-1, cur)) ∨
      (tokens ≠ cur.system_tokens ∧ setSystemTokenList cur tokens =
        ((cur.version + 1).toUInt64.toInt64, ⟨cur.version + 1, tokens⟩)) := by
  by_cases h : tokens = cur.system_tokens
  · exact .inl ⟨h, by simp [setSystemTokenList, h]⟩
  · exact .inr ⟨h, by simp [setSystemTokenList, h]⟩

/-- A successful call checked the tokens and stored what `set_system_token_list` returns. -/
theorem setSystemTokenListPacked_ok {ctx : ApplyContext} {is_privileged : Bool}
    {s s' : SystemTokenState} {tokens : List SystemToken} {v : Int64}
    (h : setSystemTokenListPacked ctx is_privileged s tokens = .ok (v, s')) :
    tokens.length ≤ maxSystemTokens ∧
      (∀ t ∈ tokens, s.accounts.contains t.token_id = true ∧ t.valid = true) ∧
      (tokens.map (·.token_id)).Nodup ∧ s'.accounts = s.accounts ∧
      setSystemTokenList s.system_token_list tokens = (v, s'.system_token_list) := by
  simp only [setSystemTokenListPacked, requireAuthorization, bind_eq_ok, eosAssert_eq_ok,
    exists_const, decide_eq_true_eq, beq_iff_eq, pure, Except.pure, Except.ok.injEq] at h
  obtain ⟨-, -, hlen, ⟨⟩, hcheck, hcard, hs'⟩ := h
  obtain ⟨rfl, rfl⟩ := Prod.mk.inj hs'
  exact ⟨hlen, checkSystemTokens_eq_ok.1 hcheck, nodup_of_card_eq hcard, rfl, rfl⟩

/-- The intrinsic accepts every list of distinct valid tokens of existing accounts, of at most
`max_system_tokens`, from the system account's authority; a list other than the current one is
stored with the next version. -/
theorem setSystemTokenListPacked_change {ctx : ApplyContext} {s : SystemTokenState}
    {tokens : List SystemToken}
    (hauth : (ctx.authorization.any fun x => x.actor == systemAccountName) = true)
    (hlen : tokens.length ≤ maxSystemTokens)
    (hcheck : ∀ t ∈ tokens, s.accounts.contains t.token_id = true ∧ t.valid = true)
    (hnodup : (tokens.map (·.token_id)).Nodup) (hne : tokens ≠ s.system_token_list.system_tokens) :
    setSystemTokenListPacked ctx true s tokens =
      .ok ((s.system_token_list.version + 1).toUInt64.toInt64,
        ⟨s.accounts, ⟨s.system_token_list.version + 1, tokens⟩⟩) := by
  have hcard : tokens.length = (tokens.map (·.token_id)).toFinset.card := by
    rw [List.toFinset_card_of_nodup hnodup, List.length_map]
  have hlen' : (tokens.map (·.token_id)).toFinset.card ≤ maxSystemTokens := hcard ▸ hlen
  simp [setSystemTokenListPacked, requireAuthorization, hauth, hlen',
    checkSystemTokens_eq_ok.2 hcheck, hcard, setSystemTokenList, hne, pure, Except.pure, bind,
    Except.bind]

/-! ## The invariant -/

/-- What the intrinsic's checks ensure of a stored list. -/
structure ValidList (l : List SystemToken) : Prop where
  /-- At most `max_system_tokens` tokens. -/
  length_le : l.length ≤ maxSystemTokens
  /-- No token twice. -/
  nodup : (l.map (·.token_id)).Nodup
  /-- No weight zero. -/
  weight_ne_zero : ∀ t ∈ l, t.token_weight ≠ 0

/-- A valid entry has a weight. -/
theorem SystemToken.weight_ne_zero_of_valid {t : SystemToken} (h : t.valid = true) :
    t.token_weight ≠ 0 := by
  simp only [SystemToken.valid, Bool.and_eq_true, bne_iff_ne] at h
  exact h.2

/-- A weight as a `share_type` is as far from zero as the weight. -/
theorem feeDivisor_ne_zero {t : SystemToken} (h : t.token_weight ≠ 0) : feeDivisor t ≠ 0 := by
  intro h0
  apply h
  have h64 : t.token_weight.toUInt64 = (0 : UInt32).toUInt64 := by
    rw [← UInt64.toUInt64_toInt64 t.token_weight.toUInt64]
    exact congrArg Int64.toUInt64 h0
  exact UInt32.toUInt64_inj.1 h64

/-- A successful call leaves a valid list valid. -/
theorem setSystemTokenListPacked_valid {ctx : ApplyContext} {is_privileged : Bool}
    {s s' : SystemTokenState} {tokens : List SystemToken} {v : Int64}
    (hs : ValidList s.system_token_list.system_tokens)
    (h : setSystemTokenListPacked ctx is_privileged s tokens = .ok (v, s')) :
    ValidList s'.system_token_list.system_tokens := by
  obtain ⟨hlen, hcheck, hnodup, -, hset⟩ := setSystemTokenListPacked_ok h
  rcases setSystemTokenList_eq s.system_token_list tokens with ⟨-, heq⟩ | ⟨-, heq⟩
  · -- the same tokens: the stored list is the current one
    rw [heq] at hset
    rw [← (Prod.mk.inj hset).2]
    exact hs
  · rw [heq] at hset
    rw [← (Prod.mk.inj hset).2]
    exact ⟨hlen, hnodup, fun t ht => SystemToken.weight_ne_zero_of_valid (hcheck t ht).2⟩

/-- A step is a successful call. -/
theorem systemTokenStep_ok {s s' : SystemTokenState} {r : SetSystemTokenList}
    (h : systemTokenStep s r = .ok s') :
    ∃ v, setSystemTokenListPacked r.ctx r.is_privileged s r.system_tokens = .ok (v, s') := by
  unfold systemTokenStep at h
  split at h
  · rename_i v s₁ hr
    cases h
    exact ⟨v, hr⟩
  · cases h

/-- Every run from genesis keeps the list valid. -/
theorem run_valid (accounts : List Name) (reqs : List SetSystemTokenList) :
    ValidList
      (Machine.run systemTokenStep (SystemTokenState.init accounts) reqs).system_token_list.system_tokens := by
  refine Machine.run_invariant (fun s : SystemTokenState => ValidList s.system_token_list.system_tokens)
    ?_ reqs ?_
  · intro s r s' hs h
    obtain ⟨v, hv⟩ := systemTokenStep_ok h
    exact setSystemTokenListPacked_valid hs hv
  · exact ⟨by simp [SystemTokenState.init, maxSystemTokens], .nil, by simp [SystemTokenState.init]⟩

/-- The system token list over every run: at most `max_system_tokens` tokens, no token twice, no
weight zero, so that no division of `pay_transaction_fee` is by zero; and a call returns `-1` and
changes nothing exactly when it lists the current tokens, and otherwise stores them with the
version one more modulo `2^32` and returns that version. -/
theorem system_token_list_valid (accounts : List Name) (reqs : List SetSystemTokenList) :
    let s : SystemTokenState := Machine.run systemTokenStep (SystemTokenState.init accounts) reqs
    let l := s.system_token_list.system_tokens
    l.length ≤ maxSystemTokens ∧ (l.map (·.token_id)).Nodup ∧ (∀ t ∈ l, t.token_weight ≠ 0) ∧
    (∀ t ∈ l, feeDivisor t ≠ 0) ∧
    ∀ ctx is_privileged tokens v s',
      setSystemTokenListPacked ctx is_privileged s tokens = .ok (v, s') →
        (tokens = l ∧ v = -1 ∧ s' = s) ∨
        (tokens ≠ l ∧ s'.system_token_list.system_tokens = tokens ∧
          s'.system_token_list.version.toNat = (s.system_token_list.version.toNat + 1) % 2 ^ 32 ∧
          v = s'.system_token_list.version.toUInt64.toInt64) := by
  intro s l
  have hvalid : ValidList l := run_valid accounts reqs
  refine ⟨hvalid.length_le, hvalid.nodup, hvalid.weight_ne_zero,
    fun t ht => feeDivisor_ne_zero (hvalid.weight_ne_zero t ht), ?_⟩
  intro ctx is_privileged tokens v s' h
  obtain ⟨-, -, -, hacc, hset⟩ := setSystemTokenListPacked_ok h
  rcases setSystemTokenList_eq s.system_token_list tokens with ⟨hsame, heq⟩ | ⟨hne, heq⟩
  · -- the current tokens: `-1`, and the state as it was
    rw [heq] at hset
    obtain ⟨hv, hl⟩ := Prod.mk.inj hset
    refine .inl ⟨hsame, hv.symm, ?_⟩
    cases s'
    simp only at hacc hl
    rw [hacc, ← hl]
  · rw [heq] at hset
    obtain ⟨hv, hl⟩ := Prod.mk.inj hset
    refine .inr ⟨hne, by rw [← hl], ?_, by rw [← hv, ← hl]⟩
    rw [← hl]
    simp [UInt32.toNat_add]

/-! ## The version wraps

The version is a `uint32_t`: the `2^32`-th change stores the version zero. A run that changes the
list `2^32 - 1` times, alternating between no token and one token, reaches the version
`2^32 - 1`. -/

/-- The token of the run: account `1`, weight `1`. -/
def wrapToken : SystemToken := ⟨⟨1⟩, 1⟩

/-- The accounts of the run. -/
def wrapAccounts : List Name := [⟨1⟩]

/-- A context with the system account's authority. -/
def wrapContext : ApplyContext := ⟨systemAccountName, systemAccountName, [⟨systemAccountName, activeName⟩]⟩

/-- The list after `n` changes: no token after an even number, the token after an odd one. -/
def wrapList (n : Nat) : List SystemToken := if n % 2 = 0 then [] else [wrapToken]

/-- The first `n` calls of the run: call `i` stores `wrapList (i + 1)`. -/
def wrapRequests (n : Nat) : List SetSystemTokenList :=
  (List.range n).map fun i => ⟨wrapContext, true, wrapList (i + 1)⟩

/-- The token of the run is an existing account with a valid entry. -/
theorem wrapToken_checked : wrapAccounts.contains wrapToken.token_id = true ∧ wrapToken.valid = true := by
  decide

/-- Each call of the run changes the list and stores the next version. -/
theorem run_wrapRequests (n : Nat) :
    Machine.run systemTokenStep (SystemTokenState.init wrapAccounts) (wrapRequests n) =
      ⟨wrapAccounts, ⟨UInt32.ofNat n, wrapList n⟩⟩ := by
  induction n with
  | zero => rfl
  | succ n ih =>
    rw [wrapRequests, List.range_succ, List.map_append, Machine.run_append, ← wrapRequests, ih]
    -- the list alternates, so each call changes it
    have hne : wrapList (n + 1) ≠ wrapList n := by
      unfold wrapList
      by_cases h : n % 2 = 0
      · have h' : (n + 1) % 2 ≠ 0 := by omega
        simp [h, h']
      · have h' : (n + 1) % 2 = 0 := by omega
        simp [h, h']
    have hcheck : ∀ t ∈ wrapList (n + 1), wrapAccounts.contains t.token_id = true ∧ t.valid = true := by
      intro t ht
      unfold wrapList at ht
      split at ht
      · simp at ht
      · rw [List.mem_singleton] at ht
        rw [ht]
        exact wrapToken_checked
    have hcall : setSystemTokenListPacked wrapContext true
        ⟨wrapAccounts, ⟨UInt32.ofNat n, wrapList n⟩⟩ (wrapList (n + 1)) = _ :=
      setSystemTokenListPacked_change (by simp [wrapContext])
        (by unfold wrapList; split <;> simp [maxSystemTokens]) hcheck
        (by unfold wrapList; split <;> simp) hne
    simp [systemTokenStep, Machine.commit, hcall, UInt32.ofNat_add]

/-- After `2^32 - 1` changes the version is `2^32 - 1`, and the next change, back to no token,
stores the version zero and returns it. -/
theorem system_token_version_wraps :
    let s : SystemTokenState :=
      Machine.run systemTokenStep (SystemTokenState.init wrapAccounts) (wrapRequests (2 ^ 32 - 1))
    s.system_token_list.version.toNat = 2 ^ 32 - 1 ∧ [] ≠ s.system_token_list.system_tokens ∧
      setSystemTokenListPacked wrapContext true s [] = .ok (0, ⟨wrapAccounts, ⟨0, []⟩⟩) := by
  intro s
  have hlist : wrapList (2 ^ 32 - 1) = [wrapToken] := by
    unfold wrapList
    decide
  have hs : s = ⟨wrapAccounts, ⟨UInt32.ofNat (2 ^ 32 - 1), [wrapToken]⟩⟩ := by
    rw [← hlist]
    exact run_wrapRequests _
  have hcall : setSystemTokenListPacked wrapContext true
      ⟨wrapAccounts, ⟨UInt32.ofNat (2 ^ 32 - 1), [wrapToken]⟩⟩ [] = _ :=
    setSystemTokenListPacked_change (by simp [wrapContext]) (by simp [maxSystemTokens]) (by simp)
      (by simp) (by simp)
  rw [hs]
  exact ⟨by decide, by simp, hcall⟩

end InfraBlockchain.Fee
