import Mathlib.Algebra.Group.Pi.Lemmas
import InfraBlockchain.Lib.Ledger
import InfraBlockchain.Token.Ledger

/-!
# Conservation of the standard tokens

The invariant `Conserved` of the token tables: a token with a meta row has as supply the sum of its
balances, every balance row is of a token with a meta row, and every balance is positive. Every
request keeps it, and changes the integer ledger of the state (`ledgerOf`: supplies and balances as
integers) exactly as its abstract effect (`TokenRequest.effect`) says: a registration, a mint, a
move or a burn of integers. As the ledger is in integers, this says that the 64-bit additions of
`add_token_balance` and `update_token_total_supply` do not wrap.

The bounds that the exactness lemmas of `Token/Ledger.lean` need come from the invariant: a
balance is at most the sum of its token, which is a supply and so a word below `2^63`; the guards
`old_total_supply + amount > 0` and `current_total_supply - amount > 0` mean, on such words, that the
new supply does not wrap.
-/

namespace InfraBlockchain.Token

open IndexedTable

/-! ## The ledger of a state and the effect of a request -/

/-- The integer ledger of a state: the supply of each token with a meta row, and each balance. -/
def ledgerOf (s : TokenState) : Ledger Name Name := ⟨supplyOf s, balanceOf s⟩

/-- What a request does to the ledger, in integers. A handler's token is the action's account; an
intrinsic's is the receiver. `retire` burns what the token account itself holds. -/
def TokenRequest.effect : TokenRequest → Ledger Name Name → Ledger Name Name
  | .settokenmeta ctx _, L => L.register ctx.act_account
  | .issue ctx act, L => L.mint ctx.act_account act.to_ act.quantity.amount.toInt
  | .transfer ctx act, L => L.move ctx.act_account act.from_ act.to_ act.quantity.amount.toInt
  | .txfee ctx act, L =>
    L.move ctx.act_account act.payer sysTxFeeAccountName act.fee.amount.toInt
  | .retire ctx act, L => L.burn ctx.act_account ctx.act_account act.quantity.amount.toInt
  | .issue_token ctx to_ amount, L => L.mint ctx.receiver to_ amount.toInt
  | .transfer_token ctx from_ to_ amount, L => L.move ctx.receiver from_ to_ amount.toInt
  | .retire_token ctx amount, L => L.burn ctx.receiver ctx.receiver amount.toInt

/-- Two states have the ledgers that their supplies and balances give. -/
theorem ledgerOf_eq {s : TokenState} {L : Ledger Name Name}
    (hs : ∀ t, supplyOf s t = L.supply t)
    (hb : ∀ t a, balanceIn s.balances.rows t a = L.balance t a) : ledgerOf s = L := by
  ext1
  · exact funext hs
  · funext t a
    exact (balanceOf_eq s t a).trans (hb t a)

/-! ## Supplies -/

/-- The supply of a token with a meta row is the word of that row. -/
theorem supplyOf_of_get {s : TokenState} {t : Name} {m : TokenMetaObject}
    (h : getTokenMetaObject s t = some m) : supplyOf s t = some m.total_supply.toInt := by
  simp [supplyOf, h]

/-- A supply is a word, below `2^63`. -/
theorem supplyOf_lt {s : TokenState} {t : Name} {x : Int} (h : supplyOf s t = some x) :
    x < 2 ^ 63 := by
  obtain ⟨m, -, rfl⟩ := Option.map_eq_some_iff.1 h
  exact m.total_supply.toInt_lt

/-- A function that writes no meta row keeps every supply. -/
theorem supplyOf_of_metas {s s' : TokenState} (h : s'.metas = s.metas) :
    supplyOf s' = supplyOf s := by
  funext t
  simp [supplyOf, getTokenMetaObject, h]

/-- `update_token_total_supply` that does not wrap moves the supply of its token by `d`. -/
theorem updateTokenTotalSupply_supplyOf {s s' : TokenState} {m : TokenMetaObject} {d : Int64}
    (h : updateTokenTotalSupply s m d = .ok s') (hm : getTokenMetaObject s m.token_id = some m)
    (hexact : (m.total_supply + d).toInt = m.total_supply.toInt + d.toInt) (t : Name) :
    supplyOf s' t =
      if t = m.token_id then some (m.total_supply.toInt + d.toInt) else supplyOf s t := by
  unfold supplyOf
  rw [updateTokenTotalSupply_meta h hm]
  split <;> simp [hexact]

/-- The ledger of `update_token_total_supply` that does not wrap: the supply of its token grows. -/
theorem ledgerOf_updateTokenTotalSupply {s s' : TokenState} {m : TokenMetaObject} {d : Int64}
    (h : updateTokenTotalSupply s m d = .ok s') (hm : getTokenMetaObject s m.token_id = some m)
    (hexact : (m.total_supply + d).toInt = m.total_supply.toInt + d.toInt) :
    ledgerOf s' = (ledgerOf s).grow m.token_id d.toInt := by
  obtain ⟨-, hbal, -, -⟩ := updateTokenTotalSupply_ok h
  refine ledgerOf_eq (fun t => ?_) (fun t a => ?_)
  · rw [updateTokenTotalSupply_supplyOf h hm hexact]
    simp [ledgerOf, supplyOf_of_get hm]
  · simp [ledgerOf, hbal, balanceOf_eq]

/-- The ledger of `add_token_balance` within the bound: a credit. -/
theorem ledgerOf_addTokenBalance {ctx : ApplyContext} {s s' : TokenState} {t o : Name}
    {v : Int64} (h : addTokenBalance ctx s t o v = .ok s') (hv : 0 < v.toInt)
    (hb : balanceIn s.balances.rows t o + v.toInt < 2 ^ 63) :
    ledgerOf s' = (ledgerOf s).credit t o v.toInt := by
  obtain ⟨-, -, hmeta, -⟩ := addTokenBalance_ok h
  refine ledgerOf_eq (fun t' => ?_) (fun t' a' => ?_)
  · simp [ledgerOf, supplyOf_of_metas hmeta]
  · simp [ledgerOf, addTokenBalance_balanceIn h hv hb, balanceOf_eq]

/-- The ledger of `subtract_token_balance`: a debit. -/
theorem ledgerOf_subtractTokenBalance {ctx : ApplyContext} {s s' : TokenState} {t o : Name}
    {v : Int64} (h : subtractTokenBalance ctx s t o v = .ok s') (hv : 0 < v.toInt) :
    ledgerOf s' = (ledgerOf s).debit t o v.toInt := by
  obtain ⟨-, -, hmeta, -⟩ := subtractTokenBalance_ok h
  refine ledgerOf_eq (fun t' => ?_) (fun t' a' => ?_)
  · simp [ledgerOf, supplyOf_of_metas hmeta]
  · simp [ledgerOf, subtractTokenBalance_balanceIn h hv, balanceOf_eq]

/-- The ledger of `set_token_meta_info`: a registration. -/
theorem ledgerOf_setTokenMetaInfo {s s' : TokenState} {t : Name} {d : Settokenmeta}
    (h : setTokenMetaInfo s t d = .ok s') : ledgerOf s' = (ledgerOf s).register t := by
  obtain ⟨-, hbal, -⟩ := setTokenMetaInfo_ok h
  refine ledgerOf_eq (fun t' => ?_) (fun t' a' => ?_)
  · simp [ledgerOf, setTokenMetaInfo_supplyOf h]
  · simp [ledgerOf, hbal, balanceOf_eq]

/-! ## The invariant

Between the two writes of a request the supplies and the sums differ: `issue_token` has grown the
supply and not yet credited the holder. `Conserving s δ` is the invariant with the supplies ahead
of the sums by `δ`; each write moves `δ`, and each request as a whole brings it back to zero. -/

/-- The token tables with every supply ahead of its token's sum by `δ`. -/
structure Conserving (s : TokenState) (δ : Name → Int) : Prop where
  /-- A token with a meta row has as supply the sum of its balances and `δ`. -/
  supply_eq : ∀ t x, supplyOf s t = some x → x = sumBalances s.balances.rows t + δ t
  /-- Every balance row is of a token with a meta row. -/
  registered : ∀ b ∈ s.balances.rows, (supplyOf s b.token_id).isSome
  /-- Every balance is positive. -/
  balance_pos : ∀ b ∈ s.balances.rows, 0 < b.balance.toInt

/-- The conservation invariant of the standard-token tables: every supply is its token's sum. -/
def Conserved (s : TokenState) : Prop := Conserving s 0

/-- Before any token exists there is nothing to conserve. -/
theorem Conserved.init (accounts : List Name) : Conserved (TokenState.init accounts) where
  supply_eq t x h := by
    simp [supplyOf, getTokenMetaObject, TokenState.init, IndexedTable.find?, rows_empty] at h
  registered b hb := by simp [TokenState.init, rows_empty] at hb
  balance_pos b hb := by simp [TokenState.init, rows_empty] at hb

namespace Conserving

variable {ctx : ApplyContext} {s s' : TokenState} {δ : Name → Int}

/-- A token without a meta row has no balance row. -/
theorem no_rows (hc : Conserving s δ) {t : Name} (ht : supplyOf s t = none) :
    ∀ b ∈ s.balances.rows, b.token_id ≠ t := by
  rintro b hb rfl
  simpa [ht] using hc.registered b hb

/-- A token without a meta row has the sum zero. -/
theorem sum_eq_zero (hc : Conserving s δ) {t : Name} (ht : supplyOf s t = none) :
    sumBalances s.balances.rows t = 0 := by
  have hnil : s.balances.rows.filter (·.token_id == t) = [] :=
    List.filter_eq_nil_iff.2 fun b hb => by simpa using hc.no_rows ht b hb
  simp [sumBalances, hnil]

/-- The bound that makes a credit exact: with the supply of `t` ahead by `δ t`, a balance of `t`
and `δ t` together are at most the supply, a word. -/
theorem balanceIn_add_lt (hc : Conserving s δ) {t : Name} (ht : (supplyOf s t).isSome) (o : Name) :
    balanceIn s.balances.rows t o + δ t < 2 ^ 63 := by
  obtain ⟨x, hx⟩ := Option.isSome_iff_exists.1 ht
  have hsum := hc.supply_eq t x hx
  have hlt := supplyOf_lt hx
  have hle := balanceIn_le_sumBalances hc.balance_pos t o
  omega

/-- `update_token_total_supply` that does not wrap puts the supply of its token `d` further
ahead. -/
theorem update (hc : Conserving s δ) {m : TokenMetaObject} {d : Int64}
    (h : updateTokenTotalSupply s m d = .ok s') (hm : getTokenMetaObject s m.token_id = some m)
    (hexact : (m.total_supply + d).toInt = m.total_supply.toInt + d.toInt) :
    Conserving s' (δ + Pi.single m.token_id d.toInt) := by
  obtain ⟨-, hbal, -, -⟩ := updateTokenTotalSupply_ok h
  have hsup := updateTokenTotalSupply_supplyOf h hm hexact
  have hx := hc.supply_eq _ _ (supplyOf_of_get hm)
  refine ⟨fun t x hx' => ?_, fun b hb => ?_, fun b hb => ?_⟩
  · rw [hsup] at hx'
    rw [hbal]
    by_cases ht : t = m.token_id
    · -- the token of the row: its new supply is the old one and `d`
      subst ht
      rw [if_pos rfl, Option.some_inj] at hx'
      simp only [Pi.add_apply, Pi.single_eq_same]
      omega
    · rw [if_neg ht] at hx'
      simp [ht, hc.supply_eq t x hx']
  · rw [hbal] at hb
    rw [hsup]
    split
    · simp
    · exact hc.registered b hb
  · rw [hbal] at hb
    exact hc.balance_pos b hb

/-- `add_token_balance` within the bound credits the sum of a token with a meta row, so its supply
is `v` less ahead. -/
theorem credit (hc : Conserving s δ) {t o : Name} {v : Int64}
    (h : addTokenBalance ctx s t o v = .ok s') (hv : 0 < v.toInt) (ht : (supplyOf s t).isSome)
    (hb : balanceIn s.balances.rows t o + v.toInt < 2 ^ 63) :
    Conserving s' (δ - Pi.single t v.toInt) := by
  obtain ⟨-, -, hmeta, -⟩ := addTokenBalance_ok h
  have hsup := supplyOf_of_metas hmeta
  refine ⟨fun t' x hx => ?_, fun b hb => ?_, addTokenBalance_pos h hv hb hc.balance_pos⟩
  · rw [hsup] at hx
    rw [addTokenBalance_sum h hv hb, hc.supply_eq t' x hx]
    by_cases ht' : t' = t <;> simp [ht']
  · rw [hsup]
    rcases addTokenBalance_tokens h b hb with hb | hb
    · exact hc.registered b hb
    · rwa [hb]

/-- The token of a successful `subtract_token_balance` has a meta row, before and after: the
debited row was of it. -/
theorem debit_registered (hc : Conserving s δ) {t o : Name} {v : Int64}
    (h : subtractTokenBalance ctx s t o v = .ok s') :
    (supplyOf s t).isSome ∧ (supplyOf s' t).isSome := by
  obtain ⟨-, -, hmeta, -⟩ := subtractTokenBalance_ok h
  obtain ⟨-, b₀, hb₀, rfl⟩ := subtractTokenBalance_found h
  rw [supplyOf_of_metas hmeta, and_self]
  exact hc.registered b₀ hb₀

/-- `subtract_token_balance` debits the sum of its token, so its supply is `v` further ahead. -/
theorem debit (hc : Conserving s δ) {t o : Name} {v : Int64}
    (h : subtractTokenBalance ctx s t o v = .ok s') (hv : 0 < v.toInt) :
    Conserving s' (δ + Pi.single t v.toInt) := by
  obtain ⟨-, -, hmeta, -⟩ := subtractTokenBalance_ok h
  have hsup := supplyOf_of_metas hmeta
  refine ⟨fun t' x hx => ?_, fun b hb => ?_, subtractTokenBalance_pos h hv hc.balance_pos⟩
  · rw [hsup] at hx
    rw [subtractTokenBalance_sum h hv, hc.supply_eq t' x hx]
    by_cases ht' : t' = t <;> simp [ht']
  · rw [hsup]
    rcases subtractTokenBalance_tokens h b hb with hb | hb
    · exact hc.registered b hb
    · rw [hb]
      exact (hc.debit_registered h).1

end Conserving

/-! ## Each request keeps the invariant and refines its effect -/

section Requests

variable {ctx : ApplyContext} {s s' : TokenState}

/-- `issue_token` keeps the invariant and mints `amount` of the receiver's token to `to_`. -/
theorem issueToken_conserved (hc : Conserved s) {to_ : Name} {amount : Int64}
    (h : issueToken ctx s to_ amount = .ok s') :
    Conserved s' ∧ ledgerOf s' = (ledgerOf s).mint ctx.receiver to_ amount.toInt := by
  obtain ⟨hpos, m, hm, hov, s₁, hu, hadd⟩ := issueToken_ok h
  have hid := token_id_of_getTokenMetaObject hm
  rw [← hid] at hm hadd ⊢
  have hv := Int64.pos_iff_toInt_pos.1 hpos
  -- the old supply is the token's sum, at least zero, so the guard says that the new one fits
  have hx : m.total_supply.toInt = sumBalances s.balances.rows m.token_id + 0 :=
    hc.supply_eq _ _ (supplyOf_of_get hm)
  have hsum := sumBalances_nonneg hc.balance_pos m.token_id
  have hfit := (Int64.add_pos_iff (by omega) hv).1 hov
  have hexact := Int64.toInt_add_of_bounds (by omega) hfit
  have hc₁ := Conserving.update hc hu hm hexact
  have hreg : (supplyOf s₁ m.token_id).isSome := by
    simp [updateTokenTotalSupply_supplyOf hu hm hexact]
  -- the holder's balance and the new units fit under the new supply
  have hb := hc₁.balanceIn_add_lt hreg to_
  simp only [Pi.add_apply, Pi.zero_apply, Pi.single_eq_same, zero_add] at hb
  refine ⟨?_, ?_⟩
  · have hc' := hc₁.credit hadd hv hreg hb
    rw [add_sub_cancel_right] at hc'
    exact hc'
  · rw [ledgerOf_addTokenBalance hadd hv hb, ledgerOf_updateTokenTotalSupply hu hm hexact]
    rfl

/-- A debit of `from_` and a credit of `to_` in one token, as `transfer` and `txfee` make them,
keep the invariant and move `v`. -/
theorem move_conserved (hc : Conserved s) {s₁ : TokenState} {t from_ to_ : Name} {v : Int64}
    (hv : 0 < v.toInt) (h₁ : subtractTokenBalance ctx s t from_ v = .ok s₁)
    (h₂ : addTokenBalance ctx s₁ t to_ v = .ok s') :
    Conserved s' ∧ ledgerOf s' = (ledgerOf s).move t from_ to_ v.toInt := by
  have hc₁ := Conserving.debit hc h₁ hv
  have hreg := (Conserving.debit_registered hc h₁).2
  -- the debit has made room for the credit under the token's supply
  have hb := hc₁.balanceIn_add_lt hreg to_
  simp only [Pi.add_apply, Pi.zero_apply, Pi.single_eq_same, zero_add] at hb
  refine ⟨?_, ?_⟩
  · have hc' := hc₁.credit h₂ hv hreg hb
    rw [add_sub_cancel_right] at hc'
    exact hc'
  · rw [ledgerOf_addTokenBalance h₂ hv hb, ledgerOf_subtractTokenBalance h₁ hv]
    rfl

/-- `retire_token` keeps the invariant and burns `amount` of the receiver's own tokens. -/
theorem retireToken_conserved (hc : Conserved s) {amount : Int64}
    (h : retireToken ctx s amount = .ok s') :
    Conserved s' ∧ ledgerOf s' = (ledgerOf s).burn ctx.receiver ctx.receiver amount.toInt := by
  obtain ⟨hpos, m, hm, hun, s₁, hu, hsub⟩ := retireToken_ok h
  have hid := token_id_of_getTokenMetaObject hm
  rw [← hid] at hm hsub ⊢
  have hv := Int64.pos_iff_toInt_pos.1 hpos
  have hx : m.total_supply.toInt = sumBalances s.balances.rows m.token_id + 0 :=
    hc.supply_eq _ _ (supplyOf_of_get hm)
  have hsum := sumBalances_nonneg hc.balance_pos m.token_id
  -- the guard: the amount is below the supply, so the new supply is exact
  have hlt := (Int64.sub_pos_iff (by omega) hv).1 hun
  have hneg := Int64.toInt_neg_of_pos hv
  have hexact : (m.total_supply + -amount).toInt = m.total_supply.toInt + (-amount).toInt :=
    Int64.toInt_add_of_bounds (by omega) (by have := m.total_supply.toInt_lt; omega)
  have hc' := (Conserving.update hc hu hm hexact).debit hsub hv
  refine ⟨?_, ?_⟩
  · rw [hneg, Pi.single_neg, zero_add, neg_add_cancel] at hc'
    exact hc'
  · rw [ledgerOf_subtractTokenBalance hsub hv, ledgerOf_updateTokenTotalSupply hu hm hexact, hneg]
    rfl

/-- `set_token_meta_info` keeps the invariant and registers its token. -/
theorem setTokenMetaInfo_conserved (hc : Conserved s) {t : Name} {d : Settokenmeta}
    (h : setTokenMetaInfo s t d = .ok s') :
    Conserved s' ∧ ledgerOf s' = (ledgerOf s).register t := by
  obtain ⟨-, hbal, -⟩ := setTokenMetaInfo_ok h
  have hsup := setTokenMetaInfo_supplyOf h
  refine ⟨⟨fun t' x hx => ?_, fun b hb => ?_, fun b hb => ?_⟩, ledgerOf_setTokenMetaInfo h⟩
  · rw [hsup] at hx
    rw [hbal]
    split at hx
    · -- the token keeps its supply, or gets the supply zero of a token without rows
      subst t'
      rw [Option.some_inj] at hx
      rw [← hx]
      cases hs : supplyOf s t with
      | some y => simpa using hc.supply_eq t y hs
      | none => simp [Conserving.sum_eq_zero hc hs]
    · exact hc.supply_eq t' x hx
  · rw [hbal] at hb
    rw [hsup]
    split
    · simp
    · exact hc.registered b hb
  · rw [hbal] at hb
    exact hc.balance_pos b hb

/-- Every request keeps the invariant and changes the ledger by its effect. -/
theorem tokenStep_conserved (hc : Conserved s) {r : TokenRequest} (h : tokenStep s r = .ok s') :
    Conserved s' ∧ ledgerOf s' = r.effect (ledgerOf s) := by
  cases r with
  | settokenmeta ctx act => exact setTokenMetaInfo_conserved hc (applySettokenmeta_ok h)
  | issue ctx act =>
    obtain ⟨hr, hi⟩ := applyIssue_ok h
    rw [TokenRequest.effect, hr]
    exact issueToken_conserved hc hi
  | transfer ctx act =>
    obtain ⟨hr, ht⟩ := applyTransfer_ok h
    obtain ⟨hpos, s₁, h₁, h₂⟩ := transferToken_ok ht
    rw [TokenRequest.effect, hr]
    exact move_conserved hc (Int64.pos_iff_toInt_pos.1 hpos) h₁ h₂
  | txfee ctx act =>
    obtain ⟨-, hpos, s₁, h₁, h₂⟩ := applyTxfee_ok h
    exact move_conserved hc (Int64.pos_iff_toInt_pos.1 hpos) h₁ h₂
  | retire ctx act =>
    obtain ⟨hr, hret⟩ := applyRetire_ok h
    rw [TokenRequest.effect, hr]
    exact retireToken_conserved hc hret
  | issue_token ctx to_ amount => exact issueToken_conserved hc h
  | transfer_token ctx from_ to_ amount =>
    obtain ⟨hpos, s₁, h₁, h₂⟩ := transferToken_ok h
    exact move_conserved hc (Int64.pos_iff_toInt_pos.1 hpos) h₁ h₂
  | retire_token ctx amount => exact retireToken_conserved hc h

end Requests

/-- Every run of requests from the state before any token keeps the invariant. -/
theorem run_conserved (accounts : List Name) (reqs : List TokenRequest) :
    Conserved (Machine.run tokenStep (TokenState.init accounts) reqs) :=
  Machine.run_invariant Conserved (fun _ _ _ hc h => (tokenStep_conserved hc h).1) reqs
    (Conserved.init accounts)

/-- Conservation of the standard tokens over every run: a token's supply is the sum of its
balances, a token without a meta row has no balance row, every balance is positive, and every
request from the state reached changes supplies and balances exactly as its integer effect says,
so that no addition of the manager wraps. -/
theorem token_supply_conserved (accounts : List Name) (reqs : List TokenRequest) :
    let s := Machine.run tokenStep (TokenState.init accounts) reqs
    (∀ t m, getTokenMetaObject s t = some m →
      m.total_supply.toInt = sumBalances s.balances.rows t) ∧
    (∀ t, getTokenMetaObject s t = none → ∀ b ∈ s.balances.rows, b.token_id ≠ t) ∧
    (∀ b ∈ s.balances.rows, 0 < b.balance.toInt) ∧
    ∀ r s', tokenStep s r = .ok s' → ledgerOf s' = r.effect (ledgerOf s) := by
  intro s
  have hc : Conserved s := run_conserved accounts reqs
  refine ⟨fun t m hm => ?_, fun t ht => Conserving.no_rows hc (by simp [supplyOf, ht]),
    hc.balance_pos, fun r s' h => (tokenStep_conserved hc h).2⟩
  simpa using hc.supply_eq t _ (supplyOf_of_get hm)

end InfraBlockchain.Token
