import InfraBlockchain.Token.Actions

/-!
# What each standard-token function can do

One inversion lemma per function of `standard_token_manager` and `apply_context`: from a
successful call, the checks that passed and the rows that it wrote, stated over a `SplitAt` of the
table around the row that the function's lookup found. The lemmas about supplies, balances, sums
and RAM in the following modules start from these and never unfold the functions again.
-/

namespace InfraBlockchain.Token

open IndexedTable

/-- The meta lookup is by a unique key. -/
theorem byTokenId_unique (token_id : Name) :
    UniqueKey TokenMetaObject.clash (byTokenId token_id) := by
  intro a b ha hb
  simp only [byTokenId, beq_iff_eq] at ha hb
  exact ha.trans hb.symm

/-- The balance lookup is by a unique key. -/
theorem byTokenAccount_unique (token_id owner : Name) :
    UniqueKey TokenBalanceObject.clash (byTokenAccount token_id owner) := by
  intro a b ha hb
  simp only [byTokenAccount, Bool.and_eq_true, beq_iff_eq] at ha hb
  exact ⟨ha.1.trans hb.1.symm, ha.2.trans hb.2.symm⟩

/-- A balance row is selected by the lookup of its own key. -/
@[simp] theorem byTokenAccount_self (b : TokenBalanceObject) :
    byTokenAccount b.token_id b.account b = true := by
  simp [byTokenAccount]

/-- The lookup of a key selects exactly the rows with that key. -/
theorem byTokenAccount_eq_true {t o : Name} {b : TokenBalanceObject} :
    byTokenAccount t o b = true ↔ b.token_id = t ∧ b.account = o := by
  simp [byTokenAccount]

/-- The meta lookup of a key selects exactly the row with that key. -/
theorem byTokenId_eq_true {t : Name} {m : TokenMetaObject} :
    byTokenId t m = true ↔ m.token_id = t := by
  simp [byTokenId]

/-- `update_token_total_supply` adds `delta` to the supply of the row's token and writes nothing
else. -/
theorem updateTokenTotalSupply_ok {s s' : TokenState} {m : TokenMetaObject} {delta : Int64}
    (h : updateTokenTotalSupply s m delta = .ok s') :
    s'.accounts = s.accounts ∧ s'.balances = s.balances ∧ s'.ram = s.ram ∧
      s'.metas.rows = mapSelected (byTokenId m.token_id)
        (fun m => { m with total_supply := m.total_supply + delta }) s.metas.rows := by
  simp only [updateTokenTotalSupply, liftDb_bind, pure, Except.pure] at h
  split at h
  · rename_i metas hm
    cases h
    exact ⟨rfl, rfl, rfl, rows_of_modify hm⟩
  · cases h

/-- `add_token_balance` runs in the token's own context and either adds `value` to the owner's
row, found at a split, or creates the row at the end and charges it to the owner. -/
theorem addTokenBalance_ok {ctx : ApplyContext} {s s' : TokenState} {t o : Name} {v : Int64}
    (h : addTokenBalance ctx s t o v = .ok s') :
    ctx.receiver = t ∧ s'.accounts = s.accounts ∧ s'.metas = s.metas ∧
      ((∃ b l₁ l₂, SplitAt (byTokenAccount t o) s.balances.rows l₁ b l₂ ∧
          s'.balances.rows = l₁ ++ { b with balance := b.balance + v } :: l₂ ∧ s'.ram = s.ram) ∨
        ((∀ x ∈ s.balances.rows, byTokenAccount t o x = false) ∧
          s'.balances.rows = s.balances.rows ++ [⟨t, o, v⟩] ∧
          s'.ram = addRamUsage s.ram o billableSizeTokenBalance)) := by
  simp only [addTokenBalance, eosAssert_bind, liftDb_bind, pure, Except.pure] at h
  split at h
  · rename_i hr
    have hr' : ctx.receiver = t := by simpa using hr
    split at h
    · -- the owner has a row: it is modified
      rename_i b hb
      split at h
      · rename_i balances hm
        cases h
        obtain ⟨l₁, l₂, hs⟩ := split_of_find? (byTokenAccount_unique t o) hb
        refine ⟨hr', rfl, rfl, .inl ⟨b, l₁, l₂, hs, ?_, rfl⟩⟩
        rw [rows_of_modify hm, hs.mapSelected_eq]
      · cases h
    · -- the first credit of the owner: a new row
      rename_i hb
      split at h
      · rename_i balances hc
        cases h
        exact ⟨hr', rfl, rfl, .inr ⟨find?_eq_none_iff.1 hb, rows_of_create hc, rfl⟩⟩
      · cases h
  · cases h

/-- `subtract_token_balance` runs in the token's own context, finds the owner's row with at least
`value`, and either removes it and refunds its RAM when `value` is the whole balance or subtracts
`value` from it. -/
theorem subtractTokenBalance_ok {ctx : ApplyContext} {s s' : TokenState} {t o : Name}
    {v : Int64} (h : subtractTokenBalance ctx s t o v = .ok s') :
    ctx.receiver = t ∧ s'.accounts = s.accounts ∧ s'.metas = s.metas ∧
      ∃ b l₁ l₂, SplitAt (byTokenAccount t o) s.balances.rows l₁ b l₂ ∧ v ≤ b.balance ∧
        ((b.balance = v ∧ s'.balances.rows = l₁ ++ l₂ ∧
            s'.ram = addRamUsage s.ram o (-billableSizeTokenBalance)) ∨
          (b.balance ≠ v ∧ s'.balances.rows = l₁ ++ { b with balance := b.balance - v } :: l₂ ∧
            s'.ram = s.ram)) := by
  simp only [subtractTokenBalance, eosAssert_bind, liftDb_bind, pure, Except.pure] at h
  split at h
  · rename_i hr
    have hr' : ctx.receiver = t := by simpa using hr
    split at h
    · rename_i b hb
      obtain ⟨l₁, l₂, hs⟩ := split_of_find? (byTokenAccount_unique t o) hb
      split at h
      · rename_i hge
        have hle : v ≤ b.balance := by simpa using hge
        split at h
        · -- the whole balance: the row goes
          rename_i heq
          cases h
          exact ⟨hr', rfl, rfl, b, l₁, l₂, hs, hle, .inl ⟨by simpa using heq, remove_split hs, rfl⟩⟩
        · rename_i hne
          split at h
          · rename_i balances hm
            cases h
            refine ⟨hr', rfl, rfl, b, l₁, l₂, hs, hle, .inr ⟨by simpa using hne, ?_, rfl⟩⟩
            rw [rows_of_modify hm, hs.mapSelected_eq]
          · cases h
      · cases h
    · cases h
  · cases h

/-- `set_token_meta_info` writes only the meta table: it changes the texts of the row that it
finds, keeping its supply, or creates the row with a zero supply and charges it to the token. -/
theorem setTokenMetaInfo_ok {s s' : TokenState} {t : Name} {d : Settokenmeta}
    (h : setTokenMetaInfo s t d = .ok s') :
    s'.accounts = s.accounts ∧ s'.balances = s.balances ∧
      ((∃ m l₁ l₂, SplitAt (byTokenId t) s.metas.rows l₁ m l₂ ∧
          s'.metas.rows = l₁ ++ { m with url := d.url, desc := d.desc } :: l₂ ∧ s'.ram = s.ram) ∨
        ((∀ x ∈ s.metas.rows, byTokenId t x = false) ∧
          s'.metas.rows = s.metas.rows ++ [⟨t, d.sym, 0, d.url, d.desc⟩] ∧
          s'.ram = addRamUsage s.ram t billableSizeTokenMeta)) := by
  simp only [setTokenMetaInfo, eosAssert_bind, liftDb_bind, pure, Except.pure] at h
  -- the three checks of the action's data
  split at h
  swap; · cases h
  split at h
  swap; · cases h
  split at h
  swap; · cases h
  split at h
  · -- the token has its row: its texts change
    rename_i m hm
    obtain ⟨l₁, l₂, hs⟩ := split_of_find? (byTokenId_unique t) hm
    split at h
    swap; · cases h
    split at h
    swap; · cases h
    split at h
    · rename_i metas hmod
      cases h
      refine ⟨rfl, rfl, .inl ⟨m, l₁, l₂, hs, ?_, rfl⟩⟩
      rw [rows_of_modify hmod, hs.mapSelected_eq]
    · cases h
  · -- the first metadata of the token: a new row
    rename_i hm
    split at h
    · rename_i metas hc
      cases h
      exact ⟨rfl, rfl, .inr ⟨find?_eq_none_iff.1 hm, rows_of_create hc, rfl⟩⟩
    · cases h

/-! ## The intrinsics and the handlers -/

section Requests

variable {ctx : ApplyContext} {s s' : TokenState}

/-- The receiver's meta row is what `require_token_meta` returns. -/
theorem requireTokenMeta_eq_ok {t : Name} {m : TokenMetaObject} :
    requireTokenMeta s t = .ok m ↔ getTokenMetaObject s t = some m := by
  unfold requireTokenMeta
  split <;> simp_all

/-- The action's meta row is what the handlers' lookup returns. -/
theorem requireHandlerTokenMeta_eq_ok {t : Name} {m : TokenMetaObject} :
    requireHandlerTokenMeta s t = .ok m ↔ getTokenMetaObject s t = some m := by
  unfold requireHandlerTokenMeta
  split <;> simp_all

/-- The meta row found for a token is that token's. -/
theorem token_id_of_getTokenMetaObject {t : Name} {m : TokenMetaObject}
    (h : getTokenMetaObject s t = some m) : m.token_id = t :=
  byTokenId_eq_true.1 (List.find?_some h)

/-- `issue_token` checks a positive amount and the guard on the new supply, then adds `amount` to
the receiver's supply and credits it to `to_`. -/
theorem issueToken_ok {to_ : Name} {amount : Int64} (h : issueToken ctx s to_ amount = .ok s') :
    0 < amount ∧ ∃ m, getTokenMetaObject s ctx.receiver = some m ∧ 0 < m.total_supply + amount ∧
      ∃ s₁, updateTokenTotalSupply s m amount = .ok s₁ ∧
        addTokenBalance ctx s₁ ctx.receiver to_ amount = .ok s' := by
  simp only [issueToken, bind_eq_ok, eosAssert_eq_ok, requireTokenMeta_eq_ok, exists_const,
    decide_eq_true_eq] at h
  obtain ⟨-, hpos, m, hm, -, hov, s₁, hu, ha⟩ := h
  exact ⟨hpos, m, hm, hov, s₁, hu, ha⟩

/-- `transfer_token` checks a positive amount, then debits `from_` and credits `to_`. -/
theorem transferToken_ok {from_ to_ : Name} {amount : Int64}
    (h : transferToken ctx s from_ to_ amount = .ok s') :
    0 < amount ∧ ∃ s₁, subtractTokenBalance ctx s ctx.receiver from_ amount = .ok s₁ ∧
      addTokenBalance ctx s₁ ctx.receiver to_ amount = .ok s' := by
  simp only [transferToken, bind_eq_ok, eosAssert_eq_ok, exists_const, decide_eq_true_eq] at h
  obtain ⟨-, -, hpos, -, -, s₁, hsub, hadd⟩ := h
  exact ⟨hpos, s₁, hsub, hadd⟩

/-- `retire_token` checks a positive amount and the guard on the new supply, then takes `amount`
from the receiver's supply and from the receiver's own balance. -/
theorem retireToken_ok {amount : Int64} (h : retireToken ctx s amount = .ok s') :
    0 < amount ∧ ∃ m, getTokenMetaObject s ctx.receiver = some m ∧ 0 < m.total_supply - amount ∧
      ∃ s₁, updateTokenTotalSupply s m (-amount) = .ok s₁ ∧
        subtractTokenBalance ctx s₁ ctx.receiver ctx.receiver amount = .ok s' := by
  simp only [retireToken, bind_eq_ok, eosAssert_eq_ok, requireTokenMeta_eq_ok, exists_const,
    decide_eq_true_eq] at h
  exact h

/-- The `settokenmeta` handler stores the metadata of the action's token. -/
theorem applySettokenmeta_ok {act : Settokenmeta} (h : applySettokenmeta ctx s act = .ok s') :
    setTokenMetaInfo s ctx.act_account act = .ok s' := by
  simp only [applySettokenmeta, requireAuthorization, bind_eq_ok, eosAssert_eq_ok,
    exists_const] at h
  exact h.2.2

/-- The `issue` handler runs in its token's context and issues the quantity. -/
theorem applyIssue_ok {act : Issue} (h : applyIssue ctx s act = .ok s') :
    ctx.act_account = ctx.receiver ∧ issueToken ctx s act.to_ act.quantity.amount = .ok s' := by
  simp only [applyIssue, requireAuthorization, bind_eq_ok, eosAssert_eq_ok, exists_const,
    beq_iff_eq] at h
  obtain ⟨hr, -, -, m, -, -, -, hi⟩ := h
  exact ⟨hr, hi⟩

/-- The `transfer` handler runs in its token's context and transfers the quantity. -/
theorem applyTransfer_ok {act : Transfer} (h : applyTransfer ctx s act = .ok s') :
    ctx.act_account = ctx.receiver ∧
      transferToken ctx s act.from_ act.to_ act.quantity.amount = .ok s' := by
  simp only [applyTransfer, requireAuthorization, bind_eq_ok, eosAssert_eq_ok, exists_const,
    beq_iff_eq] at h
  obtain ⟨hr, -, -, -, m, -, -, -, ht⟩ := h
  exact ⟨hr, ht⟩

/-- The `txfee` handler runs in its token's context with a positive fee, debits the payer and
credits `sys.txfee`. -/
theorem applyTxfee_ok {act : Txfee} (h : applyTxfee ctx s act = .ok s') :
    ctx.act_account = ctx.receiver ∧ 0 < act.fee.amount ∧
      ∃ s₁, subtractTokenBalance ctx s ctx.act_account act.payer act.fee.amount = .ok s₁ ∧
        addTokenBalance ctx s₁ ctx.act_account sysTxFeeAccountName act.fee.amount = .ok s' := by
  simp only [applyTxfee, requireAuthorization, bind_eq_ok, eosAssert_eq_ok,
    requireHandlerTokenMeta_eq_ok, exists_const, decide_eq_true_eq, beq_iff_eq] at h
  obtain ⟨hr, -, -, hpos, m, -, -, -, -, s₁, hsub, hadd⟩ := h
  exact ⟨hr, hpos, s₁, hsub, hadd⟩

/-- The `retire` handler runs in its token's context and retires the quantity. -/
theorem applyRetire_ok {act : Retire} (h : applyRetire ctx s act = .ok s') :
    ctx.act_account = ctx.receiver ∧ retireToken ctx s act.quantity.amount = .ok s' := by
  simp only [applyRetire, requireAuthorization, bind_eq_ok, eosAssert_eq_ok, exists_const,
    beq_iff_eq] at h
  obtain ⟨hr, -, -, m, -, -, -, hret⟩ := h
  exact ⟨hr, hret⟩

end Requests

end InfraBlockchain.Token
