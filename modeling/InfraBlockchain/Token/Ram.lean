import InfraBlockchain.Lib.Machine
import InfraBlockchain.Token.Spec

/-!
# RAM charged for the standard-token rows

`add_token_balance` charges `billable_size_v<token_balance_object>` to the owner of a balance row
that it creates, and `subtract_token_balance` refunds as much to the owner of a row that it
removes; `set_token_meta_info` charges `billable_size_v<token_meta_object>` to the token account
when it creates the token's meta row. What the rows of a state bill an account (`ramBilled`) less
what has been charged to it is therefore the same after every function of the manager, and so
after every request: starting from nothing, every account has been charged exactly what its rows
bill.
-/

namespace InfraBlockchain.Token

open IndexedTable

/-- The RAM that the rows of `s` bill account `a`: a balance row for each balance of `a`, and the
meta row of the token `a` when it has one. -/
def ramBilled (s : TokenState) (a : Name) : Int :=
  billableSizeTokenBalance * s.balances.rows.countP (·.account == a) +
    if s.metas.rows.any (·.token_id == a) then billableSizeTokenMeta else 0

/-- `add_ram_usage` changes the charge of one account. -/
theorem addRamUsage_apply (ram : Name → Int) (account a : Name) (d : Int) :
    addRamUsage ram account d a = ram a + if a = account then d else 0 := by
  unfold addRamUsage
  by_cases h : a = account
  · subst h
    simp
  · simp [h]

/-! ## The functions of the manager -/

section Functions

variable {ctx : ApplyContext} {s s' : TokenState}

/-- `add_token_balance` charges the owner exactly for a row that it creates. -/
theorem addTokenBalance_ram {t o : Name} {v : Int64} (h : addTokenBalance ctx s t o v = .ok s')
    (a : Name) : ramBilled s' a - s'.ram a = ramBilled s a - s.ram a := by
  obtain ⟨-, -, hmeta, ⟨b, l₁, l₂, hs, hrows, hram⟩ | ⟨-, hrows, hram⟩⟩ := addTokenBalance_ok h
  · -- the modified row keeps its owner
    simp [ramBilled, hrows, hs.eq, hmeta, hram, List.countP_cons]
  · by_cases ha : a = o
    · subst ha
      have hbill : ramBilled s' a = ramBilled s a + billableSizeTokenBalance := by
        simp only [ramBilled, hrows, hmeta, List.countP_append, List.countP_singleton,
          beq_self_eq_true, if_true, billableSizeTokenBalance]
        omega
      have hcharge : s'.ram a = s.ram a + billableSizeTokenBalance := by
        simp [hram, addRamUsage_apply]
      rw [hbill, hcharge]
      omega
    · simp [ramBilled, hrows, hmeta, hram, addRamUsage_apply, ha, Ne.symm ha]

/-- `subtract_token_balance` refunds the owner exactly for a row that it removes. -/
theorem subtractTokenBalance_ram {t o : Name} {v : Int64}
    (h : subtractTokenBalance ctx s t o v = .ok s') (a : Name) :
    ramBilled s' a - s'.ram a = ramBilled s a - s.ram a := by
  obtain ⟨-, -, hmeta, b, l₁, l₂, hs, -, ⟨-, hrows, hram⟩ | ⟨-, hrows, hram⟩⟩ :=
    subtractTokenBalance_ok h
  · -- the removed row was the owner's
    have ho : b.account = o := (byTokenAccount_eq_true.1 hs.sel).2
    by_cases ha : a = o
    · subst ha
      have hbill : ramBilled s' a = ramBilled s a - billableSizeTokenBalance := by
        simp only [ramBilled, hrows, hs.eq, hmeta, ho, List.countP_append, List.countP_cons,
          beq_self_eq_true, if_true, billableSizeTokenBalance]
        omega
      have hcharge : s'.ram a = s.ram a - billableSizeTokenBalance := by
        simp only [hram, addRamUsage_apply, if_true]
        omega
      rw [hbill, hcharge]
      omega
    · simp [ramBilled, hrows, hs.eq, hmeta, hram, addRamUsage_apply, ha, ho, Ne.symm ha]
  · simp [ramBilled, hrows, hs.eq, hmeta, hram, List.countP_cons]

/-- `update_token_total_supply` charges nothing and keeps every row's owner and token. -/
theorem updateTokenTotalSupply_ram {m : TokenMetaObject} {d : Int64}
    (h : updateTokenTotalSupply s m d = .ok s') (a : Name) :
    ramBilled s' a - s'.ram a = ramBilled s a - s.ram a := by
  obtain ⟨-, hbal, hram, hrows⟩ := updateTokenTotalSupply_ok h
  have hany : s'.metas.rows.any (·.token_id == a) = s.metas.rows.any (·.token_id == a) := by
    rw [hrows]
    exact any_mapSelected fun _ => rfl
  simp [ramBilled, hbal, hram, hany]

/-- `set_token_meta_info` charges the token account exactly for a meta row that it creates. -/
theorem setTokenMetaInfo_ram {t : Name} {d : Settokenmeta} (h : setTokenMetaInfo s t d = .ok s')
    (a : Name) : ramBilled s' a - s'.ram a = ramBilled s a - s.ram a := by
  obtain ⟨-, hbal, ⟨m, l₁, l₂, hs, hrows, hram⟩ | ⟨hnone, hrows, hram⟩⟩ := setTokenMetaInfo_ok h
  · simp [ramBilled, hrows, hs.eq, hbal, hram]
  · -- before, no meta row had the token's id
    have hold : s.metas.rows.any (·.token_id == t) = false := by
      simpa [byTokenId] using hnone
    by_cases ha : a = t
    · subst ha
      have hbill : ramBilled s' a = ramBilled s a + billableSizeTokenMeta := by
        simp [ramBilled, hrows, hbal, hold]
      have hcharge : s'.ram a = s.ram a + billableSizeTokenMeta := by
        simp [hram, addRamUsage_apply]
      rw [hbill, hcharge]
      omega
    · simp [ramBilled, hrows, hbal, hram, addRamUsage_apply, ha, Ne.symm ha]

/-- `issue_token` charges exactly for the rows that it creates. -/
theorem issueToken_ram {to_ : Name} {amount : Int64} (h : issueToken ctx s to_ amount = .ok s')
    (a : Name) : ramBilled s' a - s'.ram a = ramBilled s a - s.ram a := by
  obtain ⟨-, m, -, -, s₁, hu, hadd⟩ := issueToken_ok h
  rw [addTokenBalance_ram hadd, updateTokenTotalSupply_ram hu]

/-- A debit and then a credit charge exactly for the rows that they create and remove. -/
theorem move_ram {s₁ : TokenState} {t from_ to_ : Name} {v : Int64}
    (h₁ : subtractTokenBalance ctx s t from_ v = .ok s₁)
    (h₂ : addTokenBalance ctx s₁ t to_ v = .ok s') (a : Name) :
    ramBilled s' a - s'.ram a = ramBilled s a - s.ram a := by
  rw [addTokenBalance_ram h₂, subtractTokenBalance_ram h₁]

/-- `retire_token` refunds exactly for the row that it removes. -/
theorem retireToken_ram {amount : Int64} (h : retireToken ctx s amount = .ok s') (a : Name) :
    ramBilled s' a - s'.ram a = ramBilled s a - s.ram a := by
  obtain ⟨-, m, -, -, s₁, hu, hsub⟩ := retireToken_ok h
  rw [subtractTokenBalance_ram hsub, updateTokenTotalSupply_ram hu]

end Functions

/-! ## Requests and runs -/

/-- Every request charges each account exactly for the rows that it creates and removes. -/
theorem tokenStep_ram {s s' : TokenState} {r : TokenRequest} (h : tokenStep s r = .ok s')
    (a : Name) : ramBilled s' a - s'.ram a = ramBilled s a - s.ram a := by
  cases r with
  | settokenmeta ctx act => exact setTokenMetaInfo_ram (applySettokenmeta_ok h) a
  | issue ctx act => exact issueToken_ram (applyIssue_ok h).2 a
  | transfer ctx act =>
    obtain ⟨-, s₁, h₁, h₂⟩ := transferToken_ok (applyTransfer_ok h).2
    exact move_ram h₁ h₂ a
  | txfee ctx act =>
    obtain ⟨-, -, s₁, h₁, h₂⟩ := applyTxfee_ok h
    exact move_ram h₁ h₂ a
  | retire ctx act => exact retireToken_ram (applyRetire_ok h).2 a
  | issue_token ctx to_ amount => exact issueToken_ram h a
  | transfer_token ctx from_ to_ amount =>
    obtain ⟨-, s₁, h₁, h₂⟩ := transferToken_ok h
    exact move_ram h₁ h₂ a
  | retire_token ctx amount => exact retireToken_ram h a

/-- RAM accounting of the standard tokens over every run: each account has been charged a balance
row for each of its balances and a meta row when it is a token with metadata. -/
theorem token_ram_accounted (accounts : List Name) (reqs : List TokenRequest) (a : Name) :
    let s := Machine.run tokenStep (TokenState.init accounts) reqs
    s.ram a = billableSizeTokenBalance * s.balances.rows.countP (·.account == a) +
      if s.metas.rows.any (·.token_id == a) then billableSizeTokenMeta else 0 := by
  intro s
  -- the charge of every account is its bill, from the start and after every request
  have hrun : ∀ a, s.ram a = ramBilled s a := by
    refine Machine.run_invariant (fun s => ∀ a, s.ram a = ramBilled s a) ?_ reqs ?_
    · intro s r s' hs h a
      have := tokenStep_ram h a
      rw [hs a] at this
      omega
    · intro a
      simp [TokenState.init, ramBilled, rows_empty]
  exact hrun a

end InfraBlockchain.Token
