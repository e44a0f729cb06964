import Mathlib.Algebra.Order.BigOperators.Group.List
import InfraBlockchain.Lib.WordArith
import InfraBlockchain.Token.Spec

/-!
# Supplies, balances and sums of the token tables

Three integer views of a `TokenState`: the sum of the balances of a token over its rows
(`sumBalances`), the balance of one holder (`balanceOf`, zero without a row), and the supply of a
token whose meta row exists (`supplyOf`). The lemmas follow each function of the manager
through these views: `add_token_balance` adds its value to one holder and to the token's sum,
`subtract_token_balance` takes it away, and `update_token_total_supply` moves one supply. Each
of these statements is exact on integers, so it also says that the function's 64-bit arithmetic
does not wrap; the bound that it needs is a hypothesis, which the invariant of
`Token/Conservation.lean` discharges.
-/

namespace InfraBlockchain.Token

open IndexedTable

/-! ## The views -/

/-- The sum of the balances of `token_id` in `rows`. -/
def sumBalances (rows : List TokenBalanceObject) (token_id : Name) : Int :=
  ((rows.filter (·.token_id == token_id)).map (·.balance.toInt)).sum

/-- The balance that `rows` give `account` in `token_id`: its row's, or zero. -/
def balanceIn (rows : List TokenBalanceObject) (token_id account : Name) : Int :=
  match rows.find? (byTokenAccount token_id account) with
  | some b => b.balance.toInt
  | none => 0

/-- The balance of `account` in `token_id`, as `get_token_balance` returns it. -/
def balanceOf (s : TokenState) (token_id account : Name) : Int :=
  (getTokenBalance s token_id account).toInt

/-- The supply of `token_id`, when its meta row exists. -/
def supplyOf (s : TokenState) (token_id : Name) : Option Int :=
  (getTokenMetaObject s token_id).map (·.total_supply.toInt)

@[simp] theorem sumBalances_nil (t : Name) : sumBalances [] t = 0 := rfl

@[simp] theorem sumBalances_append (l₁ l₂ : List TokenBalanceObject) (t : Name) :
    sumBalances (l₁ ++ l₂) t = sumBalances l₁ t + sumBalances l₂ t := by
  simp [sumBalances, List.filter_append]

@[simp] theorem sumBalances_cons (b : TokenBalanceObject) (l : List TokenBalanceObject) (t : Name) :
    sumBalances (b :: l) t = (if b.token_id = t then b.balance.toInt else 0) + sumBalances l t := by
  by_cases h : b.token_id = t <;> simp [sumBalances, h]

/-- The balance read from the table is the balance of its rows. -/
theorem balanceOf_eq (s : TokenState) (t a : Name) :
    balanceOf s t a = balanceIn s.balances.rows t a := by
  unfold balanceOf balanceIn getTokenBalance IndexedTable.find?
  cases s.balances.rows.find? (byTokenAccount t a) <;> rfl

/-- With positive balances a token's sum is not negative. -/
theorem sumBalances_nonneg {rows : List TokenBalanceObject} (hpos : ∀ b ∈ rows, 0 < b.balance.toInt)
    (t : Name) : 0 ≤ sumBalances rows t := by
  induction rows with
  | nil => simp
  | cons b l ih =>
    have hb := hpos b List.mem_cons_self
    have hl := ih fun x hx => hpos x (List.mem_cons_of_mem _ hx)
    rw [sumBalances_cons]
    split <;> omega

/-- With positive balances one holder's balance is at most the token's sum. -/
theorem balanceIn_le_sumBalances {rows : List TokenBalanceObject}
    (hpos : ∀ b ∈ rows, 0 < b.balance.toInt) (t a : Name) : balanceIn rows t a ≤ sumBalances rows t := by
  unfold balanceIn
  split
  · rename_i b hb
    have hsel := byTokenAccount_eq_true.1 (List.find?_some hb)
    have hmem : b.balance.toInt ∈ (rows.filter (·.token_id == t)).map (·.balance.toInt) :=
      List.mem_map.2 ⟨b, List.mem_filter.2 ⟨List.mem_of_find?_eq_some hb, by simp [hsel.1]⟩, rfl⟩
    refine List.single_le_sum (fun x hx => ?_) _ hmem
    obtain ⟨c, hc, rfl⟩ := List.mem_map.1 hx
    exact (hpos c (List.mem_filter.1 hc).1).le
  · exact sumBalances_nonneg hpos t

/-! ## Rows around a split -/

/-- The balance of the row that a split is around. -/
theorem balanceIn_split {rows l₁ l₂ : List TokenBalanceObject} {b : TokenBalanceObject} {t o : Name}
    (hs : SplitAt (byTokenAccount t o) rows l₁ b l₂) : balanceIn rows t o = b.balance.toInt := by
  simp [balanceIn, hs.find?]

/-- Other holders keep their balances when the row of a split is replaced by one with its key. -/
theorem balanceIn_replace {l₁ l₂ : List TokenBalanceObject} {b : TokenBalanceObject} {t a : Name}
    (x : Int64) (hne : ¬ (b.token_id = t ∧ b.account = a)) :
    balanceIn (l₁ ++ { b with balance := x } :: l₂) t a = balanceIn (l₁ ++ b :: l₂) t a := by
  have hb : byTokenAccount t a b = false := by simpa [byTokenAccount] using hne
  have hb' : byTokenAccount t a { b with balance := x } = false := by
    simpa [byTokenAccount] using hne
  unfold balanceIn
  rw [find?_replace hb hb']

/-- Other holders keep their balances when the row of a split is dropped. -/
theorem balanceIn_drop {l₁ l₂ : List TokenBalanceObject} {b : TokenBalanceObject} {t a : Name}
    (hne : ¬ (b.token_id = t ∧ b.account = a)) :
    balanceIn (l₁ ++ l₂) t a = balanceIn (l₁ ++ b :: l₂) t a := by
  have hb : byTokenAccount t a b = false := by simpa [byTokenAccount] using hne
  unfold balanceIn
  rw [find?_drop hb]

/-- A new row at the end gives its holder its value and leaves the other holders. -/
theorem balanceIn_append_fresh {rows : List TokenBalanceObject} {t o : Name} (v : Int64)
    (hnone : ∀ x ∈ rows, byTokenAccount t o x = false) (t' a' : Name) :
    balanceIn (rows ++ [⟨t, o, v⟩]) t' a' =
      balanceIn rows t' a' + if t' = t ∧ a' = o then v.toInt else 0 := by
  unfold balanceIn
  rw [List.find?_append]
  by_cases h : t' = t ∧ a' = o
  · obtain ⟨rfl, rfl⟩ := h
    have hn : rows.find? (byTokenAccount t' a') = none := List.find?_eq_none.2 (by simpa using hnone)
    have hsel : byTokenAccount t' a' ⟨t', a', v⟩ = true := byTokenAccount_self _
    rw [hn, Option.none_or, List.find?_cons_of_pos hsel]
    simp
  · rw [if_neg h, Int.add_zero]
    cases hf : rows.find? (byTokenAccount t' a') with
    | some b => rfl
    | none =>
      have hsel : byTokenAccount t' a' ⟨t, o, v⟩ = false := by
        rw [Bool.eq_false_iff]
        intro hc
        exact h (by simpa [eq_comm] using byTokenAccount_eq_true.1 hc)
      rw [Option.none_or, List.find?_cons_of_neg (by simp [hsel])]
      rfl

/-- No holder of a token has a row when no row is selected. -/
theorem balanceIn_of_none {rows : List TokenBalanceObject} {t o : Name}
    (hnone : ∀ x ∈ rows, byTokenAccount t o x = false) : balanceIn rows t o = 0 := by
  unfold balanceIn
  rw [List.find?_eq_none.2 (by simpa using hnone)]

/-! ## `add_token_balance` -/

section Credit

variable {ctx : ApplyContext} {s s' : TokenState} {t o : Name} {v : Int64}

/-- A credit of `v > 0` to a balance does not wrap while their sum stays below `2^63`. -/
theorem credit_exact {b : TokenBalanceObject} (hv : 0 < v.toInt)
    (hb : b.balance.toInt + v.toInt < 2 ^ 63) : (b.balance + v).toInt = b.balance.toInt + v.toInt :=
  Int64.toInt_add_of_bounds (by have := b.balance.le_toInt; omega) hb

/-- `add_token_balance` adds `v` to the owner's balance and to no other. -/
theorem addTokenBalance_balanceIn (h : addTokenBalance ctx s t o v = .ok s') (hv : 0 < v.toInt)
    (hb : balanceIn s.balances.rows t o + v.toInt < 2 ^ 63) (t' a' : Name) :
    balanceIn s'.balances.rows t' a' =
      balanceIn s.balances.rows t' a' + if t' = t ∧ a' = o then v.toInt else 0 := by
  obtain ⟨-, -, -, ⟨b, l₁, l₂, hs, hrows, -⟩ | ⟨hnone, hrows, -⟩⟩ := addTokenBalance_ok h
  · rw [balanceIn_split hs] at hb
    have hkey := byTokenAccount_eq_true.1 hs.sel
    rw [hrows]
    by_cases hta : t' = t ∧ a' = o
    · -- the owner's row, now holding `b + v`
      obtain ⟨rfl, rfl⟩ := hta
      have hs' : SplitAt (byTokenAccount t' a') (l₁ ++ { b with balance := b.balance + v } :: l₂)
          l₁ { b with balance := b.balance + v } l₂ :=
        ⟨rfl, hs.left, by simpa [byTokenAccount] using hkey, hs.right⟩
      rw [balanceIn_split hs', balanceIn_split hs, if_pos ⟨rfl, rfl⟩, credit_exact hv hb]
    · have hne : ¬ (b.token_id = t' ∧ b.account = a') := by
        rw [hkey.1, hkey.2]
        exact fun e => hta ⟨e.1.symm, e.2.symm⟩
      rw [balanceIn_replace _ hne, ← hs.eq, if_neg hta, Int.add_zero]
  · rw [hrows, balanceIn_append_fresh v hnone]

/-- `add_token_balance` adds `v` to the sum of its token and to no other sum. -/
theorem addTokenBalance_sum (h : addTokenBalance ctx s t o v = .ok s') (hv : 0 < v.toInt)
    (hb : balanceIn s.balances.rows t o + v.toInt < 2 ^ 63) (t' : Name) :
    sumBalances s'.balances.rows t' = sumBalances s.balances.rows t' + if t' = t then v.toInt else 0 := by
  obtain ⟨-, -, -, ⟨b, l₁, l₂, hs, hrows, -⟩ | ⟨-, hrows, -⟩⟩ := addTokenBalance_ok h
  · rw [balanceIn_split hs] at hb
    have hkey := byTokenAccount_eq_true.1 hs.sel
    rw [hrows, hs.eq]
    simp only [sumBalances_append, sumBalances_cons, credit_exact hv hb, hkey.1]
    by_cases ht : t = t'
    · subst ht
      simp
      omega
    · simp [ht, Ne.symm ht]
  · rw [hrows]
    by_cases ht : t = t' <;> simp [ht, eq_comm]

/-- `add_token_balance` keeps every balance positive. -/
theorem addTokenBalance_pos (h : addTokenBalance ctx s t o v = .ok s') (hv : 0 < v.toInt)
    (hb : balanceIn s.balances.rows t o + v.toInt < 2 ^ 63)
    (hpos : ∀ x ∈ s.balances.rows, 0 < x.balance.toInt) :
    ∀ x ∈ s'.balances.rows, 0 < x.balance.toInt := by
  obtain ⟨-, -, -, ⟨b, l₁, l₂, hs, hrows, -⟩ | ⟨-, hrows, -⟩⟩ := addTokenBalance_ok h
  · rw [balanceIn_split hs] at hb
    have hb0 := hpos b (by rw [hs.eq]; simp)
    intro x hx
    rw [hrows, List.mem_append, List.mem_cons] at hx
    rcases hx with hx | rfl | hx
    · exact hpos x (by rw [hs.eq]; simp [hx])
    · show 0 < (b.balance + v).toInt
      rw [credit_exact hv hb]
      omega
    · exact hpos x (by rw [hs.eq]; simp [hx])
  · intro x hx
    rw [hrows, List.mem_append, List.mem_singleton] at hx
    rcases hx with hx | rfl
    · exact hpos x hx
    · exact hv

/-- Every row after `add_token_balance` was there before or is of its token. -/
theorem addTokenBalance_tokens (h : addTokenBalance ctx s t o v = .ok s') :
    ∀ x ∈ s'.balances.rows, x ∈ s.balances.rows ∨ x.token_id = t := by
  obtain ⟨-, -, -, ⟨b, l₁, l₂, hs, hrows, -⟩ | ⟨-, hrows, -⟩⟩ := addTokenBalance_ok h
  · have hkey := byTokenAccount_eq_true.1 hs.sel
    intro x hx
    rw [hrows, List.mem_append, List.mem_cons] at hx
    rcases hx with hx | rfl | hx
    · exact .inl (by rw [hs.eq]; simp [hx])
    · exact .inr hkey.1
    · exact .inl (by rw [hs.eq]; simp [hx])
  · intro x hx
    rw [hrows, List.mem_append, List.mem_singleton] at hx
    rcases hx with hx | rfl
    · exact .inl hx
    · exact .inr rfl

end Credit

/-! ## `subtract_token_balance` -/

section Debit

variable {ctx : ApplyContext} {s s' : TokenState} {t o : Name} {v : Int64}

/-- A debit of `v > 0` from a balance of at least `v` does not wrap. -/
theorem debit_exact {b : TokenBalanceObject} (hv : 0 < v.toInt) (hle : v ≤ b.balance) :
    (b.balance - v).toInt = b.balance.toInt - v.toInt := by
  have hle' := Int64.le_iff_toInt_le.1 hle
  have := b.balance.toInt_lt
  exact Int64.toInt_sub_of_bounds (by omega) (by omega)

/-- `subtract_token_balance` found a row of the owner holding at least `v`. -/
theorem subtractTokenBalance_found (h : subtractTokenBalance ctx s t o v = .ok s') :
    v.toInt ≤ balanceIn s.balances.rows t o ∧ ∃ b ∈ s.balances.rows, b.token_id = t := by
  obtain ⟨-, -, -, b, l₁, l₂, hs, hle, -⟩ := subtractTokenBalance_ok h
  refine ⟨by rw [balanceIn_split hs]; exact Int64.le_iff_toInt_le.1 hle, b, ?_,
    (byTokenAccount_eq_true.1 hs.sel).1⟩
  rw [hs.eq]
  simp

/-- `subtract_token_balance` takes `v` from the owner's balance and from no other. -/
theorem subtractTokenBalance_balanceIn (h : subtractTokenBalance ctx s t o v = .ok s')
    (hv : 0 < v.toInt) (t' a' : Name) :
    balanceIn s'.balances.rows t' a' =
      balanceIn s.balances.rows t' a' - if t' = t ∧ a' = o then v.toInt else 0 := by
  obtain ⟨-, -, -, b, l₁, l₂, hs, hle, ⟨heq, hrows, -⟩ | ⟨-, hrows, -⟩⟩ := subtractTokenBalance_ok h
  · have hkey := byTokenAccount_eq_true.1 hs.sel
    rw [hrows]
    by_cases hta : t' = t ∧ a' = o
    · -- the owner's row is gone, with all of its balance
      obtain ⟨rfl, rfl⟩ := hta
      rw [balanceIn_of_none (fun x hx => by
        rcases List.mem_append.1 hx with hx | hx
        · exact hs.left x hx
        · exact hs.right x hx), balanceIn_split hs, if_pos ⟨rfl, rfl⟩, heq]
      omega
    · have hne : ¬ (b.token_id = t' ∧ b.account = a') := by
        rw [hkey.1, hkey.2]
        exact fun e => hta ⟨e.1.symm, e.2.symm⟩
      rw [balanceIn_drop hne, ← hs.eq, if_neg hta, Int.sub_zero]
  · have hkey := byTokenAccount_eq_true.1 hs.sel
    rw [hrows]
    by_cases hta : t' = t ∧ a' = o
    · obtain ⟨rfl, rfl⟩ := hta
      have hs' : SplitAt (byTokenAccount t' a') (l₁ ++ { b with balance := b.balance - v } :: l₂)
          l₁ { b with balance := b.balance - v } l₂ :=
        ⟨rfl, hs.left, by simpa [byTokenAccount] using hkey, hs.right⟩
      rw [balanceIn_split hs', balanceIn_split hs, if_pos ⟨rfl, rfl⟩, debit_exact hv hle]
    · have hne : ¬ (b.token_id = t' ∧ b.account = a') := by
        rw [hkey.1, hkey.2]
        exact fun e => hta ⟨e.1.symm, e.2.symm⟩
      rw [balanceIn_replace _ hne, ← hs.eq, if_neg hta, Int.sub_zero]

/-- `subtract_token_balance` takes `v` from the sum of its token and from no other sum. -/
theorem subtractTokenBalance_sum (h : subtractTokenBalance ctx s t o v = .ok s')
    (hv : 0 < v.toInt) (t' : Name) :
    sumBalances s'.balances.rows t' = sumBalances s.balances.rows t' - if t' = t then v.toInt else 0 := by
  obtain ⟨-, -, -, b, l₁, l₂, hs, hle, ⟨heq, hrows, -⟩ | ⟨-, hrows, -⟩⟩ := subtractTokenBalance_ok h
  · have hkey := byTokenAccount_eq_true.1 hs.sel
    rw [hrows, hs.eq]
    simp only [sumBalances_append, sumBalances_cons, heq, hkey.1]
    by_cases ht : t = t'
    · subst ht
      simp
      omega
    · simp [ht, Ne.symm ht]
  · have hkey := byTokenAccount_eq_true.1 hs.sel
    rw [hrows, hs.eq]
    simp only [sumBalances_append, sumBalances_cons, debit_exact hv hle, hkey.1]
    by_cases ht : t = t'
    · subst ht
      simp
      omega
    · simp [ht, Ne.symm ht]

/-- `subtract_token_balance` keeps every balance positive. -/
theorem subtractTokenBalance_pos (h : subtractTokenBalance ctx s t o v = .ok s')
    (hv : 0 < v.toInt) (hpos : ∀ x ∈ s.balances.rows, 0 < x.balance.toInt) :
    ∀ x ∈ s'.balances.rows, 0 < x.balance.toInt := by
  obtain ⟨-, -, -, b, l₁, l₂, hs, hle, ⟨-, hrows, -⟩ | ⟨hne, hrows, -⟩⟩ := subtractTokenBalance_ok h
  · intro x hx
    rw [hrows, List.mem_append] at hx
    exact hpos x (by rw [hs.eq]; rcases hx with hx | hx <;> simp [hx])
  · intro x hx
    rw [hrows, List.mem_append, List.mem_cons] at hx
    rcases hx with hx | rfl | hx
    · exact hpos x (by rw [hs.eq]; simp [hx])
    · -- what is left of a balance above `v`
      show 0 < (b.balance - v).toInt
      have hlt : v.toInt < b.balance.toInt := by
        have hle' := Int64.le_iff_toInt_le.1 hle
        have hne' : v.toInt ≠ b.balance.toInt := fun e => hne (Int64.toInt_inj.1 e).symm
        omega
      rw [debit_exact hv hle]
      omega
    · exact hpos x (by rw [hs.eq]; simp [hx])

/-- Every row after `subtract_token_balance` was there before or is of its token. -/
theorem subtractTokenBalance_tokens (h : subtractTokenBalance ctx s t o v = .ok s') :
    ∀ x ∈ s'.balances.rows, x ∈ s.balances.rows ∨ x.token_id = t := by
  obtain ⟨-, -, -, b, l₁, l₂, hs, -, ⟨-, hrows, -⟩ | ⟨-, hrows, -⟩⟩ := subtractTokenBalance_ok h
  · intro x hx
    rw [hrows, List.mem_append] at hx
    exact .inl (by rw [hs.eq]; rcases hx with hx | hx <;> simp [hx])
  · have hkey := byTokenAccount_eq_true.1 hs.sel
    intro x hx
    rw [hrows, List.mem_append, List.mem_cons] at hx
    rcases hx with hx | rfl | hx
    · exact .inl (by rw [hs.eq]; simp [hx])
    · exact .inr hkey.1
    · exact .inl (by rw [hs.eq]; simp [hx])

end Debit

/-! ## The meta table -/

/-- `update_token_total_supply` on the row of a token gives that token the new supply. -/
theorem updateTokenTotalSupply_meta {s s' : TokenState} {m : TokenMetaObject} {d : Int64}
    (h : updateTokenTotalSupply s m d = .ok s') (hm : getTokenMetaObject s m.token_id = some m)
    (t' : Name) :
    getTokenMetaObject s' t' = if t' = m.token_id then
      some { m with total_supply := m.total_supply + d } else getTokenMetaObject s t' := by
  obtain ⟨-, -, -, hrows⟩ := updateTokenTotalSupply_ok h
  obtain ⟨l₁, l₂, hs⟩ := split_of_find? (byTokenId_unique m.token_id) hm
  rw [hs.mapSelected_eq] at hrows
  unfold getTokenMetaObject IndexedTable.find?
  rw [hrows]
  by_cases ht : t' = m.token_id
  · subst ht
    have hs' : SplitAt (byTokenId m.token_id) (l₁ ++ { m with total_supply := m.total_supply + d } :: l₂)
        l₁ { m with total_supply := m.total_supply + d } l₂ :=
      ⟨rfl, hs.left, by simp [byTokenId], hs.right⟩
    rw [hs'.find?, if_pos rfl]
  · have hne : byTokenId t' m = false := by simp [byTokenId, Ne.symm ht]
    rw [if_neg ht, find?_replace hne (by simpa [byTokenId] using hne), ← hs.eq]

/-- `set_token_meta_info` leaves every supply, and gives a token without a row the supply zero. -/
theorem setTokenMetaInfo_supplyOf {s s' : TokenState} {t : Name} {d : Settokenmeta}
    (h : setTokenMetaInfo s t d = .ok s') (t' : Name) :
    supplyOf s' t' = if t' = t then some ((supplyOf s t).getD 0) else supplyOf s t' := by
  obtain ⟨-, -, ⟨m, l₁, l₂, hs, hrows, -⟩ | ⟨hnone, hrows, -⟩⟩ := setTokenMetaInfo_ok h
  · unfold supplyOf getTokenMetaObject IndexedTable.find?
    rw [hrows]
    have hkey : m.token_id = t := byTokenId_eq_true.1 hs.sel
    by_cases ht : t' = t
    · subst ht
      have hs' : SplitAt (byTokenId t') (l₁ ++ { m with url := d.url, desc := d.desc } :: l₂)
          l₁ { m with url := d.url, desc := d.desc } l₂ :=
        ⟨rfl, hs.left, by simpa [byTokenId] using hs.sel, hs.right⟩
      rw [hs'.find?, hs.find?, if_pos rfl]
      rfl
    · have hne : byTokenId t' m = false := by simp [byTokenId, hkey, Ne.symm ht]
      rw [if_neg ht, find?_replace hne (by simpa [byTokenId] using hne), ← hs.eq]
  · unfold supplyOf getTokenMetaObject IndexedTable.find?
    rw [hrows, List.find?_append]
    have hn : ∀ t'', t'' = t → s.metas.rows.find? (byTokenId t'') = none := by
      rintro t'' rfl
      exact List.find?_eq_none.2 (by simpa using hnone)
    by_cases ht : t' = t
    · subst ht
      rw [hn t' rfl, Option.none_or, List.find?_cons_of_pos (by simp [byTokenId]), if_pos rfl]
      rfl
    · rw [if_neg ht]
      cases hf : s.metas.rows.find? (byTokenId t') with
      | some m => rfl
      | none =>
        rw [Option.none_or, List.find?_cons_of_neg (by simp [byTokenId, Ne.symm ht])]
        rfl

end InfraBlockchain.Token
