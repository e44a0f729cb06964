import Mathlib
import InfraBlockchain.Lib.Machine
import InfraBlockchain.Lib.WordArith
import InfraBlockchain.Resource.Limits

/-!
# The totals of the account limits

`resource_limits_state_object` keeps, for RAM bytes, CPU weight and NET weight, the total over the
accounts' rows in force of the positive part of the limit (`-1`, unlimited, adds nothing). The
totals are never recomputed: `process_account_limit_updates` moves each one by the old value out
and the new value in as it merges a pending row (`update_state_and_value`). The invariant
(`LimitsInvariant`) is that each total is the sum, and that every pending row has a row in force
to merge into; `initialize_account` adds a row that adds nothing, `set_account_limits` writes only
pending rows, and a merge moves the total exactly as it moves the sum (`mergePending_sums`).

The checks of `update_state_and_value` look at the total in the middle of the loop, where the
rows already merged hold their new values and the others their old ones. So they pass when every
such mix of values fits, which the sum over all rows, pending or in force, bounds
(`mergePending_of_bounds`); the sums before and after the merge fitting is not enough
(`process_account_limit_updates_overflow`).
-/

namespace InfraBlockchain.Resource

open IndexedTable

/-! ## Limits and sums -/

/-- A limit of `resource_limits_object`, with its total in `resource_limits_state_object`. -/
inductive Limit where
  | ram_bytes
  | cpu_weight
  | net_weight

/-- The value of a limit in a row. -/
def Limit.value : Limit → ResourceLimitsObject → Int64
  | .ram_bytes, r => r.ram_bytes
  | .cpu_weight, r => r.cpu_weight
  | .net_weight, r => r.net_weight

/-- The total of a limit. -/
def Limit.total : Limit → ResourceLimitsState → UInt64
  | .ram_bytes, s => s.total_ram_bytes
  | .cpu_weight, s => s.total_cpu_weight
  | .net_weight, s => s.total_net_weight

/-- What a value adds to its total: its positive part, so nothing for `-1`, unlimited. -/
def positivePart (v : Int64) : Nat := v.toInt.toNat

/-- The sum of a limit's positive parts over the rows in force. -/
def liveSum (k : Limit) (rows : List ResourceLimitsObject) : Nat :=
  ((rows.filter fun r => !r.pending).map fun r => positivePart (k.value r)).sum

/-- The sum of a limit's positive parts over every row, pending or in force. -/
def rowSum (k : Limit) (rows : List ResourceLimitsObject) : Nat :=
  (rows.map fun r => positivePart (k.value r)).sum

section Sums

variable (k : Limit) (r : ResourceLimitsObject) (rows l₁ l₂ : List ResourceLimitsObject)

@[simp] theorem liveSum_nil : liveSum k [] = 0 := rfl

@[simp] theorem liveSum_cons :
    liveSum k (r :: rows) = (if r.pending then 0 else positivePart (k.value r)) + liveSum k rows := by
  cases h : r.pending <;> simp [liveSum, h]

@[simp] theorem liveSum_append : liveSum k (l₁ ++ l₂) = liveSum k l₁ + liveSum k l₂ := by
  simp [liveSum]

@[simp] theorem rowSum_nil : rowSum k [] = 0 := rfl

@[simp] theorem rowSum_cons : rowSum k (r :: rows) = positivePart (k.value r) + rowSum k rows := by
  simp [rowSum]

@[simp] theorem rowSum_append : rowSum k (l₁ ++ l₂) = rowSum k l₁ + rowSum k l₂ := by
  simp [rowSum]

variable {k r rows}

/-- A row in force adds its value to the sum over the rows in force. -/
theorem le_liveSum (hr : r ∈ rows) (hlive : r.pending = false) :
    positivePart (k.value r) ≤ liveSum k rows := by
  induction rows with
  | nil => cases hr
  | cons x xs ih =>
    rw [liveSum_cons]
    rcases List.mem_cons.1 hr with rfl | hr
    · simp [hlive]
    · have := ih hr
      omega

/-- The rows in force are among all rows. -/
theorem liveSum_le_rowSum : liveSum k rows ≤ rowSum k rows := by
  induction rows with
  | nil => rfl
  | cons x xs ih =>
    rw [liveSum_cons, rowSum_cons]
    split <;> omega

/-- A pending row adds its value to the sum over all rows beyond the rows in force. -/
theorem liveSum_add_le_rowSum (hr : r ∈ rows) (hpending : r.pending = true) :
    liveSum k rows + positivePart (k.value r) ≤ rowSum k rows := by
  induction rows with
  | nil => cases hr
  | cons x xs ih =>
    rw [liveSum_cons, rowSum_cons]
    rcases List.mem_cons.1 hr with rfl | hr
    · have : liveSum k xs ≤ rowSum k xs := liveSum_le_rowSum
      simp only [hpending, if_true]
      omega
    · have := ih hr
      split <;> omega

/-- Rows that a step changes only when pending, and keeps pending, leave the sum over the rows in
force. -/
theorem liveSum_mapSelected {p : ResourceLimitsObject → Bool}
    {f : ResourceLimitsObject → ResourceLimitsObject} (hp : ∀ r, p r = true → r.pending = true)
    (hf : ∀ r, (f r).pending = r.pending) :
    liveSum k (mapSelected p f rows) = liveSum k rows := by
  induction rows with
  | nil => rfl
  | cons x xs ih =>
    have hcons : mapSelected p f (x :: xs) = (if p x then f x else x) :: mapSelected p f xs := rfl
    rw [hcons, liveSum_cons, liveSum_cons, ih]
    by_cases hx : p x
    · simp [hx, hf, hp x hx]
    · simp [hx]

end Sums

/-! ## Positive parts and the checks of `update_state_and_value` -/

/-- A positive value adds its cast to `uint64_t`. -/
theorem positivePart_of_pos {v : Int64} (h : v > 0) : positivePart v = v.toUInt64.toNat := by
  have h' : 0 < v.toInt := Int64.pos_iff_toInt_pos.1 h
  rw [positivePart, Int64.toNat_toUInt64_of_nonneg h'.le]

/-- A value that is not positive adds nothing. -/
theorem positivePart_of_not_pos {v : Int64} (h : ¬ v > 0) : positivePart v = 0 := by
  have h' : ¬ 0 < v.toInt := fun h' => h (Int64.pos_iff_toInt_pos.2 h')
  unfold positivePart
  omega

section Update

variable {total t : UInt64} {value pending_value v : Int64}

/-- Taking a value out leaves the total less its positive part. -/
theorem revertValue_ok (h : revertValue total value = .ok t) :
    t.toNat + positivePart value = total.toNat := by
  unfold revertValue at h
  by_cases hpos : value > 0
  · rw [if_pos hpos] at h
    simp only [bind_eq_ok, eosAssert_eq_ok, decide_eq_true_eq, pure, Except.pure,
      Except.ok.injEq, exists_const] at h
    obtain ⟨hle, rfl⟩ := h
    rw [positivePart_of_pos hpos, UInt64.toNat_sub_of_le _ _ hle]
    have := UInt64.le_iff_toNat_le.1 hle
    omega
  · rw [if_neg hpos] at h
    cases h
    rw [positivePart_of_not_pos hpos]
    rfl

/-- A total that holds the value's positive part can give it back. -/
theorem revertValue_of_le (h : positivePart value ≤ total.toNat) :
    ∃ t, revertValue total value = .ok t := by
  unfold revertValue
  by_cases hpos : value > 0
  · rw [positivePart_of_pos hpos] at h
    have hle : value.toUInt64 ≤ total := UInt64.le_iff_toNat_le.2 h
    refine ⟨total - value.toUInt64, ?_⟩
    simp [hpos, hle, eosAssert, pure, Except.pure, bind, Except.bind]
  · exact ⟨total, by simp [hpos, pure, Except.pure]⟩

/-- Adding a value adds its positive part. -/
theorem applyValue_ok (h : applyValue total pending_value = .ok t) :
    t.toNat = total.toNat + positivePart pending_value := by
  unfold applyValue at h
  by_cases hpos : pending_value > 0
  · rw [if_pos hpos] at h
    simp only [bind_eq_ok, eosAssert_eq_ok, decide_eq_true_eq, pure, Except.pure,
      Except.ok.injEq, exists_const] at h
    obtain ⟨hle, rfl⟩ := h
    rw [positivePart_of_pos hpos]
    exact UInt64.toNat_add_of_le_sub hle
  · rw [if_neg hpos] at h
    cases h
    rw [positivePart_of_not_pos hpos]
    rfl

/-- A value is added when the sum stays below `2^64`. -/
theorem applyValue_of_lt (h : total.toNat + positivePart pending_value < 2 ^ 64) :
    ∃ t, applyValue total pending_value = .ok t := by
  unfold applyValue
  by_cases hpos : pending_value > 0
  · rw [positivePart_of_pos hpos] at h
    have hle : pending_value.toUInt64 ≤ uint64Max - total := UInt64.le_sub_iff.2 h
    refine ⟨total + pending_value.toUInt64, ?_⟩
    simp [hpos, hle, eosAssert, pure, Except.pure, bind, Except.bind]
  · exact ⟨total, by simp [hpos, pure, Except.pure]⟩

/-- `update_state_and_value` moves the total by the old positive part out and the new one in, and
sets the new value. -/
theorem updateStateAndValue_ok (h : updateStateAndValue total value pending_value = .ok (t, v)) :
    v = pending_value ∧ t.toNat + positivePart value = total.toNat + positivePart pending_value := by
  simp only [updateStateAndValue, bind_eq_ok, pure, Except.pure, Except.ok.injEq,
    Prod.mk.injEq] at h
  obtain ⟨t₁, h₁, t₂, h₂, rfl, rfl⟩ := h
  have e₁ := revertValue_ok h₁
  have e₂ := applyValue_ok h₂
  exact ⟨rfl, by omega⟩

/-- Neither check of `update_state_and_value` fires when the total holds the old value and the
total with the new value instead fits. -/
theorem updateStateAndValue_of_bounds (h₁ : positivePart value ≤ total.toNat)
    (h₂ : total.toNat - positivePart value + positivePart pending_value < 2 ^ 64) :
    ∃ t, updateStateAndValue total value pending_value = .ok (t, pending_value) := by
  obtain ⟨t₁, ht₁⟩ := revertValue_of_le h₁
  have e₁ := revertValue_ok ht₁
  obtain ⟨t₂, ht₂⟩ :=
    applyValue_of_lt (show t₁.toNat + positivePart pending_value < 2 ^ 64 by omega)
  exact ⟨t₂, by simp only [updateStateAndValue, ht₁, ht₂, bind, Except.bind, pure, Except.pure]⟩

end Update

/-! ## The invariant -/

/-- Every pending row has a row in force of its account to merge into. -/
def PendingLive (rows : List ResourceLimitsObject) : Prop :=
  ∀ p ∈ rows, p.pending = true → ∃ l ∈ rows, l.pending = false ∧ l.owner = p.owner

/-- Each total is the sum of its limit over the rows in force, and each pending row has a row in
force. -/
structure LimitsInvariant (s : ResourceLimitsState) : Prop where
  /-- The totals are the sums. -/
  totals : ∀ k : Limit, (k.total s).toNat = liveSum k s.limits.rows
  /-- Pending rows have rows in force. -/
  pending_live : PendingLive s.limits.rows

/-- The state of `initialize_database`, with no rows, keeps the invariant. -/
theorem LimitsInvariant.init : LimitsInvariant ResourceLimitsState.init where
  totals k := by cases k <;> rfl
  pending_live _ hp := by cases hp

section PendingLive

variable {rows : List ResourceLimitsObject}

/-- A new row in force keeps every pending row's row in force. -/
theorem PendingLive.append_live (h : PendingLive rows) {x : ResourceLimitsObject}
    (hx : x.pending = false) : PendingLive (rows ++ [x]) := by
  intro p hp hpend
  rcases List.mem_append.1 hp with hp | hp
  · obtain ⟨l, hl, hl'⟩ := h p hp hpend
    exact ⟨l, List.mem_append_left _ hl, hl'⟩
  · rw [List.mem_singleton.1 hp, hx] at hpend
    cases hpend

/-- A new pending row of an account with a row in force keeps the property. -/
theorem PendingLive.append_pending (h : PendingLive rows) {x l : ResourceLimitsObject}
    (hl : l ∈ rows) (hlive : l.pending = false) (howner : l.owner = x.owner) :
    PendingLive (rows ++ [x]) := by
  intro p hp hpend
  rcases List.mem_append.1 hp with hp | hp
  · obtain ⟨l', hl', hl''⟩ := h p hp hpend
    exact ⟨l', List.mem_append_left _ hl', hl''⟩
  · rw [List.mem_singleton.1 hp]
    exact ⟨l, List.mem_append_left _ hl, hlive, howner⟩

/-- A change of pending rows only, which keeps their accounts, keeps the property. -/
theorem PendingLive.mapSelected (h : PendingLive rows) {p : ResourceLimitsObject → Bool}
    {f : ResourceLimitsObject → ResourceLimitsObject} (hp : ∀ r, p r = true → r.pending = true)
    (hpending : ∀ r, (f r).pending = r.pending) (howner : ∀ r, (f r).owner = r.owner) :
    PendingLive (IndexedTable.mapSelected p f rows) := by
  -- a row in force is not selected, so it is its own image
  have hkeep : ∀ l ∈ rows, l.pending = false → l ∈ IndexedTable.mapSelected p f rows := by
    intro l hl hlive
    have hsel : p l = false := by
      cases hpl : p l
      · rfl
      · rw [hp l hpl] at hlive
        cases hlive
    exact List.mem_map.2 ⟨l, hl, by simp [hsel]⟩
  intro x hx hpend
  obtain ⟨r, hr, rfl⟩ := List.mem_map.1 hx
  by_cases hsel : p r
  · simp only [hsel, if_true, hpending, howner] at hpend ⊢
    obtain ⟨l, hl, hlive, hlo⟩ := h r hr hpend
    exact ⟨l, hkeep l hl hlive, hlive, hlo⟩
  · simp only [hsel, Bool.false_eq_true, if_false] at hpend ⊢
    obtain ⟨l, hl, hlive, hlo⟩ := h r hr hpend
    exact ⟨l, hkeep l hl hlive, hlive, hlo⟩

end PendingLive

/-! ## One merge -/

/-- The lookup `by_owner` is by a unique key. -/
theorem byOwner_unique (pending : Bool) (owner : Name) :
    UniqueKey ResourceLimitsObject.clash (byOwner pending owner) := by
  intro a b ha hb
  simp only [byOwner, Bool.and_eq_true, beq_iff_eq] at ha hb
  exact ⟨ha.1.trans hb.1.symm, ha.2.trans hb.2.symm⟩

/-- Clashing is symmetric. -/
theorem ResourceLimitsObject.clash_symm (a b : ResourceLimitsObject) : a.clash b → b.clash a :=
  fun h => ⟨h.1.symm, h.2.symm⟩

/-- The row in force `actual` with the limits of the pending row `itr`. -/
def merged (actual itr : ResourceLimitsObject) : ResourceLimitsObject :=
  ⟨actual.owner, actual.pending, itr.net_weight, itr.cpu_weight, itr.ram_bytes⟩

@[simp] theorem value_merged (k : Limit) (actual itr : ResourceLimitsObject) :
    k.value (merged actual itr) = k.value itr := by
  cases k <;> rfl

@[simp] theorem pending_merged (actual itr : ResourceLimitsObject) :
    (merged actual itr).pending = actual.pending := rfl

@[simp] theorem owner_merged (actual itr : ResourceLimitsObject) :
    (merged actual itr).owner = actual.owner := rfl

section Merge

variable {s s' : ResourceLimitsState} {itr : ResourceLimitsObject}

/-- A merge finds the account's row in force, gives it the pending limits, moves each total by the
old positive part out and the new one in, and removes the account's pending row. -/
theorem mergePending_ok (h : mergePending s itr = .ok s') :
    ∃ (actual : ResourceLimitsObject) (l₁ l₂ : List ResourceLimitsObject)
      (t₁ : IndexedTable ResourceLimitsObject ResourceLimitsObject.clash),
      SplitAt (byOwner false itr.owner) s.limits.rows l₁ actual l₂ ∧
      t₁.rows = l₁ ++ merged actual itr :: l₂ ∧ s'.limits = t₁.remove (byOwner true itr.owner) ∧
      ∀ k : Limit, (k.total s').toNat + positivePart (k.value actual) =
        (k.total s).toNat + positivePart (k.value itr) := by
  simp only [mergePending, bind_eq_ok, liftDb_eq_ok] at h
  obtain ⟨actual, hfind, ⟨tr, vr⟩, hr, ⟨tc, vc⟩, hc, ⟨tn, vn⟩, hn, t₁, hmod, hres⟩ := h
  obtain ⟨rfl, er⟩ := updateStateAndValue_ok hr
  obtain ⟨rfl, ec⟩ := updateStateAndValue_ok hc
  obtain ⟨rfl, en⟩ := updateStateAndValue_ok hn
  simp only [pure, Except.pure, Except.ok.injEq] at hres
  subst hres
  obtain ⟨l₁, l₂, hsplit⟩ := split_of_find? (byOwner_unique false itr.owner) hfind
  refine ⟨actual, l₁, l₂, t₁, hsplit, ?_, rfl, ?_⟩
  · rw [rows_of_modify hmod, hsplit.mapSelected_eq]
    rfl
  · intro k
    cases k
    · exact er
    · exact ec
    · exact en

/-- Around the merge: the sums over the rows in force move as the totals do, the sum over all
rows loses the old value, and one row goes. -/
theorem mergePending_sums (h : mergePending s itr = .ok s') (hmem : itr ∈ s.limits.rows)
    (hpending : itr.pending = true) :
    ∃ actual, actual ∈ s.limits.rows ∧ actual.pending = false ∧ actual.owner = itr.owner ∧
      (∀ k : Limit, (k.total s').toNat + positivePart (k.value actual) =
        (k.total s).toNat + positivePart (k.value itr)) ∧
      (∀ k : Limit, liveSum k s'.limits.rows + positivePart (k.value actual) =
        liveSum k s.limits.rows + positivePart (k.value itr)) ∧
      (∀ k : Limit, rowSum k s'.limits.rows + positivePart (k.value actual) =
        rowSum k s.limits.rows) ∧
      s'.limits.rows.length + 1 = s.limits.rows.length := by
  obtain ⟨actual, l₁, l₂, t₁, hsplit, ht₁, hs', htot⟩ := mergePending_ok h
  have hsel := hsplit.sel
  simp only [byOwner, Bool.and_eq_true, beq_iff_eq] at hsel
  -- the pending row is not the row in force, so it is still there after the modification
  have hitr : itr ∈ t₁.rows := by
    have hmem' := hsplit.eq ▸ hmem
    rw [ht₁]
    rcases List.mem_append.1 hmem' with h₁ | h₂
    · exact List.mem_append_left _ h₁
    · rcases List.mem_cons.1 h₂ with rfl | h₂
      · rw [hsel.1] at hpending
        cases hpending
      · exact List.mem_append_right _ (List.mem_cons_of_mem _ h₂)
  have hsel' : byOwner true itr.owner itr = true := by simp [byOwner, hpending]
  obtain ⟨m₁, m₂, hsplit₂⟩ :=
    split_of_find? (byOwner_unique true itr.owner) (find?_of_mem (byOwner_unique _ _) hitr hsel')
  have hrows : s'.limits.rows = m₁ ++ m₂ := by
    rw [hs']
    exact remove_split hsplit₂
  have hmid : m₁ ++ itr :: m₂ = l₁ ++ merged actual itr :: l₂ := hsplit₂.eq.symm.trans ht₁
  refine ⟨actual, ?_, hsel.1, hsel.2, htot, fun k => ?_, fun k => ?_, ?_⟩
  · rw [hsplit.eq]
    exact List.mem_append_right _ (List.mem_cons_self)
  · -- the pending row adds nothing to the sum over the rows in force
    have e : liveSum k (m₁ ++ itr :: m₂) = liveSum k (l₁ ++ merged actual itr :: l₂) := by
      rw [hmid]
    simp only [liveSum_append, liveSum_cons, hpending, if_true, pending_merged, hsel.1,
      value_merged] at e
    rw [hrows, hsplit.eq]
    simp only [liveSum_append, liveSum_cons, hsel.1]
    simp only [Bool.false_eq_true, if_false] at e ⊢
    omega
  · have e : rowSum k (m₁ ++ itr :: m₂) = rowSum k (l₁ ++ merged actual itr :: l₂) := by
      rw [hmid]
    simp only [rowSum_append, rowSum_cons, value_merged] at e
    rw [hrows, hsplit.eq]
    simp only [rowSum_append, rowSum_cons]
    omega
  · have e := congrArg List.length hmid
    rw [hrows, hsplit.eq]
    simp only [List.length_append, List.length_cons] at e ⊢
    omega

/-- A merge keeps every other pending row's row in force. -/
theorem mergePending_pendingLive (h : mergePending s itr = .ok s')
    (hlive : PendingLive s.limits.rows) (hmem : itr ∈ s.limits.rows)
    (hpending : itr.pending = true) : PendingLive s'.limits.rows := by
  obtain ⟨actual, l₁, l₂, t₁, hsplit, ht₁, hs', -⟩ := mergePending_ok h
  have hsel := hsplit.sel
  simp only [byOwner, Bool.and_eq_true, beq_iff_eq] at hsel
  have hitr : itr ∈ t₁.rows := by
    have hmem' := hsplit.eq ▸ hmem
    rw [ht₁]
    simp only [List.mem_append, List.mem_cons] at hmem' ⊢
    rcases hmem' with h₁ | rfl | h₂
    · exact .inl h₁
    · rw [hsel.1] at hpending
      cases hpending
    · exact .inr (.inr h₂)
  have hsel' : byOwner true itr.owner itr = true := by simp [byOwner, hpending]
  obtain ⟨m₁, m₂, hsplit₂⟩ :=
    split_of_find? (byOwner_unique true itr.owner) (find?_of_mem (byOwner_unique _ _) hitr hsel')
  have hrows : s'.limits.rows = m₁ ++ m₂ := by
    rw [hs']
    exact remove_split hsplit₂
  have hmid : m₁ ++ itr :: m₂ = l₁ ++ merged actual itr :: l₂ := hsplit₂.eq.symm.trans ht₁
  intro p hp hpend
  rw [hrows] at hp
  -- the pending rows left belong to other accounts
  have hother : p.owner ≠ itr.owner := by
    have hp' : byOwner true itr.owner p = false := by
      rcases List.mem_append.1 hp with hp | hp
      · exact hsplit₂.left p hp
      · exact hsplit₂.right p hp
    intro howner
    simp [byOwner, hpend, howner] at hp'
  -- they were pending rows before the merge, with their rows in force
  have hp_old : p ∈ s.limits.rows := by
    have hp_mid : p ∈ l₁ ++ merged actual itr :: l₂ := by
      rw [← hmid]
      simp only [List.mem_append, List.mem_cons] at hp ⊢
      tauto
    rw [hsplit.eq]
    simp only [List.mem_append, List.mem_cons] at hp_mid ⊢
    rcases hp_mid with h₁ | rfl | h₂
    · exact .inl h₁
    · rw [pending_merged, hsel.1] at hpend
      cases hpend
    · exact .inr (.inr h₂)
  obtain ⟨l, hl, hl_live, hl_owner⟩ := hlive p hp_old hpend
  refine ⟨l, ?_, hl_live, hl_owner⟩
  -- that row in force is not the merged one, whose account is the pending row's
  have hl_mid : l ∈ m₁ ++ itr :: m₂ := by
    rw [hmid]
    rw [hsplit.eq] at hl
    simp only [List.mem_append, List.mem_cons] at hl ⊢
    rcases hl with h₁ | rfl | h₂
    · exact .inl h₁
    · exact absurd (hl_owner.symm.trans hsel.2) hother
    · exact .inr (.inr h₂)
  rw [hrows]
  simp only [List.mem_append, List.mem_cons] at hl_mid ⊢
  rcases hl_mid with h₁ | rfl | h₂
  · exact .inl h₁
  · rw [hpending] at hl_live
    cases hl_live
  · exact .inr h₂

/-- A merge keeps the invariant. -/
theorem mergePending_invariant (h : mergePending s itr = .ok s') (hinv : LimitsInvariant s)
    (hmem : itr ∈ s.limits.rows) (hpending : itr.pending = true) : LimitsInvariant s' := by
  obtain ⟨actual, -, -, -, htot, hlive, -, -⟩ := mergePending_sums h hmem hpending
  refine ⟨fun k => ?_, mergePending_pendingLive h hinv.pending_live hmem hpending⟩
  have e₁ := htot k
  have e₂ := hlive k
  have e₃ := hinv.totals k
  omega

/-- A merge succeeds when the sum over all rows of each limit fits in 64 bits: the total in the
middle of the merge is the sum over the rows in force less the old value, and with the pending
value it stays within the sum over all rows. -/
theorem mergePending_of_bounds (hinv : LimitsInvariant s)
    (hbound : ∀ k : Limit, rowSum k s.limits.rows < 2 ^ 64) (hmem : itr ∈ s.limits.rows)
    (hpending : itr.pending = true) : ∃ s', mergePending s itr = .ok s' := by
  obtain ⟨l, hl, hl_live, hl_owner⟩ := hinv.pending_live itr hmem hpending
  have hsel : byOwner false itr.owner l = true := by simp [byOwner, hl_live, hl_owner]
  have hfind := find?_of_mem (byOwner_unique false itr.owner) hl hsel
  obtain ⟨l₁, l₂, hsplit⟩ := split_of_find? (byOwner_unique false itr.owner) hfind
  -- each of the three checks passes
  have hcheck : ∀ k : Limit, ∃ t,
      updateStateAndValue (k.total s) (k.value l) (k.value itr) = .ok (t, k.value itr) := by
    intro k
    have h₁ := le_liveSum (k := k) hl hl_live
    have h₂ := liveSum_add_le_rowSum (k := k) hmem hpending
    have h₃ := hbound k
    apply updateStateAndValue_of_bounds
    · rw [hinv.totals k]
      exact h₁
    · rw [hinv.totals k]
      omega
  obtain ⟨tr, hr⟩ := hcheck .ram_bytes
  obtain ⟨tc, hc⟩ := hcheck .cpu_weight
  obtain ⟨tn, hn⟩ := hcheck .net_weight
  -- the row in force keeps its key, so the modification clashes with nothing
  have hpw := s.limits.no_clash
  rw [hsplit.eq, List.pairwise_append, List.pairwise_cons] at hpw
  obtain ⟨-, ⟨hright, -⟩, hcross⟩ := hpw
  obtain ⟨t₁, hmod, -⟩ := modify_split (fun rlo => merged rlo itr) hsplit
    (fun x hx => hcross x hx l List.mem_cons_self) hright
  have hr' : updateStateAndValue s.total_ram_bytes l.ram_bytes itr.ram_bytes =
      .ok (tr, itr.ram_bytes) := hr
  have hc' : updateStateAndValue s.total_cpu_weight l.cpu_weight itr.cpu_weight =
      .ok (tc, itr.cpu_weight) := hc
  have hn' : updateStateAndValue s.total_net_weight l.net_weight itr.net_weight =
      .ok (tn, itr.net_weight) := hn
  have hmod' : s.limits.modify (byOwner false itr.owner) (fun rlo =>
      ⟨rlo.owner, rlo.pending, itr.net_weight, itr.cpu_weight, itr.ram_bytes⟩) = some t₁ := hmod
  simp only [mergePending, hfind, liftDb, hr', hc', hn', hmod', bind, Except.bind]
  exact ⟨_, rfl⟩

end Merge

/-! ## The loop -/

section Loop

variable {rows : List ResourceLimitsObject} {itr : ResourceLimitsObject}

/-- The row that the loop takes is a pending row of the table. -/
theorem firstPending_mem (h : firstPending rows = some itr) : itr ∈ rows ∧ itr.pending = true := by
  have hsorted := List.mem_of_mem_head? h
  rw [(List.perm_insertionSort _ _).mem_iff, List.mem_filter] at hsorted
  exact hsorted

/-- The loop stops when no row is pending. -/
theorem firstPending_eq_none (h : firstPending rows = none) : ∀ r ∈ rows, r.pending = false := by
  have hnil := List.head?_eq_none_iff.1 h
  have hlen := congrArg List.length hnil
  rw [List.length_insertionSort, List.length_nil, List.length_eq_zero_iff,
    List.filter_eq_nil_iff] at hlen
  intro r hr
  simpa using hlen r hr

variable {s s' : ResourceLimitsState}

/-- The loop keeps the invariant, and with as much fuel as there are rows it leaves no pending
row: each iteration removes one. -/
theorem mergeLoop_invariant : ∀ {fuel : Nat} {s s' : ResourceLimitsState},
    LimitsInvariant s → mergeLoop fuel s = .ok s' →
      LimitsInvariant s' ∧ (s.limits.rows.length ≤ fuel → ∀ r ∈ s'.limits.rows, r.pending = false)
  | 0, s, s', hinv, h => by
    cases h
    refine ⟨hinv, fun hlen r hr => ?_⟩
    rw [List.length_eq_zero_iff.1 (Nat.le_zero.1 hlen)] at hr
    cases hr
  | fuel + 1, s, s', hinv, h => by
    unfold mergeLoop at h
    cases hf : firstPending s.limits.rows with
    | none =>
      rw [hf] at h
      cases h
      exact ⟨hinv, fun _ => firstPending_eq_none hf⟩
    | some itr =>
      rw [hf] at h
      simp only [bind_eq_ok] at h
      obtain ⟨s₁, h₁, h₂⟩ := h
      obtain ⟨hmem, hpending⟩ := firstPending_mem hf
      obtain ⟨actual, -, -, -, -, -, -, hlen⟩ := mergePending_sums h₁ hmem hpending
      obtain ⟨hinv', hdone⟩ := mergeLoop_invariant (mergePending_invariant h₁ hinv hmem hpending) h₂
      exact ⟨hinv', fun hle => hdone (by omega)⟩

/-- The loop succeeds when the sum over all rows of each limit fits in 64 bits; a merge only
lowers that sum. -/
theorem mergeLoop_of_bounds : ∀ {fuel : Nat} {s : ResourceLimitsState},
    LimitsInvariant s → (∀ k : Limit, rowSum k s.limits.rows < 2 ^ 64) →
      ∃ s', mergeLoop fuel s = .ok s'
  | 0, s, _, _ => ⟨s, rfl⟩
  | fuel + 1, s, hinv, hbound => by
    unfold mergeLoop
    cases hf : firstPending s.limits.rows with
    | none => exact ⟨s, rfl⟩
    | some itr =>
      obtain ⟨hmem, hpending⟩ := firstPending_mem hf
      obtain ⟨s₁, h₁⟩ := mergePending_of_bounds hinv hbound hmem hpending
      obtain ⟨actual, -, -, -, -, -, hrow, -⟩ := mergePending_sums h₁ hmem hpending
      have hbound₁ : ∀ k : Limit, rowSum k s₁.limits.rows < 2 ^ 64 := by
        intro k
        have e := hrow k
        have := hbound k
        omega
      obtain ⟨s', h'⟩ :=
        @mergeLoop_of_bounds fuel s₁ (mergePending_invariant h₁ hinv hmem hpending) hbound₁
      exact ⟨s', by simp only [h₁, h', bind, Except.bind]⟩

end Loop

/-! ## The calls -/

section Calls

variable {s s' : ResourceLimitsState}

/-- A new account's row is in force and adds nothing to the totals. -/
theorem initializeAccount_invariant {account : Name} (hinv : LimitsInvariant s)
    (h : initializeAccount s account = .ok s') : LimitsInvariant s' := by
  simp only [initializeAccount, bind_eq_ok, liftDb_eq_ok, pure, Except.pure,
    Except.ok.injEq] at h
  obtain ⟨limits, hcreate, usage, -, rfl⟩ := h
  have hrows := rows_of_create hcreate
  have hunlimited : positivePart (-1) = 0 := positivePart_of_not_pos (by decide)
  refine ⟨fun k => ?_, ?_⟩
  · have htotal : k.total { s with limits, usage } = k.total s := by cases k <;> rfl
    have hvalue : k.value ⟨account, false, -1, -1, -1⟩ = -1 := by cases k <;> rfl
    rw [htotal, hinv.totals k, hrows, liveSum_append, liveSum_cons, hvalue, hunlimited]
    simp
  · rw [hrows]
    exact hinv.pending_live.append_live rfl

/-- `find_or_create_pending_limits` leaves the table, or adds a pending row copied from a row in
force of the account. -/
theorem findOrCreatePendingLimits_ok {account : Name}
    {table : IndexedTable ResourceLimitsObject ResourceLimitsObject.clash}
    {limits : ResourceLimitsObject} (h : findOrCreatePendingLimits s account = .ok (table, limits)) :
    table.rows = s.limits.rows ∨ ∃ l ∈ s.limits.rows, l.pending = false ∧ l.owner = account ∧
      table.rows = s.limits.rows ++ [⟨l.owner, true, l.net_weight, l.cpu_weight, l.ram_bytes⟩] := by
  unfold findOrCreatePendingLimits at h
  cases hp : s.limits.find? (byOwner true account) with
  | some p =>
    rw [hp] at h
    cases h
    exact .inl rfl
  | none =>
    rw [hp] at h
    simp only [bind_eq_ok, liftDb_eq_ok, pure, Except.pure, Except.ok.injEq, Prod.mk.injEq] at h
    obtain ⟨l, hl, t, hcreate, rfl, -⟩ := h
    obtain ⟨hmem, hsel⟩ := mem_of_find? hl
    simp only [byOwner, Bool.and_eq_true, beq_iff_eq] at hsel
    exact .inr ⟨l, hmem, hsel.1, hsel.2, rows_of_create hcreate⟩

/-- `set_account_limits` writes only the account's pending row, so it keeps the invariant. -/
theorem setAccountLimits_invariant {account : Name} {ram_bytes net_weight cpu_weight : Int64}
    {decreased : Bool} (hinv : LimitsInvariant s)
    (h : setAccountLimits s account ram_bytes net_weight cpu_weight = .ok (s', decreased)) :
    LimitsInvariant s' := by
  simp only [setAccountLimits, bind_eq_ok, liftDb_eq_ok, pure, Except.pure, Except.ok.injEq,
    Prod.mk.injEq] at h
  obtain ⟨⟨table, limits⟩, hfind, table', hmod, rfl, -⟩ := h
  -- the table before the write: the same rows, or one more pending row
  have htable : (∀ k : Limit, liveSum k table.rows = liveSum k s.limits.rows) ∧
      PendingLive table.rows := by
    rcases findOrCreatePendingLimits_ok hfind with heq | ⟨l, hl, hlive, -, heq⟩
    · rw [heq]
      exact ⟨fun _ => rfl, hinv.pending_live⟩
    · rw [heq]
      exact ⟨fun k => by simp, hinv.pending_live.append_pending hl hlive rfl⟩
  have hsel : ∀ r, byOwner true account r = true → r.pending = true := by
    intro r hr
    simp only [byOwner, Bool.and_eq_true, beq_iff_eq] at hr
    exact hr.1
  dsimp only at hmod
  refine ⟨fun k => ?_, ?_⟩
  · have htotal : k.total { s with limits := table' } = k.total s := by cases k <;> rfl
    rw [htotal, hinv.totals k, rows_of_modify hmod, liveSum_mapSelected hsel, htable.1 k]
    exact fun _ => rfl
  · rw [rows_of_modify hmod]
    refine htable.2.mapSelected hsel ?_ ?_ <;> exact fun _ => rfl

/-- `process_account_limit_updates` keeps the invariant and leaves no pending row. -/
theorem processAccountLimitUpdates_invariant (hinv : LimitsInvariant s)
    (h : processAccountLimitUpdates s = .ok s') :
    LimitsInvariant s' ∧ ∀ r ∈ s'.limits.rows, r.pending = false := by
  obtain ⟨hinv', hdone⟩ := mergeLoop_invariant hinv h
  exact ⟨hinv', hdone le_rfl⟩

/-- Every call keeps the invariant. -/
theorem resourceStep_invariant {r : ResourceRequest} (hinv : LimitsInvariant s)
    (h : resourceStep s r = .ok s') : LimitsInvariant s' := by
  cases r with
  | initialize_account account => exact initializeAccount_invariant hinv h
  | set_account_limits account ram_bytes net_weight cpu_weight =>
    simp only [resourceStep, bind_eq_ok, pure, Except.pure, Except.ok.injEq] at h
    obtain ⟨⟨s₁, decreased⟩, h₁, rfl⟩ := h
    exact setAccountLimits_invariant hinv h₁
  | process_account_limit_updates => exact (processAccountLimitUpdates_invariant hinv h).1

end Calls

/-! ## Runs -/

/-- Along every run of calls from `initialize_database`: each total is the sum, over the rows in
force, of the positive part of its limit; an account has at most one pending row;
`process_account_limit_updates` leaves no pending row; and its checks never fire when, for each
limit, the sum of the positive parts over all rows, pending or in force, fits in 64 bits. -/
theorem resource_limits_totals (reqs : List ResourceRequest) :
    let s := Machine.run resourceStep ResourceLimitsState.init reqs
    (∀ k : Limit, (k.total s).toNat = liveSum k s.limits.rows) ∧
      (∀ a ∈ s.limits.rows, ∀ b ∈ s.limits.rows, a.pending = true → b.pending = true →
        a.owner = b.owner → a = b) ∧
      (∀ s', processAccountLimitUpdates s = .ok s' → ∀ r ∈ s'.limits.rows, r.pending = false) ∧
      ((∀ k : Limit, rowSum k s.limits.rows < 2 ^ 64) → ∃ s', processAccountLimitUpdates s = .ok s') := by
  intro s
  have hinv : LimitsInvariant s :=
    Machine.run_invariant LimitsInvariant (fun _ _ _ hs h => resourceStep_invariant hs h) reqs
      LimitsInvariant.init
  refine ⟨hinv.totals, ?_, fun s' h => (processAccountLimitUpdates_invariant hinv h).2,
    fun hbound => mergeLoop_of_bounds hinv hbound⟩
  intro a ha b hb hpa hpb howner
  exact eq_of_clash ResourceLimitsObject.clash_symm ha hb ⟨hpa.trans hpb.symm, howner⟩

/-- Accounts `1`, `2` and `3`, the last two with the most RAM bytes that an `int64_t` holds, merged
in one block: the RAM total is `2^64 - 2`. Then `1` gets `2` bytes and `2` none. Merged, the total
is `2^63 + 1`, and it is when `2` is merged in one block and `1` in the next; merged in one block,
`1` comes first, and `2^64 - 2 + 2` overflows in the middle. -/
theorem process_account_limit_updates_overflow :
    let s := Machine.run resourceStep ResourceLimitsState.init
      [.initialize_account ⟨1⟩, .initialize_account ⟨2⟩, .initialize_account ⟨3⟩,
        .set_account_limits ⟨2⟩ 9223372036854775807 (-1) (-1),
        .set_account_limits ⟨3⟩ 9223372036854775807 (-1) (-1), .process_account_limit_updates,
        .set_account_limits ⟨1⟩ 2 (-1) (-1), .set_account_limits ⟨2⟩ 0 (-1) (-1)]
    liveSum .ram_bytes s.limits.rows = 2 ^ 64 - 2 ∧
      processAccountLimitUpdates s =
        .error ⟨.rate_limiting_state_inconsistent, "overflow when applying new value to ${which}"⟩ ∧
      (Machine.run resourceStep ResourceLimitsState.init
        [.initialize_account ⟨1⟩, .initialize_account ⟨2⟩, .initialize_account ⟨3⟩,
          .set_account_limits ⟨2⟩ 9223372036854775807 (-1) (-1),
          .set_account_limits ⟨3⟩ 9223372036854775807 (-1) (-1), .process_account_limit_updates,
          .set_account_limits ⟨2⟩ 0 (-1) (-1), .process_account_limit_updates,
          .set_account_limits ⟨1⟩ 2 (-1) (-1),
          .process_account_limit_updates]).total_ram_bytes.toNat = 2 ^ 63 + 1 := by
  intro s
  refine ⟨by decide, by decide, by decide⟩

end InfraBlockchain.Resource
