import Mathlib
import InfraBlockchain.Lib.IndexedTable
import InfraBlockchain.Lib.Machine
import InfraBlockchain.Types

/-!
# Transaction-vote statistics

Each transaction may vote for an account with an amount (`transaction_as_a_vote.hpp`), and
`transaction_vote_stat_manager::add_transaction_vote_amount_to_target_account` adds it to the
`received_transaction_votes_object` of the target: the plain sum, a time-decayed weighted sum, and
an index that makes the weighted sum a unique key. The table has two unique indices, by account
and by the pair of the weighted sum and that index; the index of a new weighted sum is one more
than the largest index of an object with that weighted sum, found by walking the ordered index
from its `lower_bound`.

The weighted sums are `double`s computed by softfloat, whose sources are not part of the
repository: `W` stands for them, and `TxVoteWeighting` for the two softfloat computations, with no
property assumed. The ordered index is walked only over equal keys, so all the model needs of
`W` is equality.
-/

namespace InfraBlockchain.TxVote

open IndexedTable

variable {W : Type}

/-- `received_transaction_votes_object`. -/
structure ReceivedTransactionVotesObject (W : Type) where
  /-- The vote target. -/
  account : Name
  /-- `tx_votes_sum_type`, the sum of the received votes. -/
  tx_votes : UInt64
  /-- The weighted (time-decayed) sum of the received votes. -/
  tx_votes_weighted : W
  /-- Makes `tx_votes_weighted` a unique key. -/
  tx_votes_weighted_unique_idx : UInt16

/-- Two objects clash in `received_transaction_votes_multi_index` when they have one account
(`by_tx_votes_account`) or one weighted sum and one index (`by_tx_votes_weighted`). -/
def ReceivedTransactionVotesObject.clash (a b : ReceivedTransactionVotesObject W) : Prop :=
  a.account = b.account ∨
    (a.tx_votes_weighted = b.tx_votes_weighted ∧
      a.tx_votes_weighted_unique_idx = b.tx_votes_weighted_unique_idx)

instance [DecidableEq W] : DecidableRel (@ReceivedTransactionVotesObject.clash W) :=
  fun a b => inferInstanceAs (Decidable (a.account = b.account ∨
    (a.tx_votes_weighted = b.tx_votes_weighted ∧
      a.tx_votes_weighted_unique_idx = b.tx_votes_weighted_unique_idx)))

/-- The softfloat computations: `weighted_tx_vote_time_decayed` of a block time and a vote, and
`softfloat64::add`; `zero` is `0.0`. -/
structure TxVoteWeighting (W : Type) where
  /-- `weighted_tx_vote_time_decayed`. -/
  weighted_tx_vote_time_decayed : UInt32 → UInt32 → W
  /-- `softfloat64::add`. -/
  add : W → W → W
  /-- `0.0`. -/
  zero : W

/-- What the manager reads and writes: the table and the totals of the global property object. -/
structure TxVoteState (W : Type) where
  /-- `received_transaction_votes_multi_index`. -/
  votes : IndexedTable (ReceivedTransactionVotesObject W) ReceivedTransactionVotesObject.clash
  /-- `infrablockchain_global_property_object::total_tx_votes`. -/
  total_tx_votes : UInt64
  /-- `infrablockchain_global_property_object::total_tx_votes_weighted`. -/
  total_tx_votes_weighted : W

/-- `infrablockchain_max_transaction_fee_amount_per_transaction`, compared as a `uint32_t`. -/
def infrablockchainMaxTransactionFeeAmountPerTransaction : UInt32 := 1000000000

/-- The lookup `by_tx_votes_account`. -/
def byTxVotesAccount (account : Name) (o : ReceivedTransactionVotesObject W) : Bool :=
  o.account == account

/-- The indices of the objects with weighted sum `w`, in the order of `by_tx_votes_weighted` from
its `lower_bound` at `w`. -/
def sameWeightIdxs [DecidableEq W] (rows : List (ReceivedTransactionVotesObject W)) (w : W) :
    List UInt16 :=
  ((rows.filter (·.tx_votes_weighted = w)).map (·.tx_votes_weighted_unique_idx)).mergeSort

/-- The loop over those objects: each index must be below `65535`, and the new index is one
more than the last. -/
def nextUniqueIdx : List UInt16 → UInt16 → Except Exception UInt16
  | [], tx_votes_weighted_unique_idx_new => .ok tx_votes_weighted_unique_idx_new
  | idx :: rest, _ => do
    eosAssert (idx < 65535) .tx_votes_weighted_unique_idx_value_overflow
      "tx_votes_weighted_unique_idx value overflow"
    nextUniqueIdx rest (idx + 1)

/-- `transaction_vote_stat_manager::add_transaction_vote_amount_to_target_account`, at the block
time `curren_block_time_sec`. -/
def addTransactionVoteAmountToTargetAccount [DecidableEq W] (F : TxVoteWeighting W)
    (s : TxVoteState W) (curren_block_time_sec : UInt32) (vote_target_account : Name)
    (tx_vote_amount : UInt32) : Except Exception (TxVoteState W) :=
  if tx_vote_amount == 0 || tx_vote_amount > infrablockchainMaxTransactionFeeAmountPerTransaction
  then .ok s
  else do
    let weighted_tx_vote_amount :=
      F.weighted_tx_vote_time_decayed curren_block_time_sec tx_vote_amount
    let tx_votes_ptr := s.votes.find? (byTxVotesAccount vote_target_account)
    let tx_votes_weighted_new := match tx_votes_ptr with
      | some tx_votes => F.add tx_votes.tx_votes_weighted weighted_tx_vote_amount
      | none => weighted_tx_vote_amount
    let tx_votes_weighted_unique_idx_new ←
      nextUniqueIdx (sameWeightIdxs s.votes.rows tx_votes_weighted_new) 0
    let votes ← match tx_votes_ptr with
      | some _ =>
        liftDb .unique_index_violation "could not modify object"
          (s.votes.modify (byTxVotesAccount vote_target_account) fun tx_votes_obj =>
            { tx_votes_obj with
              tx_votes := tx_votes_obj.tx_votes + tx_vote_amount.toUInt64
              tx_votes_weighted := tx_votes_weighted_new
              tx_votes_weighted_unique_idx := tx_votes_weighted_unique_idx_new })
      | none =>
        liftDb .unique_index_violation "could not insert object"
          (s.votes.create ⟨vote_target_account, tx_vote_amount.toUInt64, tx_votes_weighted_new,
            tx_votes_weighted_unique_idx_new⟩)
    pure ⟨votes, s.total_tx_votes + tx_vote_amount.toUInt64,
      F.add s.total_tx_votes_weighted weighted_tx_vote_amount⟩

/-- A vote of a transaction: the pending block time, the target and the amount. -/
structure TxVoteRequest where
  /-- `pending_block_time().sec_since_epoch()`. -/
  curren_block_time_sec : UInt32
  /-- The vote target. -/
  vote_target_account : Name
  /-- The amount. -/
  tx_vote_amount : UInt32

/-- One vote, added to the statistics. -/
def txVoteStep [DecidableEq W] (F : TxVoteWeighting W) (s : TxVoteState W) (v : TxVoteRequest) :
    Except Exception (TxVoteState W) :=
  addTransactionVoteAmountToTargetAccount F s v.curren_block_time_sec v.vote_target_account
    v.tx_vote_amount

/-- No votes yet. -/
def TxVoteState.init (F : TxVoteWeighting W) : TxVoteState W := ⟨.empty, 0, F.zero⟩

/-! ## The index of a new weighted sum -/

/-- The loop fails only with the overflow of the index. -/
theorem nextUniqueIdx_error {l : List UInt16} {n : UInt16} {e : Exception}
    (h : nextUniqueIdx l n = .error e) : e.kind = .tx_votes_weighted_unique_idx_value_overflow := by
  induction l generalizing n with
  | nil => cases h
  | cons idx rest ih =>
    simp only [nextUniqueIdx, eosAssert_bind] at h
    split at h
    · exact ih h
    · cases h
      rfl

/-- Over indices in ascending order, the loop returns an index above all of them. -/
theorem nextUniqueIdx_gt {l : List UInt16} {n m : UInt16} (h : nextUniqueIdx l n = .ok m)
    (hl : l.Pairwise (· ≤ ·)) : ∀ i ∈ l, i < m := by
  induction l generalizing n with
  | nil => simp
  | cons idx rest ih =>
    simp only [nextUniqueIdx, eosAssert_bind] at h
    split at h
    · rename_i hlt
      have hlt : idx < 65535 := by simpa using hlt
      have h65 : idx.toNat < 65535 := UInt16.lt_iff_toNat_lt.1 hlt
      obtain ⟨hidx, hrest⟩ := List.pairwise_cons.1 hl
      have hgt := ih h hrest
      intro i hi
      rcases List.mem_cons.1 hi with rfl | hi
      · -- the first index is below the last one, or is the last one
        cases rest with
        | nil =>
          simp only [nextUniqueIdx, Except.ok.injEq] at h
          subst h
          rw [UInt16.lt_iff_toNat_lt, UInt16.toNat_add, UInt16.toNat_one]
          omega
        | cons j rest' =>
          exact UInt16.lt_of_le_of_lt (hidx j List.mem_cons_self) (hgt j List.mem_cons_self)
      · exact hgt i hi
    · cases h

/-- The indices of a weighted sum come in ascending order. -/
theorem sameWeightIdxs_sorted [DecidableEq W] (rows : List (ReceivedTransactionVotesObject W))
    (w : W) : (sameWeightIdxs rows w).Pairwise (· ≤ ·) := by
  have h := @List.pairwise_mergeSort UInt16 (fun a b => decide (a ≤ b))
    (fun a b c hab hbc => by simp only [decide_eq_true_eq] at *; exact UInt16.le_trans hab hbc)
    (fun a b => by simpa using UInt16.le_total a b)
    ((rows.filter (·.tx_votes_weighted = w)).map (·.tx_votes_weighted_unique_idx))
  exact h.imp (by simp)

/-- The index of every object with weighted sum `w` is among the indices walked. -/
theorem mem_sameWeightIdxs [DecidableEq W] {rows : List (ReceivedTransactionVotesObject W)}
    {r : ReceivedTransactionVotesObject W} (hr : r ∈ rows) :
    r.tx_votes_weighted_unique_idx ∈ sameWeightIdxs rows r.tx_votes_weighted := by
  simp only [sameWeightIdxs, List.mem_mergeSort, List.mem_map, List.mem_filter, decide_eq_true_eq]
  exact ⟨r, ⟨hr, rfl⟩, rfl⟩

/-- The new pair of a weighted sum and its index is the pair of no object. -/
theorem fresh_of_nextUniqueIdx [DecidableEq W] {rows : List (ReceivedTransactionVotesObject W)}
    {w : W} {m : UInt16} (h : nextUniqueIdx (sameWeightIdxs rows w) 0 = .ok m)
    {r : ReceivedTransactionVotesObject W} (hr : r ∈ rows) :
    ¬ (r.tx_votes_weighted = w ∧ r.tx_votes_weighted_unique_idx = m) := by
  rintro ⟨rfl, hidx⟩
  have hlt := nextUniqueIdx_gt h (sameWeightIdxs_sorted rows _) _ (mem_sameWeightIdxs hr)
  rw [hidx] at hlt
  exact UInt16.lt_irrefl m hlt

/-! ## What a vote does -/

/-- The lookup by account is by a unique key. -/
theorem byTxVotesAccount_unique (account : Name) :
    UniqueKey ReceivedTransactionVotesObject.clash (byTxVotesAccount (W := W) account) := by
  intro x y hx hy
  simp only [byTxVotesAccount, beq_iff_eq] at hx hy
  exact .inl (hx.trans hy.symm)

section Add

variable [DecidableEq W]

/-- An object of the target with the new weighted sum and index clashes with no object of
another account. -/
theorem not_clash_of_fresh {rows : List (ReceivedTransactionVotesObject W)} {w : W} {m : UInt16}
    (hn : nextUniqueIdx (sameWeightIdxs rows w) 0 = .ok m) {x y : ReceivedTransactionVotesObject W}
    (hx : x ∈ rows) (hacc : x.account ≠ y.account) (hw : y.tx_votes_weighted = w)
    (hidx : y.tx_votes_weighted_unique_idx = m) :
    ¬ ReceivedTransactionVotesObject.clash x y ∧ ¬ ReceivedTransactionVotesObject.clash y x := by
  have hfresh := fresh_of_nextUniqueIdx hn hx
  rw [← hw, ← hidx] at hfresh
  constructor
  · rintro (h | h)
    · exact hacc h
    · exact hfresh h
  · rintro (h | ⟨h₁, h₂⟩)
    · exact hacc h.symm
    · exact hfresh ⟨h₁.symm, h₂.symm⟩

/-- A vote is skipped, or succeeds, or fails with the overflow of the index: creating or modifying
the target's object never violates a unique index. -/
theorem addTransactionVote_ok_or_overflow (F : TxVoteWeighting W) (s : TxVoteState W)
    (curren_block_time_sec : UInt32) (target : Name) (amount : UInt32) :
    (∃ s', addTransactionVoteAmountToTargetAccount F s curren_block_time_sec target amount =
      .ok s') ∨
    ∃ message, addTransactionVoteAmountToTargetAccount F s curren_block_time_sec target amount =
      .error ⟨.tx_votes_weighted_unique_idx_value_overflow, message⟩ := by
  unfold addTransactionVoteAmountToTargetAccount
  split
  · exact .inl ⟨s, rfl⟩
  · cases hf : s.votes.find? (byTxVotesAccount target) with
    | some o =>
      -- the target has its object: it is modified
      obtain ⟨l₁, l₂, hs⟩ := split_of_find? (byTxVotesAccount_unique target) hf
      have hacc : o.account = target := by simpa [byTxVotesAccount] using hs.sel
      have hmem : ∀ x ∈ l₁ ++ l₂, x ∈ s.votes.rows ∧ x.account ≠ target := by
        intro x hx
        rw [hs.eq]
        rcases List.mem_append.1 hx with hx | hx
        · exact ⟨by simp [hx], by simpa [byTxVotesAccount] using hs.left x hx⟩
        · exact ⟨by simp [hx], by simpa [byTxVotesAccount] using hs.right x hx⟩
      cases hn : nextUniqueIdx (sameWeightIdxs s.votes.rows
          (F.add o.tx_votes_weighted (F.weighted_tx_vote_time_decayed curren_block_time_sec amount)))
          0 with
      | error e =>
        obtain ⟨kind, message⟩ := e
        have hk : kind = _ := nextUniqueIdx_error hn
        subst hk
        exact .inr ⟨message, by simp [hn, bind, Except.bind]⟩
      | ok m =>
        obtain ⟨votes, hmod, -⟩ := modify_split (fun tx_votes_obj =>
            { tx_votes_obj with
              tx_votes := tx_votes_obj.tx_votes + amount.toUInt64
              tx_votes_weighted := F.add o.tx_votes_weighted
                (F.weighted_tx_vote_time_decayed curren_block_time_sec amount)
              tx_votes_weighted_unique_idx := m }) hs
          (fun x hx => (not_clash_of_fresh hn (hmem x (List.mem_append_left _ hx)).1
            (by rw [hacc]; exact (hmem x (List.mem_append_left _ hx)).2) rfl rfl).1)
          (fun x hx => (not_clash_of_fresh hn (hmem x (List.mem_append_right _ hx)).1
            (by rw [hacc]; exact (hmem x (List.mem_append_right _ hx)).2) rfl rfl).2)
        refine .inl ⟨⟨votes, s.total_tx_votes + amount.toUInt64, F.add s.total_tx_votes_weighted
          (F.weighted_tx_vote_time_decayed curren_block_time_sec amount)⟩, ?_⟩
        simp [hn, hmod, bind, Except.bind, liftDb, pure, Except.pure]
    | none =>
      -- the first vote for the target: its object is created
      have hnone := find?_eq_none_iff.1 hf
      cases hn : nextUniqueIdx (sameWeightIdxs s.votes.rows
          (F.weighted_tx_vote_time_decayed curren_block_time_sec amount)) 0 with
      | error e =>
        obtain ⟨kind, message⟩ := e
        have hk : kind = _ := nextUniqueIdx_error hn
        subst hk
        exact .inr ⟨message, by simp [hn, bind, Except.bind]⟩
      | ok m =>
        obtain ⟨votes, hc, -⟩ := create_of_fresh (t := s.votes)
          (x := ⟨target, amount.toUInt64,
            F.weighted_tx_vote_time_decayed curren_block_time_sec amount, m⟩)
          (fun r hr => (not_clash_of_fresh hn hr
            (by simpa [byTxVotesAccount] using hnone r hr) rfl rfl).1)
        refine .inl ⟨⟨votes, s.total_tx_votes + amount.toUInt64, F.add s.total_tx_votes_weighted
          (F.weighted_tx_vote_time_decayed curren_block_time_sec amount)⟩, ?_⟩
        simp [hn, hc, bind, Except.bind, liftDb, pure, Except.pure]

/-- A successful vote is skipped, or adds its amount to the total and to the target's object,
which it modifies at its place or creates at the end. -/
theorem addTransactionVote_ok {F : TxVoteWeighting W} {s s' : TxVoteState W}
    {curren_block_time_sec : UInt32} {target : Name} {amount : UInt32}
    (h : addTransactionVoteAmountToTargetAccount F s curren_block_time_sec target amount = .ok s') :
    s' = s ∨ (s'.total_tx_votes = s.total_tx_votes + amount.toUInt64 ∧
      ((∃ o l₁ l₂ w m, SplitAt (byTxVotesAccount target) s.votes.rows l₁ o l₂ ∧
          s'.votes.rows = l₁ ++ { o with
            tx_votes := o.tx_votes + amount.toUInt64
            tx_votes_weighted := w
            tx_votes_weighted_unique_idx := m } :: l₂) ∨
        ∃ w m, s'.votes.rows = s.votes.rows ++ [⟨target, amount.toUInt64, w, m⟩])) := by
  unfold addTransactionVoteAmountToTargetAccount at h
  split at h
  · cases h
    exact .inl rfl
  · cases hf : s.votes.find? (byTxVotesAccount target) with
    | some o =>
      obtain ⟨l₁, l₂, hs⟩ := split_of_find? (byTxVotesAccount_unique target) hf
      simp only [hf, bind_eq_ok, liftDb_eq_ok, pure, Except.pure, Except.ok.injEq] at h
      obtain ⟨m, -, votes, hmod, rfl⟩ := h
      refine .inr ⟨rfl, .inl ⟨o, l₁, l₂,
        F.add o.tx_votes_weighted (F.weighted_tx_vote_time_decayed curren_block_time_sec amount), m,
        hs, ?_⟩⟩
      rw [rows_of_modify hmod, hs.mapSelected_eq]
    | none =>
      simp only [hf, bind_eq_ok, liftDb_eq_ok, pure, Except.pure, Except.ok.injEq] at h
      obtain ⟨m, -, votes, hc, rfl⟩ := h
      exact .inr ⟨rfl, .inr ⟨F.weighted_tx_vote_time_decayed curren_block_time_sec amount, m,
        rows_of_create hc⟩⟩

end Add

/-! ## The total of the votes -/

/-- The sum of the votes of all objects. -/
def sumTxVotes (rows : List (ReceivedTransactionVotesObject W)) : Nat :=
  (rows.map (·.tx_votes.toNat)).sum

@[simp] theorem sumTxVotes_append (l₁ l₂ : List (ReceivedTransactionVotesObject W)) :
    sumTxVotes (l₁ ++ l₂) = sumTxVotes l₁ + sumTxVotes l₂ := by
  simp [sumTxVotes]

@[simp] theorem sumTxVotes_cons (o : ReceivedTransactionVotesObject W)
    (l : List (ReceivedTransactionVotesObject W)) :
    sumTxVotes (o :: l) = o.tx_votes.toNat + sumTxVotes l := by
  simp [sumTxVotes]

/-- A vote keeps the total the sum of the objects' votes, modulo `2^64`. -/
theorem total_tx_votes_step [DecidableEq W] {F : TxVoteWeighting W} {s s' : TxVoteState W}
    {curren_block_time_sec : UInt32} {target : Name} {amount : UInt32}
    (h : addTransactionVoteAmountToTargetAccount F s curren_block_time_sec target amount = .ok s')
    (hs : s.total_tx_votes.toNat = sumTxVotes s.votes.rows % 2 ^ 64) :
    s'.total_tx_votes.toNat = sumTxVotes s'.votes.rows % 2 ^ 64 := by
  rcases addTransactionVote_ok h with rfl | ⟨htotal, ⟨o, l₁, l₂, w, m, hsplit, hrows⟩ | ⟨w, m, hrows⟩⟩
  · exact hs
  · -- the target's votes and the total grow by the amount, both modulo `2^64`
    rw [hsplit.eq] at hs
    simp only [sumTxVotes_append, sumTxVotes_cons] at hs
    rw [htotal, hrows, UInt64.toNat_add, UInt32.toNat_toUInt64, hs]
    simp only [sumTxVotes_append, sumTxVotes_cons, UInt64.toNat_add, UInt32.toNat_toUInt64]
    omega
  · -- a new object holding the amount, and the total grown by it
    rw [htotal, hrows, UInt64.toNat_add, UInt32.toNat_toUInt64, hs]
    simp [sumTxVotes]

/-- Clashing is symmetric. -/
theorem ReceivedTransactionVotesObject.clash_symm (a b : ReceivedTransactionVotesObject W)
    (h : a.clash b) : b.clash a := by
  rcases h with h | ⟨h₁, h₂⟩
  · exact .inl h.symm
  · exact .inr ⟨h₁.symm, h₂.symm⟩

/-- Transaction-vote statistics over every run of votes: each target has at most one object, no
two objects share a weighted sum and an index, a further vote fails only with the overflow of the
index and never by a violated unique index, and the total of the votes is the sum of the objects'
votes modulo `2^64`. -/
theorem tx_vote_stats_invariant [DecidableEq W] (F : TxVoteWeighting W)
    (votes : List TxVoteRequest) :
    let s : TxVoteState W := Machine.run (txVoteStep F) (TxVoteState.init F) votes
    (∀ a ∈ s.votes.rows, ∀ b ∈ s.votes.rows, a.account = b.account → a = b) ∧
    (∀ a ∈ s.votes.rows, ∀ b ∈ s.votes.rows, a.tx_votes_weighted = b.tx_votes_weighted →
      a.tx_votes_weighted_unique_idx = b.tx_votes_weighted_unique_idx → a = b) ∧
    (∀ curren_block_time_sec target amount,
      (∃ s', addTransactionVoteAmountToTargetAccount F s curren_block_time_sec target amount =
        .ok s') ∨
      ∃ message, addTransactionVoteAmountToTargetAccount F s curren_block_time_sec target amount =
        .error ⟨.tx_votes_weighted_unique_idx_value_overflow, message⟩) ∧
    s.total_tx_votes.toNat = sumTxVotes s.votes.rows % 2 ^ 64 := by
  intro s
  -- the two unique indices are kept by the table itself; the total needs the run
  refine ⟨fun a ha b hb hab => eq_of_clash ReceivedTransactionVotesObject.clash_symm ha hb (.inl hab),
    fun a ha b hb hw hidx => eq_of_clash ReceivedTransactionVotesObject.clash_symm ha hb (.inr ⟨hw, hidx⟩),
    addTransactionVote_ok_or_overflow F s, ?_⟩
  refine Machine.run_invariant
    (fun s : TxVoteState W => s.total_tx_votes.toNat = sumTxVotes s.votes.rows % 2 ^ 64)
    (fun _ _ _ hs h => total_tx_votes_step h hs) votes ?_
  simp [TxVoteState.init, sumTxVotes]

end InfraBlockchain.TxVote
