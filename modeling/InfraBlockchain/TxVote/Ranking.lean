import Mathlib
import InfraBlockchain.TxVote.Stats

/-!
# The top receivers of transaction votes

`transaction_vote_stat_manager::get_top_sorted_transaction_vote_receivers` walks the
`by_tx_votes_weighted` index from `rbegin()`, from the largest pair of weighted sum and unique
index down: it skips `offset_rank` objects, then copies objects until it holds `limit` of them,
and sets `more` when the walk stopped before the end.

The index orders the pairs lexicographically, by a linear order of the weighted sums (boost's
ordered index needs a strict weak order of its keys; the table's `double`s are finite). The walk
is the reverse of the rows sorted by that key (`byTxVotesWeightedDesc`): the table's rows, in
strictly descending order of the key, since no two rows of the table share it.

The copies are exactly the page `offset_rank, …, offset_rank + limit - 1` of that order
(`top_sorted_receivers_page`). `more` says whether the walk stopped early: with `limit ≥ 1` that
is whether the table holds more than `offset_rank + limit` objects; with `limit = 0` the loop never
starts, and `more` is set whenever the table is not empty, whatever the offset
(`top_sorted_more_past_end`).
-/

namespace InfraBlockchain.TxVote

variable {W : Type}

/-- `tx_vote_stat_for_account`. -/
structure TxVoteStatForAccount (W : Type) where
  /-- The vote target. -/
  account : Name
  /-- Its weighted sum. -/
  tx_votes_weighted : W
  /-- Its plain sum. -/
  tx_votes : UInt64

/-- `tx_vote_receiver_list_result`. -/
structure TxVoteReceiverListResult (W : Type) where
  /-- The page of receivers. -/
  tx_vote_receiver_list : List (TxVoteStatForAccount W)
  /-- The total weighted sum, when asked for. -/
  total_tx_votes_weighted : W
  /-- The total plain sum, when asked for. -/
  total_tx_votes : UInt64
  /-- Whether the walk stopped before the end of the index. -/
  more : Bool

/-- The entry that `emplace_back` builds from an object. -/
def txVoteStatOf (o : ReceivedTransactionVotesObject W) : TxVoteStatForAccount W :=
  ⟨o.account, o.tx_votes_weighted, o.tx_votes⟩

/-- The key of `by_tx_votes_weighted`: the weighted sum, then the unique index. -/
def ReceivedTransactionVotesObject.weightedKey [LinearOrder W]
    (o : ReceivedTransactionVotesObject W) : Lex (W × Nat) :=
  toLex (o.tx_votes_weighted, o.tx_votes_weighted_unique_idx.toNat)

/-- The objects in the order of `by_tx_votes_weighted` from `rbegin()`: largest key first. -/
def byTxVotesWeightedDesc [LinearOrder W] (rows : List (ReceivedTransactionVotesObject W)) :
    List (ReceivedTransactionVotesObject W) :=
  (rows.mergeSort fun a b => a.weightedKey ≤ b.weightedKey).reverse

/-- The loop of `get_top_sorted_transaction_vote_receivers` over the walk that is left: while it
is not at its end and fewer than `limit` objects are copied, an object is copied once `skip_cnt`
has reached `offset_rank` and skipped otherwise. Returns the copies and the rest of the walk. -/
def topSortedLoop (offset_rank limit : UInt32) :
    List (ReceivedTransactionVotesObject W) → UInt32 → List (TxVoteStatForAccount W) →
      List (TxVoteStatForAccount W) × List (ReceivedTransactionVotesObject W)
  | [], _, tx_vote_receivers => (tx_vote_receivers, [])
  | itr :: rest, skip_cnt, tx_vote_receivers =>
    if tx_vote_receivers.length < limit.toNat then
      if skip_cnt = offset_rank then
        topSortedLoop offset_rank limit rest skip_cnt (tx_vote_receivers ++ [txVoteStatOf itr])
      else topSortedLoop offset_rank limit rest (skip_cnt + 1) tx_vote_receivers
    else (tx_vote_receivers, itr :: rest)

/-- `transaction_vote_stat_manager::get_top_sorted_transaction_vote_receivers`; the totals keep
the result's defaults, `0.0` and `0`, unless `retrieve_total_votes`. -/
def getTopSortedTransactionVoteReceivers [LinearOrder W] (F : TxVoteWeighting W)
    (s : TxVoteState W) (offset_rank limit : UInt32) (retrieve_total_votes : Bool) :
    TxVoteReceiverListResult W :=
  let walk := topSortedLoop offset_rank limit (byTxVotesWeightedDesc s.votes.rows) 0 []
  { tx_vote_receiver_list := walk.1
    total_tx_votes_weighted := if retrieve_total_votes then s.total_tx_votes_weighted else F.zero
    total_tx_votes := if retrieve_total_votes then s.total_tx_votes else 0
    more := !walk.2.isEmpty }

/-! ## The order of the walk -/

section Order

variable [LinearOrder W]

/-- The index by weighted votes holds the rows. -/
theorem perm_byTxVotesWeightedDesc (rows : List (ReceivedTransactionVotesObject W)) :
    (byTxVotesWeightedDesc rows).Perm rows :=
  (List.reverse_perm _).trans (List.mergeSort_perm rows _)

/-- Objects that do not clash in the index have different keys. -/
theorem weightedKey_ne_of_not_clash {a b : ReceivedTransactionVotesObject W}
    (h : ¬ a.clash b) : a.weightedKey ≠ b.weightedKey := by
  intro hkey
  have hpair := (toLex_inj.1 hkey : (a.tx_votes_weighted, a.tx_votes_weighted_unique_idx.toNat) =
    (b.tx_votes_weighted, b.tx_votes_weighted_unique_idx.toNat))
  simp only [Prod.mk.injEq] at hpair
  exact h (Or.inr ⟨hpair.1, UInt16.toNat_inj.1 hpair.2⟩)

/-- The walk goes down the keys strictly, for the rows of a table. -/
theorem byTxVotesWeightedDesc_strict
    (t : IndexedTable (ReceivedTransactionVotesObject W) ReceivedTransactionVotesObject.clash) :
    (byTxVotesWeightedDesc t.rows).Pairwise fun a b => b.weightedKey < a.weightedKey := by
  have hle : (t.rows.mergeSort fun a b => a.weightedKey ≤ b.weightedKey).Pairwise
      fun a b => decide (a.weightedKey ≤ b.weightedKey) = true :=
    List.pairwise_mergeSort (fun a b c hab hbc => by simp only [decide_eq_true_eq] at *; exact hab.trans hbc)
      (fun a b => by simpa using le_total a.weightedKey b.weightedKey) t.rows
  have hne : (t.rows.mergeSort fun a b => a.weightedKey ≤ b.weightedKey).Pairwise
      fun a b => a.weightedKey ≠ b.weightedKey :=
    (List.mergeSort_perm t.rows _).symm.pairwise
      (t.no_clash.imp weightedKey_ne_of_not_clash) fun h => Ne.symm h
  rw [byTxVotesWeightedDesc, List.pairwise_reverse]
  exact (hle.and hne).imp fun h => lt_of_le_of_ne (by simpa using h.1) h.2

end Order

/-! ## The loop -/

/-- What the loop copies and where it stops, from a count `skip_cnt` not past `offset_rank` and
`out` copies so far, none before the count has reached the offset. By induction on the walk: each
object is skipped while the count is below the offset and copied after, until `limit` copies. -/
theorem topSortedLoop_eq (offset_rank limit : UInt32) :
    ∀ (rows : List (ReceivedTransactionVotesObject W)) (skip_cnt : UInt32)
      (out : List (TxVoteStatForAccount W)),
      skip_cnt.toNat ≤ offset_rank.toNat → (skip_cnt ≠ offset_rank → out = []) →
      out.length ≤ limit.toNat →
      topSortedLoop offset_rank limit rows skip_cnt out =
        (out ++ ((rows.drop (offset_rank.toNat - skip_cnt.toNat)).take
            (limit.toNat - out.length)).map txVoteStatOf,
          if out.length < limit.toNat then
            rows.drop (offset_rank.toNat - skip_cnt.toNat + (limit.toNat - out.length))
          else rows)
  | [], skip_cnt, out, _, _, _ => by simp [topSortedLoop]
  | itr :: rest, skip_cnt, out, hskip, hout, hlen => by
    rw [topSortedLoop]
    by_cases hroom : out.length < limit.toNat
    · rw [if_pos hroom]
      by_cases hcnt : skip_cnt = offset_rank
      · -- copy: the count has reached the offset
        have hcnt' : offset_rank.toNat - skip_cnt.toNat = 0 := by rw [hcnt]; omega
        rw [if_pos hcnt, topSortedLoop_eq offset_rank limit rest skip_cnt _ hskip
          (fun h => absurd hcnt h) (by simp; omega), hcnt', if_pos hroom]
        obtain ⟨k, hk⟩ : ∃ k, limit.toNat - out.length = k + 1 := ⟨_, (Nat.succ_pred_eq_of_pos
          (by omega)).symm⟩
        have hk' : limit.toNat - (out ++ [txVoteStatOf itr]).length = k := by simp; omega
        rw [hk', hk]
        by_cases hmore : out.length + 1 < limit.toNat
        · simp [hmore]
        · have hk0 : k = 0 := by omega
          simp [hmore, hk0]
      · -- skip: the count is below the offset, and nothing is copied yet
        have hlt : skip_cnt.toNat < offset_rank.toNat :=
          lt_of_le_of_ne hskip fun h => hcnt (UInt32.toNat_inj.1 h)
        have hsucc : (skip_cnt + 1).toNat = skip_cnt.toNat + 1 := by
          rw [UInt32.toNat_add, UInt32.toNat_one]
          have := offset_rank.toNat_lt
          omega
        rw [if_neg hcnt, topSortedLoop_eq offset_rank limit rest (skip_cnt + 1) out
          (by omega) (fun _ => hout hcnt) hlen, hsucc, if_pos hroom, if_pos hroom]
        have hdrop : offset_rank.toNat - skip_cnt.toNat = offset_rank.toNat - (skip_cnt.toNat + 1) + 1 := by
          omega
        rw [hdrop, List.drop_succ_cons, Nat.add_right_comm, List.drop_succ_cons]
    · -- the page is full: the walk stops here
      have hfull : limit.toNat - out.length = 0 := by omega
      rw [if_neg hroom, if_neg hroom, hfull]
      simp

/-- The page that `get_top_sorted_transaction_vote_receivers` returns and when it reports `more`:
the objects at places `offset_rank` to `offset_rank + limit - 1` of the index from its largest
key down, which is the table's rows in strictly descending order of (weighted sum, unique index);
`more` is set when the table holds more than `offset_rank + limit` objects, and, for `limit = 0`,
whenever it holds any. -/
theorem top_sorted_receivers_page [LinearOrder W] (F : TxVoteWeighting W) (s : TxVoteState W)
    (offset_rank limit : UInt32) (retrieve_total_votes : Bool) :
    (byTxVotesWeightedDesc s.votes.rows).Perm s.votes.rows ∧
    (byTxVotesWeightedDesc s.votes.rows).Pairwise (fun a b => b.weightedKey < a.weightedKey) ∧
    (getTopSortedTransactionVoteReceivers F s offset_rank limit retrieve_total_votes).tx_vote_receiver_list =
      (((byTxVotesWeightedDesc s.votes.rows).drop offset_rank.toNat).take limit.toNat).map
        txVoteStatOf ∧
    ((getTopSortedTransactionVoteReceivers F s offset_rank limit retrieve_total_votes).more = true ↔
      if limit.toNat = 0 then s.votes.rows ≠ []
      else offset_rank.toNat + limit.toNat < s.votes.rows.length) := by
  have hloop := topSortedLoop_eq offset_rank limit (byTxVotesWeightedDesc s.votes.rows) 0 []
    (by simp) (fun _ => rfl) (by simp)
  have hlen := (perm_byTxVotesWeightedDesc s.votes.rows).length_eq
  refine ⟨perm_byTxVotesWeightedDesc _, byTxVotesWeightedDesc_strict s.votes, ?_, ?_⟩
  · simp [getTopSortedTransactionVoteReceivers, hloop]
  · simp only [getTopSortedTransactionVoteReceivers, hloop, List.length_nil, UInt32.toNat_zero,
      Nat.sub_zero, Bool.not_eq_true', List.isEmpty_eq_false_iff]
    by_cases hlimit : limit.toNat = 0
    · -- the loop never starts: the walk is left whole
      rw [if_neg (by omega), if_pos hlimit, ne_eq, ne_eq, ← List.length_eq_zero_iff,
        ← List.length_eq_zero_iff, hlen]
    · rw [if_pos (by omega), if_neg hlimit, ne_eq, List.drop_eq_nil_iff, not_le, hlen]

/-- With `limit = 0` the loop never starts, and `more` is set for a table of one object even at
offset one, past its end, although the table does not hold more than `offset_rank + limit`
objects. -/
theorem top_sorted_more_past_end :
    let s : TxVoteState Nat := ⟨⟨[⟨⟨1⟩, 1, 1, 0⟩], List.pairwise_singleton _ _⟩, 1, 1⟩
    (getTopSortedTransactionVoteReceivers ⟨fun _ _ => 0, (· + ·), 0⟩ s 1 0 false).more = true ∧
      s.votes.rows.length ≤ 1 + 0 := by
  decide +kernel

end InfraBlockchain.TxVote
