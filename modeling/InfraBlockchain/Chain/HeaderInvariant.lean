import Mathlib
import InfraBlockchain.Chain.BlockHeaderState

/-!
# What every chain of block header states keeps

From a genesis state whose schedule has producers, each block header state that `next` and
`_finish_next` build keeps (`HeaderInvariant`): an active schedule with producers, at most
`maximum_tracked_dpos_confirmations` confirmation entries, none of them zero, as many blocks after
the proposed last irreversible block as entries, the last irreversible block at most the proposed
one and before the block itself, and no producer's implied block past the proposed one. From the
first block on, the producers of `producer_to_last_implied_irb` are those of the active schedule
(`ImpliedKeysActive`); at genesis the map is still empty. The block number is a `uint32_t`, so
these hold while it does not wrap.

The proposed block never goes back. The last irreversible block does not go back either across a
block that did not promote a schedule: the next producer's implied block is raised to the
proposed one, and raising an entry raises the entry of rank a third. After a promotion it can go
back, when the new schedule keeps a producer whose implied block lags behind.
-/

namespace InfraBlockchain.Chain

open FlatMap BlockHeaderState

/-- The invariant of the common part of a block header state. -/
structure HeaderInvariant (c : BlockHeaderStateCommon) : Prop where
  /-- The active schedule has a producer. -/
  active_nonempty : c.active_schedule.producers ≠ []
  /-- At most `maximum_tracked_dpos_confirmations` blocks wait for confirmations. -/
  length_confirm_count : c.confirm_count.length ≤ maximumTrackedDposConfirmations
  /-- Each block waiting still needs a confirmation. -/
  confirm_count_ne_zero : ∀ x ∈ c.confirm_count, x ≠ 0
  /-- The blocks waiting come after the proposed irreversible block. -/
  proposed_add_length :
    c.dpos_proposed_irreversible_blocknum.toNat + c.confirm_count.length ≤ c.block_num.toNat
  /-- The irreversible block is at most the proposed one. -/
  irreversible_le_proposed :
    c.dpos_irreversible_blocknum.toNat ≤ c.dpos_proposed_irreversible_blocknum.toNat
  /-- The irreversible block is below the block. -/
  irreversible_lt_block_num : c.dpos_irreversible_blocknum.toNat < c.block_num.toNat
  /-- No producer implies a block beyond the proposed one. -/
  implied_le_proposed : ∀ e ∈ c.producer_to_last_implied_irb,
    e.2.toNat ≤ c.dpos_proposed_irreversible_blocknum.toNat
  /-- Each producer has one implied irreversible block. -/
  nodup_implied : (c.producer_to_last_implied_irb.map Prod.fst).Nodup

/-- The producers of `producer_to_last_implied_irb` are those of the active schedule. -/
def ImpliedKeysActive (c : BlockHeaderStateCommon) : Prop :=
  ∀ n, n ∈ c.producer_to_last_implied_irb.map Prod.fst ↔ n ∈ c.active_schedule.producers

/-- The entry of rank a third of a state's own implied blocks: the last irreversible block that
the state computes when the next producer's implied block is already the proposed one. -/
def impliedRank (c : BlockHeaderStateCommon) : Nat :=
  let blocknums := c.producer_to_last_implied_irb.map fun i => i.2.toNat
  if blocknums.length = 0 then 0
  else OrderStat.kthSmallest blocknums ((blocknums.length - 1) / 3) 0

/-! ## One step -/

section Step

variable {s : BlockHeaderState} (w : UInt32) (conf : UInt16)

/-- A step promotes exactly when a schedule is pending and the new last irreversible block has
reached the block where it became pending. -/
theorem buildPending_promoted_iff (p : Name) :
    (!s.pending_schedule.schedule.producers.isEmpty &&
        decide (s.calcDposLastIrreversible p ≥ s.pending_schedule.schedule_lib_num)) = true ↔
      s.pending_schedule.schedule.producers ≠ [] ∧
        s.pending_schedule.schedule_lib_num ≤ s.calcDposLastIrreversible p := by
  simp

/-- One step keeps the invariant, while the block number does not wrap. -/
theorem HeaderInvariant.buildPending (hinv : HeaderInvariant s.toBlockHeaderStateCommon)
    (hbn : s.block_num.toNat + 1 < 2 ^ 32) :
    HeaderInvariant (s.buildPending w conf (s.getScheduledProducer w)).toBlockHeaderStateCommon := by
  obtain ⟨hlen, hne, hprop_le, hprop_add⟩ := confirmLoop_pushConfirmCount
    hinv.length_confirm_count hinv.confirm_count_ne_zero hinv.proposed_add_length hbn
    ((s.active_schedule.producers.length * 2 / 3).toUInt32 + 1).toUInt8 conf.toNat
  -- the new last irreversible block is at most the proposed block before the step
  have hirr := calcDposLastIrreversible_le hinv.implied_le_proposed (s.getScheduledProducer w)
  have hbn' : (s.block_num + 1).toNat = s.block_num.toNat + 1 := toNat_add_one_of_lt hbn
  have hprop_bn := hinv.proposed_add_length
  refine ⟨?_, hlen, hne, ?_, ?_, ?_, ?_, ?_⟩ <;> dsimp only [BlockHeaderState.buildPending]
  · -- a promoted schedule has producers
    split
    · next hpromoted => exact ((buildPending_promoted_iff _).1 hpromoted).1
    · exact hinv.active_nonempty
  · rw [hbn']
    exact hprop_add
  · omega
  · rw [hbn']
    omega
  · -- every implied block is at most the proposed block before the step, and so after it
    split
    · exact forall_rebuildMap (P := fun v => v.toNat ≤ _) _ _ (by omega)
        (fun e he => (hinv.implied_le_proposed e he).trans hprop_le) (by omega)
    · exact forall_assign (P := fun v => v.toNat ≤ _)
        (fun e he => (hinv.implied_le_proposed e he).trans hprop_le) _ hprop_le
  · split
    · exact nodup_keys_rebuildMap _ _ _ _ _
    · exact nodup_keys_assign hinv.nodup_implied _ _

/-- One step keeps the producers of `producer_to_last_implied_irb` those of the active schedule:
a promotion rebuilds the map over the new schedule, and otherwise the producer, who is in the
schedule, gets its entry. -/
theorem ImpliedKeysActive.buildPending (hinv : HeaderInvariant s.toBlockHeaderStateCommon)
    (hkeys : ImpliedKeysActive s.toBlockHeaderStateCommon) :
    ImpliedKeysActive
      (s.buildPending w conf (s.getScheduledProducer w)).toBlockHeaderStateCommon := by
  intro n
  dsimp only [BlockHeaderState.buildPending]
  split
  · exact mem_keys_rebuildMap _ _ _ _ _ n
  · rw [mem_keys_assign, hkeys n]
    constructor
    · rintro (rfl | hn)
      · exact getScheduledProducer_mem hinv.active_nonempty w
      · exact hn
    · exact .inr

/-- A step that does not promote gives the producer its entry, in place, as the proposed block:
the last irreversible block it computed is the entry of rank a third of the new entries. -/
theorem impliedRank_buildPending (hinv : HeaderInvariant s.toBlockHeaderStateCommon)
    (hkeys : ImpliedKeysActive s.toBlockHeaderStateCommon)
    (hstay : ¬ (s.pending_schedule.schedule.producers ≠ [] ∧
      s.pending_schedule.schedule_lib_num ≤ s.calcDposLastIrreversible (s.getScheduledProducer w))) :
    impliedRank (s.buildPending w conf (s.getScheduledProducer w)).toBlockHeaderStateCommon =
      (s.calcDposLastIrreversible (s.getScheduledProducer w)).toNat := by
  have hmem : s.getScheduledProducer w ∈ s.producer_to_last_implied_irb.map Prod.fst :=
    (hkeys _).2 (getScheduledProducer_mem hinv.active_nonempty w)
  -- the new entries read in order are `blocknums`
  have hentries : ((assign s.producer_to_last_implied_irb (s.getScheduledProducer w)
      s.dpos_proposed_irreversible_blocknum).map fun i => i.2.toNat) =
      s.impliedBlocknums (s.getScheduledProducer w) := by
    calc ((assign s.producer_to_last_implied_irb (s.getScheduledProducer w)
          s.dpos_proposed_irreversible_blocknum).map fun i => i.2.toNat)
        = ((assign s.producer_to_last_implied_irb (s.getScheduledProducer w)
            s.dpos_proposed_irreversible_blocknum).map Prod.snd).map UInt32.toNat := by
          rw [List.map_map]
          rfl
      _ = (s.producer_to_last_implied_irb.map fun e =>
            if e.1 = s.getScheduledProducer w then s.dpos_proposed_irreversible_blocknum
            else e.2).map UInt32.toNat := by
          rw [map_snd_assign hinv.nodup_implied hmem]
      _ = s.impliedBlocknums (s.getScheduledProducer w) := by
          rw [List.map_map]
          unfold impliedBlocknums
          congr 1
          funext e
          simp only [Function.comp_apply]
          split <;> rfl
  rw [toNat_calcDposLastIrreversible]
  dsimp only [impliedRank, BlockHeaderState.buildPending]
  rw [if_neg (fun h => hstay ((buildPending_promoted_iff _).1 h)), hentries]

end Step

/-- The entry of rank a third of a state's implied blocks is at most the last irreversible block
that it computes for any producer: that producer's entry is raised to the proposed block, which no
entry passes. -/
theorem impliedRank_le_calcDposLastIrreversible {s : BlockHeaderState}
    (hinv : HeaderInvariant s.toBlockHeaderStateCommon) (p : Name) :
    impliedRank s.toBlockHeaderStateCommon ≤ (s.calcDposLastIrreversible p).toNat := by
  have hraise : List.Forall₂ (· ≤ ·) (s.producer_to_last_implied_irb.map fun i => i.2.toNat)
      (s.impliedBlocknums p) := by
    unfold impliedBlocknums
    rw [List.forall₂_map_left_iff, List.forall₂_map_right_iff, List.forall₂_same]
    intro e he
    split
    · exact hinv.implied_le_proposed e he
    · exact le_rfl
  have hlen : (s.impliedBlocknums p).length =
      (s.producer_to_last_implied_irb.map fun i => i.2.toNat).length := hraise.length_eq.symm
  rw [toNat_calcDposLastIrreversible]
  dsimp only [impliedRank]
  rw [hlen]
  split
  · exact le_rfl
  · exact OrderStat.kthSmallest_mono hraise _ 0

/-! ## Genesis and its first block -/

section Genesis

variable {initial_schedule : ProducerAuthoritySchedule} (initial_timestamp : UInt32)

/-- The genesis state of a nonempty schedule is in the invariant. -/
theorem HeaderInvariant.genesis (hne : initial_schedule.producers ≠ []) :
    HeaderInvariant (genesis initial_schedule initial_timestamp).toBlockHeaderStateCommon where
  active_nonempty := hne
  length_confirm_count := Nat.zero_le _
  confirm_count_ne_zero := fun _ hx => absurd hx List.not_mem_nil
  proposed_add_length := by simp [BlockHeaderState.genesis]
  irreversible_le_proposed := le_rfl
  irreversible_lt_block_num := by simp [BlockHeaderState.genesis]
  implied_le_proposed := fun _ he => absurd he List.not_mem_nil
  nodup_implied := List.nodup_nil

/-- The first block promotes the initial schedule, which is pending at block `0`, and so gives
every producer of it an implied block. -/
theorem ImpliedKeysActive.genesis_buildPending (hne : initial_schedule.producers ≠ [])
    (w : UInt32) (conf : UInt16) (p : Name) :
    ImpliedKeysActive
      ((genesis initial_schedule initial_timestamp).buildPending w conf p).toBlockHeaderStateCommon := by
  intro n
  dsimp only [BlockHeaderState.buildPending]
  split
  · exact mem_keys_rebuildMap _ _ _ _ _ n
  · next hstay => exact absurd ((buildPending_promoted_iff _).2 ⟨hne, UInt32.zero_le⟩) hstay

end Genesis

/-! ## Runs -/

/-- A step from a signed header keeps the invariant and the producers of the implied map, and
advances the block number by one, while it does not wrap. -/
theorem HeaderInvariant.nextOfHeader {s s' : BlockHeaderState} {h : SignedBlockHeader}
    (hinv : HeaderInvariant s.toBlockHeaderStateCommon) (hbn : s.block_num.toNat + 1 < 2 ^ 32)
    (hnext : s.nextOfHeader h = .ok s') :
    HeaderInvariant s'.toBlockHeaderStateCommon ∧ s'.block_num.toNat = s.block_num.toNat + 1 ∧
      (ImpliedKeysActive s.toBlockHeaderStateCommon →
        ImpliedKeysActive s'.toBlockHeaderStateCommon) := by
  obtain ⟨w, hcommon⟩ := nextOfHeader_common hnext
  have hbn' : s'.block_num.toNat = s.block_num.toNat + 1 := by
    have hnum : s'.block_num = s.block_num + 1 := congrArg BlockHeaderStateCommon.block_num hcommon
    rw [hnum, toNat_add_one_of_lt hbn]
  refine ⟨?_, hbn', ?_⟩ <;> rw [hcommon]
  · exact hinv.buildPending w h.confirmed hbn
  · exact ImpliedKeysActive.buildPending w h.confirmed hinv

/-- Along a run of signed headers, the invariant and the producers of the implied map are kept
and the block number grows by the number of headers, while it does not wrap. By induction on the
headers. -/
theorem HeaderInvariant.run : ∀ (hs : List SignedBlockHeader) {s s' : BlockHeaderState},
    HeaderInvariant s.toBlockHeaderStateCommon → s.block_num.toNat + hs.length < 2 ^ 32 →
    hs.foldlM BlockHeaderState.nextOfHeader s = .ok s' →
    HeaderInvariant s'.toBlockHeaderStateCommon ∧ s'.block_num.toNat = s.block_num.toNat + hs.length ∧
      (ImpliedKeysActive s.toBlockHeaderStateCommon →
        ImpliedKeysActive s'.toBlockHeaderStateCommon)
  | [], _, _, hinv, _, hrun => by
    cases hrun
    exact ⟨hinv, rfl, id⟩
  | h :: hs, s, s', hinv, hbn, hrun => by
    rw [List.foldlM_cons] at hrun
    obtain ⟨s₁, hstep, hrest⟩ := bind_eq_ok.1 hrun
    rw [List.length_cons] at hbn
    obtain ⟨hinv₁, hbn₁, hkeys₁⟩ := hinv.nextOfHeader (by omega) hstep
    obtain ⟨hinv', hbn', hkeys'⟩ := HeaderInvariant.run hs hinv₁ (by omega) hrest
    refine ⟨hinv', ?_, fun hk => hkeys' (hkeys₁ hk)⟩
    rw [List.length_cons]
    omega

/-- Every state of a run from genesis keeps the invariant, is at the block after as many headers,
and from the first block on has the producers of the active schedule as the implied map's. -/
theorem HeaderInvariant.of_genesis {initial_schedule : ProducerAuthoritySchedule}
    {initial_timestamp : UInt32} (hne : initial_schedule.producers ≠ []) :
    ∀ {hs : List SignedBlockHeader} {s : BlockHeaderState}, hs.length + 1 < 2 ^ 32 →
      hs.foldlM BlockHeaderState.nextOfHeader
        (BlockHeaderState.genesis initial_schedule initial_timestamp) = .ok s →
      HeaderInvariant s.toBlockHeaderStateCommon ∧ s.block_num.toNat = hs.length + 1 ∧
        (hs ≠ [] → ImpliedKeysActive s.toBlockHeaderStateCommon)
  | [], _, _, hrun => by
    cases hrun
    exact ⟨HeaderInvariant.genesis initial_timestamp hne, rfl, fun h => absurd rfl h⟩
  | h :: hs, s, hlen, hrun => by
    rw [List.foldlM_cons] at hrun
    obtain ⟨s₁, hstep, hrest⟩ := bind_eq_ok.1 hrun
    have hinv₀ := HeaderInvariant.genesis initial_timestamp hne
    have hbn₀ : (BlockHeaderState.genesis initial_schedule initial_timestamp).block_num.toNat = 1 :=
      rfl
    -- the first block promotes the initial schedule
    obtain ⟨w, hcommon⟩ := nextOfHeader_common hstep
    have hkeys₁ : ImpliedKeysActive s₁.toBlockHeaderStateCommon := by
      rw [hcommon]
      exact ImpliedKeysActive.genesis_buildPending initial_timestamp hne w h.confirmed _
    obtain ⟨hinv₁, hbn₁, -⟩ := hinv₀.nextOfHeader (by omega) hstep
    rw [List.length_cons] at hlen
    obtain ⟨hinv, hbn, hkeys⟩ := HeaderInvariant.run hs hinv₁ (by omega) hrest
    refine ⟨hinv, ?_, fun _ => hkeys hkeys₁⟩
    rw [List.length_cons]
    omega

/-- A confirmation entry that is not zero is at least one. -/
theorem one_le_of_ne_zero {x : UInt8} (h : x ≠ 0) : 1 ≤ x := by
  rw [UInt8.le_iff_toNat_le]
  have hx : x.toNat ≠ 0 := fun h' => h (UInt8.toNat_inj.1 h')
  simp only [UInt8.toNat_one]
  omega

/-- Every block header state of a chain from genesis has an active schedule with producers, so
that every slot has one of them as its producer; at most `maximum_tracked_dpos_confirmations`
confirmation entries, each at least one; the last irreversible block at most the proposed one, the
proposed one at most the block itself and the last irreversible one before it; and, from the
first block on, the producers of the active schedule as the keys of
`producer_to_last_implied_irb`. The block number is a `uint32_t`: the chain stops before it wraps. -/
theorem block_header_state_invariant {initial_schedule : ProducerAuthoritySchedule}
    {initial_timestamp : UInt32} (hne : initial_schedule.producers ≠ [])
    {hs : List SignedBlockHeader} {s : BlockHeaderState} (hlen : hs.length + 1 < 2 ^ 32)
    (hrun : hs.foldlM BlockHeaderState.nextOfHeader
      (BlockHeaderState.genesis initial_schedule initial_timestamp) = .ok s) :
    s.active_schedule.producers ≠ [] ∧
      (∀ t, s.getScheduledProducer t ∈ s.active_schedule.producers) ∧
      s.confirm_count.length ≤ maximumTrackedDposConfirmations ∧ (∀ x ∈ s.confirm_count, 1 ≤ x) ∧
      s.dpos_irreversible_blocknum ≤ s.dpos_proposed_irreversible_blocknum ∧
      s.dpos_proposed_irreversible_blocknum ≤ s.block_num ∧
      s.dpos_irreversible_blocknum < s.block_num ∧
      (hs ≠ [] → ∀ n, n ∈ s.producer_to_last_implied_irb.map Prod.fst ↔
        n ∈ s.active_schedule.producers) := by
  obtain ⟨hinv, -, hkeys⟩ := HeaderInvariant.of_genesis hne hlen hrun
  refine ⟨hinv.active_nonempty, getScheduledProducer_mem hinv.active_nonempty,
    hinv.length_confirm_count, fun x hx => one_le_of_ne_zero (hinv.confirm_count_ne_zero x hx),
    ?_, ?_, ?_, hkeys⟩
  · exact UInt32.le_iff_toNat_le.2 hinv.irreversible_le_proposed
  · -- the proposed block is as many blocks before this one as there are entries
    have hprop := hinv.proposed_add_length
    rw [UInt32.le_iff_toNat_le]
    omega
  · exact UInt32.lt_iff_toNat_lt.2 hinv.irreversible_lt_block_num

/-- A chain of one block from a schedule of one producer. -/
theorem block_header_state_invariant_first_block :
    ∃ s, [(⟨1, ⟨1⟩, 0, 0, none⟩ : SignedBlockHeader)].foldlM BlockHeaderState.nextOfHeader
        (BlockHeaderState.genesis ⟨0, [⟨1⟩]⟩ 0) = .ok s ∧
      (s.active_schedule.producers ≠ [] ∧
        (∀ t, s.getScheduledProducer t ∈ s.active_schedule.producers) ∧
        s.confirm_count.length ≤ maximumTrackedDposConfirmations ∧ (∀ x ∈ s.confirm_count, 1 ≤ x) ∧
        s.dpos_irreversible_blocknum ≤ s.dpos_proposed_irreversible_blocknum ∧
        s.dpos_proposed_irreversible_blocknum ≤ s.block_num ∧
        s.dpos_irreversible_blocknum < s.block_num ∧
        ([(⟨1, ⟨1⟩, 0, 0, none⟩ : SignedBlockHeader)] ≠ [] →
          ∀ n, n ∈ s.producer_to_last_implied_irb.map Prod.fst ↔ n ∈ s.active_schedule.producers)) := by
  obtain ⟨s, hrun⟩ : ∃ s, [(⟨1, ⟨1⟩, 0, 0, none⟩ : SignedBlockHeader)].foldlM
      BlockHeaderState.nextOfHeader (BlockHeaderState.genesis ⟨0, [⟨1⟩]⟩ 0) = .ok s := ⟨_, rfl⟩
  exact ⟨s, hrun, block_header_state_invariant (List.cons_ne_nil _ _) (by decide) hrun⟩

/-- At genesis the implied map is still empty while the schedule has a producer. -/
theorem genesis_implied_keys_empty :
    (BlockHeaderState.genesis ⟨0, [⟨1⟩]⟩ 0).active_schedule.producers ≠ [] ∧
      ¬ ∀ n, n ∈ (BlockHeaderState.genesis ⟨0, [⟨1⟩]⟩ 0).producer_to_last_implied_irb.map Prod.fst ↔
        n ∈ (BlockHeaderState.genesis ⟨0, [⟨1⟩]⟩ 0).active_schedule.producers := by
  refine ⟨List.cons_ne_nil _ _, fun h => ?_⟩
  have hmem := (h ⟨1⟩).2 List.mem_cons_self
  exact List.not_mem_nil hmem

end InfraBlockchain.Chain
