import Mathlib
import InfraBlockchain.Chain.HeaderInvariant

/-!
# The irreversible blocks along a chain

The proposed last irreversible block of `next` is where the confirmation loop stops, and the loop
only ever moves it forward (`confirmLoop_pushConfirmCount`): along every chain from genesis it
never goes back.

The last irreversible block is the entry of rank a third of the producers' implied blocks, the next
producer's taken as the proposed block. A step that does not promote a schedule gives its producer
that entry in the map, in place, so the state it builds has its own last irreversible block as the
entry of rank a third of its map (`impliedRank_nextOfHeader`). The next step raises one entry to
the proposed block, which no entry passes, and a raised list has raised order statistics
(`OrderStat.kthSmallest_mono`): the last irreversible block does not go back.

A promotion rebuilds the map over the new schedule: a producer that was already in the old one
keeps its implied block, however far behind it lags, and the next step can then compute an earlier
last irreversible block (`irreversible_back_after_promotion`).
-/

namespace InfraBlockchain.Chain

open BlockHeaderState

/-! ## The proposed block -/

/-- `next` never moves the proposed block back. -/
theorem proposed_le_buildPending {s : BlockHeaderState} (w : UInt32) (conf : UInt16)
    (hinv : HeaderInvariant s.toBlockHeaderStateCommon) (hbn : s.block_num.toNat + 1 < 2 ^ 32)
    (p : Name) :
    s.dpos_proposed_irreversible_blocknum.toNat ≤
      (s.buildPending w conf p).dpos_proposed_irreversible_blocknum.toNat :=
  (confirmLoop_pushConfirmCount hinv.length_confirm_count hinv.confirm_count_ne_zero
    hinv.proposed_add_length hbn _ conf.toNat).2.2.1

/-- A step from a signed header never moves the proposed block back. -/
theorem HeaderInvariant.proposed_le_nextOfHeader {s s' : BlockHeaderState} {h : SignedBlockHeader}
    (hinv : HeaderInvariant s.toBlockHeaderStateCommon) (hbn : s.block_num.toNat + 1 < 2 ^ 32)
    (hnext : s.nextOfHeader h = .ok s') :
    s.dpos_proposed_irreversible_blocknum.toNat ≤ s'.dpos_proposed_irreversible_blocknum.toNat := by
  obtain ⟨w, hcommon⟩ := nextOfHeader_common hnext
  have hprop : s'.dpos_proposed_irreversible_blocknum =
      (s.buildPending w h.confirmed (s.getScheduledProducer w)).dpos_proposed_irreversible_blocknum :=
    congrArg BlockHeaderStateCommon.dpos_proposed_irreversible_blocknum hcommon
  rw [hprop]
  exact proposed_le_buildPending w h.confirmed hinv hbn _

/-! ## The last irreversible block -/

/-- A step that did not promote a schedule builds a state whose last irreversible block is the
entry of rank a third of its own implied blocks. Not promoting means that no schedule was pending,
or that the new last irreversible block is before the block where it became pending. -/
theorem impliedRank_nextOfHeader {s₀ s₁ : BlockHeaderState} {h₁ : SignedBlockHeader}
    (hinv : HeaderInvariant s₀.toBlockHeaderStateCommon)
    (hkeys : ImpliedKeysActive s₀.toBlockHeaderStateCommon) (hstep : s₀.nextOfHeader h₁ = .ok s₁)
    (hstay : s₀.pending_schedule.schedule.producers = [] ∨
      s₁.dpos_irreversible_blocknum < s₀.pending_schedule.schedule_lib_num) :
    impliedRank s₁.toBlockHeaderStateCommon = s₁.dpos_irreversible_blocknum.toNat := by
  obtain ⟨w, hcommon⟩ := nextOfHeader_common hstep
  have hirr : s₁.dpos_irreversible_blocknum =
      s₀.calcDposLastIrreversible (s₀.getScheduledProducer w) :=
    congrArg BlockHeaderStateCommon.dpos_irreversible_blocknum hcommon
  have hnot : ¬ (s₀.pending_schedule.schedule.producers ≠ [] ∧
      s₀.pending_schedule.schedule_lib_num ≤
        s₀.calcDposLastIrreversible (s₀.getScheduledProducer w)) := by
    rintro ⟨hpending, hreached⟩
    rcases hstay with hempty | hbefore
    · exact hpending hempty
    · rw [hirr, UInt32.lt_iff_toNat_lt] at hbefore
      rw [UInt32.le_iff_toNat_le] at hreached
      omega
  rw [hirr, hcommon]
  exact impliedRank_buildPending w h₁.confirmed hinv hkeys hnot

/-- After a step that did not promote a schedule, the next step does not move the last
irreversible block back. -/
theorem irreversible_le_of_not_promoted {s₀ s₁ s₂ : BlockHeaderState} {h₁ h₂ : SignedBlockHeader}
    (hinv : HeaderInvariant s₀.toBlockHeaderStateCommon)
    (hkeys : ImpliedKeysActive s₀.toBlockHeaderStateCommon)
    (hbn : s₀.block_num.toNat + 1 < 2 ^ 32) (hstep₁ : s₀.nextOfHeader h₁ = .ok s₁)
    (hstep₂ : s₁.nextOfHeader h₂ = .ok s₂)
    (hstay : s₀.pending_schedule.schedule.producers = [] ∨
      s₁.dpos_irreversible_blocknum < s₀.pending_schedule.schedule_lib_num) :
    s₁.dpos_irreversible_blocknum.toNat ≤ s₂.dpos_irreversible_blocknum.toNat := by
  obtain ⟨hinv₁, -, -⟩ := hinv.nextOfHeader hbn hstep₁
  obtain ⟨w, hcommon⟩ := nextOfHeader_common hstep₂
  have hirr₂ : s₂.dpos_irreversible_blocknum =
      s₁.calcDposLastIrreversible (s₁.getScheduledProducer w) :=
    congrArg BlockHeaderStateCommon.dpos_irreversible_blocknum hcommon
  calc s₁.dpos_irreversible_blocknum.toNat
      = impliedRank s₁.toBlockHeaderStateCommon :=
        (impliedRank_nextOfHeader hinv hkeys hstep₁ hstay).symm
    _ ≤ (s₁.calcDposLastIrreversible (s₁.getScheduledProducer w)).toNat :=
        impliedRank_le_calcDposLastIrreversible hinv₁ _
    _ = s₂.dpos_irreversible_blocknum.toNat := by rw [hirr₂]

/-! ## Along a chain from genesis -/

/-- Along every chain from genesis, the proposed last irreversible block never goes back from a
state to the next, and the last irreversible block never goes back from a state that a step
without a promotion built. The block numbers stay below `2 ^ 32`. -/
theorem irreversibility_monotone {initial_schedule : ProducerAuthoritySchedule}
    {initial_timestamp : UInt32} (hne : initial_schedule.producers ≠ []) :
    (∀ (hs : List SignedBlockHeader) (h : SignedBlockHeader) (s s' : BlockHeaderState),
        hs.length + 2 < 2 ^ 32 →
        hs.foldlM BlockHeaderState.nextOfHeader
          (BlockHeaderState.genesis initial_schedule initial_timestamp) = .ok s →
        s.nextOfHeader h = .ok s' →
        s.dpos_proposed_irreversible_blocknum ≤ s'.dpos_proposed_irreversible_blocknum) ∧
      ∀ (hs : List SignedBlockHeader) (h₁ h₂ : SignedBlockHeader) (s₀ s₁ s₂ : BlockHeaderState),
        hs.length + 2 < 2 ^ 32 →
        hs.foldlM BlockHeaderState.nextOfHeader
          (BlockHeaderState.genesis initial_schedule initial_timestamp) = .ok s₀ →
        s₀.nextOfHeader h₁ = .ok s₁ → s₁.nextOfHeader h₂ = .ok s₂ →
        (s₀.pending_schedule.schedule.producers = [] ∨
          s₁.dpos_irreversible_blocknum < s₀.pending_schedule.schedule_lib_num) →
        s₁.dpos_irreversible_blocknum ≤ s₂.dpos_irreversible_blocknum := by
  constructor
  · intro hs h s s' hlen hrun hstep
    obtain ⟨hinv, hbn, -⟩ := HeaderInvariant.of_genesis hne (by omega) hrun
    exact UInt32.le_iff_toNat_le.2 (hinv.proposed_le_nextOfHeader (by omega) hstep)
  · intro hs h₁ h₂ s₀ s₁ s₂ hlen hrun hstep₁ hstep₂ hstay
    obtain ⟨hinv, hbn, hkeys⟩ := HeaderInvariant.of_genesis hne (by omega) hrun
    have hkeys₀ : ImpliedKeysActive s₀.toBlockHeaderStateCommon := by
      cases hs with
      | nil =>
        -- the first block promotes the initial schedule, pending at block `0`
        cases hrun
        exfalso
        rcases hstay with hempty | hbefore
        · exact hne hempty
        · exact UInt32.not_lt_zero hbefore
      | cons h hs => exact hkeys (List.cons_ne_nil h hs)
    exact UInt32.le_iff_toNat_le.2
      (irreversible_le_of_not_promoted hinv hkeys₀ (by omega) hstep₁ hstep₂ hstay)

/-- A schedule of one producer. -/
theorem irreversibility_monotone_one_producer :
    ([⟨1⟩] : List Name) ≠ [] ∧
      ((∀ (hs : List SignedBlockHeader) (h : SignedBlockHeader) (s s' : BlockHeaderState),
          hs.length + 2 < 2 ^ 32 →
          hs.foldlM BlockHeaderState.nextOfHeader (BlockHeaderState.genesis ⟨0, [⟨1⟩]⟩ 0) = .ok s →
          s.nextOfHeader h = .ok s' →
          s.dpos_proposed_irreversible_blocknum ≤ s'.dpos_proposed_irreversible_blocknum) ∧
        ∀ (hs : List SignedBlockHeader) (h₁ h₂ : SignedBlockHeader) (s₀ s₁ s₂ : BlockHeaderState),
          hs.length + 2 < 2 ^ 32 →
          hs.foldlM BlockHeaderState.nextOfHeader (BlockHeaderState.genesis ⟨0, [⟨1⟩]⟩ 0) = .ok s₀ →
          s₀.nextOfHeader h₁ = .ok s₁ → s₁.nextOfHeader h₂ = .ok s₂ →
          (s₀.pending_schedule.schedule.producers = [] ∨
            s₁.dpos_irreversible_blocknum < s₀.pending_schedule.schedule_lib_num) →
          s₁.dpos_irreversible_blocknum ≤ s₂.dpos_irreversible_blocknum) :=
  ⟨List.cons_ne_nil _ _, irreversibility_monotone (List.cons_ne_nil _ _)⟩

/-- A chain of four producers `a`, `b`, `c`, `d` that then promotes the schedule `b`, `a` at block
`10`, with the last irreversible block at `5` and `a` implying block `3` still: the next block,
by `b`, has `3` as its last irreversible block. -/
theorem irreversible_back_after_promotion :
    let a : Name := ⟨1⟩
    let b : Name := ⟨2⟩
    let c : Name := ⟨3⟩
    let d : Name := ⟨4⟩
    let hs : List SignedBlockHeader :=
      [⟨1, a, 0, 0, none⟩, ⟨2, a, 0, 0, some ⟨1, [a, b, c, d]⟩⟩, ⟨3, a, 0, 0, none⟩,
        ⟨60, b, 0, 1, some ⟨2, [b, a]⟩⟩, ⟨72, c, 1, 1, none⟩, ⟨84, d, 2, 1, none⟩,
        ⟨108, b, 0, 1, none⟩, ⟨120, c, 0, 1, none⟩, ⟨132, d, 0, 1, none⟩]
    (hs.foldlM BlockHeaderState.nextOfHeader (BlockHeaderState.genesis ⟨0, [a]⟩ 0)).map
        (fun s : BlockHeaderState =>
          (s.block_num, s.active_schedule.producers, s.dpos_irreversible_blocknum)) =
        .ok (10, [b, a], 5) ∧
      ((hs ++ [(⟨144, b, 0, 2, none⟩ : SignedBlockHeader)]).foldlM BlockHeaderState.nextOfHeader
          (BlockHeaderState.genesis ⟨0, [a]⟩ 0)).map
        (fun s : BlockHeaderState => (s.block_num, s.dpos_irreversible_blocknum)) = .ok (11, 3) := by
  decide

end InfraBlockchain.Chain
