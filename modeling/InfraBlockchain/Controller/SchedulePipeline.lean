import Mathlib
import InfraBlockchain.Chain.HeaderInvariant
import InfraBlockchain.Controller.Schedule

/-!
# What the producer-schedule pipeline keeps

Along the blocks of the controller, a pending schedule is numbered one after the active one
(`PendingVersion`), and a proposed schedule one after the latest schedule, the pending one or else
the active one, and at a block no later than the head (`ProposalFollows`). The second is what the
version checks of `start_block` and `_finish_next` need: a proposal becomes pending only when no
schedule is pending, so it is then one after the active schedule, and every block whose `next`
succeeds is produced (`produceBlock_ok`). The first gives that a promotion raises the active
version by one.

The proof goes through the building block. `NextOf` collects what `next` fixes of the schedules
of the pending state. A proposal in the block is numbered after the building block's latest
schedule, and that is the latest schedule of the head the block becomes
(`latestSchedule_finalizeBlock`); when `start_block` took no proposal it is also the latest
schedule of the head before the block (`BuildingBlock.latestSchedule_of_none`), so a proposal that
waits keeps its number. A proposal of an earlier block waits through every call of a later one
(`foldl_setProposedProducers_of_earlier`).

At genesis the pending schedule is the initial one, the active one: the invariant holds from the
first block on, which always promotes it.
-/

namespace InfraBlockchain.Controller

open Chain

/-! ## The pending state of `next` -/

/-- What `next` fixes of the schedules of the pending state: the schedule pending and the active
version before the block, the block after the head's, and a promotion exactly when a schedule is
pending and the new last irreversible block has reached its block, which makes it active. -/
structure NextOf (s : BlockHeaderState) (pbhs : PendingBlockHeaderState) : Prop where
  /-- The schedule pending before the block. -/
  prev_pending_schedule : pbhs.prev_pending_schedule = s.pending_schedule
  /-- The version of the active schedule before the block. -/
  active_schedule_version : pbhs.active_schedule_version = s.active_schedule.version
  /-- The block after the head's. -/
  block_num : pbhs.block_num = s.block_num + 1
  /-- A promotion exactly when a schedule is pending and the new irreversible block has reached it.
  -/
  promoted_iff : pbhs.was_pending_promoted = true ↔
    s.pending_schedule.schedule.producers ≠ [] ∧
      s.pending_schedule.schedule_lib_num ≤ pbhs.dpos_irreversible_blocknum
  /-- The pending schedule when promoted, and the active one otherwise. -/
  active_schedule : pbhs.active_schedule =
    if pbhs.was_pending_promoted then s.pending_schedule.schedule else s.active_schedule

/-- What `next` gives has the schedules `NextOf` says. -/
theorem NextOf.of_next {s : BlockHeaderState} {when : UInt32} {conf : UInt16}
    {pbhs : PendingBlockHeaderState} (h : s.next when conf = .ok pbhs) : NextOf s pbhs := by
  obtain ⟨w, rfl⟩ := BlockHeaderState.next_eq_ok h
  exact ⟨rfl, rfl, rfl, buildPending_promoted_iff _, rfl⟩

section Building

variable {s : BlockHeaderState} {bb : BuildingBlock}

/-- A pending state that promotes had a schedule pending, and makes it active. -/
theorem NextOf.of_promoted (hn : NextOf s bb.pending_block_header_state)
    (hp : bb.pending_block_header_state.was_pending_promoted = true) :
    s.pending_schedule.schedule.producers ≠ [] ∧
      bb.pending_block_header_state.active_schedule = s.pending_schedule.schedule := by
  refine ⟨(hn.promoted_iff.1 hp).1, ?_⟩
  rw [hn.active_schedule, if_pos hp]

/-- A pending state that does not promote keeps the active schedule. -/
theorem NextOf.of_not_promoted (hn : NextOf s bb.pending_block_header_state)
    (hp : bb.pending_block_header_state.was_pending_promoted = false) :
    bb.pending_block_header_state.active_schedule = s.active_schedule := by
  rw [hn.active_schedule, hp]
  rfl

/-- With no proposal taken, the building block's latest schedule is the head's: the schedule
pending before the block, or the active one, which a block without one pending keeps. -/
theorem BuildingBlock.latestSchedule_of_none (hn : NextOf s bb.pending_block_header_state)
    (hnone : bb.new_pending_producer_schedule = none) :
    bb.latestSchedule = s.latestSchedule := by
  have hpending : bb.pendingProducers = s.pending_schedule.schedule := by
    rw [BuildingBlock.pendingProducers, hnone, hn.prev_pending_schedule]
  unfold BuildingBlock.latestSchedule BlockHeaderState.latestSchedule
  rw [hpending]
  split
  · next hempty =>
    -- nothing pending, so nothing promoted
    have hp : bb.pending_block_header_state.was_pending_promoted = false := by
      rw [Bool.eq_false_iff]
      exact fun hp => (hn.promoted_iff.1 hp).1 hempty
    exact hn.of_not_promoted hp
  · rfl

/-- The head that a block becomes has the active schedule of its pending state. -/
theorem finalizeBlock_active {head : BlockHeaderState} (hfin : bb.finalizeBlock = .ok head) :
    head.active_schedule = bb.pending_block_header_state.active_schedule :=
  congrArg BlockHeaderStateCommon.active_schedule
    (PendingBlockHeaderState.finishNext_common hfin)

/-- The latest schedule of the head that a block becomes is the building block's: a new pending
schedule, or the schedule that the block promoted, or the one pending before it. -/
theorem latestSchedule_finalizeBlock (hn : NextOf s bb.pending_block_header_state)
    {head : BlockHeaderState} (hfin : bb.finalizeBlock = .ok head) :
    head.latestSchedule = bb.latestSchedule := by
  have hpending := PendingBlockHeaderState.finishNext_pending hfin
  have hactive := finalizeBlock_active hfin
  unfold BlockHeaderState.latestSchedule BuildingBlock.latestSchedule
    BuildingBlock.pendingProducers BuildingBlock.activeProducers
  rw [hpending, hactive]
  simp only [BuildingBlock.header]
  rcases Option.eq_none_or_eq_some bb.new_pending_producer_schedule with hnone | ⟨schedule, hsome⟩
  · simp only [hnone]
    by_cases hp : bb.pending_block_header_state.was_pending_promoted = true
    · -- the promoted schedule is active, and nothing is pending after it
      obtain ⟨hne, hact⟩ := hn.of_promoted hp
      rw [← hn.prev_pending_schedule] at hne hact
      simp [hp, hne, hact]
    · simp only [hp, Bool.false_eq_true, if_false]
  · simp only [hsome]

end Building

/-! ## One block -/

/-- A pending schedule is numbered one after the active one. -/
def PendingVersion (s : BlockHeaderState) : Prop :=
  s.pending_schedule.schedule.producers ≠ [] →
    s.pending_schedule.schedule.version = s.active_schedule.version + 1

/-- A proposed schedule is numbered one after the latest schedule, and was proposed at a block no
later than the head. -/
def ProposalFollows (st : ScheduleState) : Prop :=
  ∀ n, st.gpo.proposed_schedule_block_num = some n →
    st.gpo.proposed_schedule.version = st.head.latestSchedule.version + 1 ∧
      n.toNat ≤ st.head.block_num.toNat

section Block

variable {st st' : ScheduleState} {b : BlockInput}

/-- A block is the pending state of `next`, the promotion of `start_block`, the calls of its
transactions, and `finalize_block`. -/
theorem produceBlock_parts (h : st.produceBlock b = .ok st') :
    ∃ bb gpo₁, NextOf st.head bb.pending_block_header_state ∧
      promoteProposed st.gpo bb.pending_block_header_state =
        .ok (bb.new_pending_producer_schedule, gpo₁) ∧
      bb.finalizeBlock = .ok st'.head ∧
      st'.gpo = b.proposals.foldl (fun gpo producers =>
        (setProposedProducers b.disallow_empty_producer_schedule st.head.block_num bb gpo
          producers).2) gpo₁ := by
  obtain ⟨bb, gpo₁, hstart, hfin, hgpo⟩ := produceBlock_eq_ok h
  obtain ⟨hnext, hpromote⟩ := startBlock_eq_ok hstart
  exact ⟨bb, gpo₁, NextOf.of_next hnext, hpromote, hfin, hgpo⟩

/-- The head that a block becomes has the number, the last irreversible block and the active
schedule of its pending state. -/
theorem finalizeBlock_common {bb : BuildingBlock} {head : BlockHeaderState}
    (hfin : bb.finalizeBlock = .ok head) :
    head.block_num = bb.pending_block_header_state.block_num ∧
      head.dpos_irreversible_blocknum = bb.pending_block_header_state.dpos_irreversible_blocknum ∧
      head.active_schedule = bb.pending_block_header_state.active_schedule := by
  have hcommon := PendingBlockHeaderState.finishNext_common hfin
  exact ⟨congrArg BlockHeaderStateCommon.block_num hcommon,
    congrArg BlockHeaderStateCommon.dpos_irreversible_blocknum hcommon,
    congrArg BlockHeaderStateCommon.active_schedule hcommon⟩

/-- A block promotes exactly when a schedule is pending and its new last irreversible block has
reached the block where it became pending. -/
theorem produceBlock_promoted_iff {bb : BuildingBlock}
    (hn : NextOf st.head bb.pending_block_header_state) (hfin : bb.finalizeBlock = .ok st'.head) :
    bb.pending_block_header_state.was_pending_promoted = true ↔
      st.head.pending_schedule.schedule.producers ≠ [] ∧
        st.head.pending_schedule.schedule_lib_num ≤ st'.head.dpos_irreversible_blocknum := by
  rw [(finalizeBlock_common hfin).2.1]
  exact hn.promoted_iff

/-- A block numbers the head after the one before it. -/
theorem produceBlock_block_num (h : st.produceBlock b = .ok st') :
    st'.head.block_num = st.head.block_num + 1 := by
  obtain ⟨bb, -, hn, -, hfin, -⟩ := produceBlock_parts h
  rw [(finalizeBlock_common hfin).1, hn.block_num]

/-- A block keeps a proposal numbered after the latest schedule: a proposal of the block is
numbered after the building block's latest schedule, which the new head has, and one that waits
was numbered after the latest schedule of the head before, which the block does not change. -/
theorem ProposalFollows.produceBlock (hprop : ProposalFollows st)
    (hbn : st.head.block_num.toNat + 1 < 2 ^ 32) (h : st.produceBlock b = .ok st') :
    ProposalFollows st' := by
  obtain ⟨bb, gpo₁, hn, hpromote, hfin, hgpo⟩ := produceBlock_parts h
  have hbn' := produceBlock_block_num h
  have hbn_toNat : st'.head.block_num.toNat = st.head.block_num.toNat + 1 := by
    rw [hbn', toNat_add_one_of_lt hbn]
  have hlatest := latestSchedule_finalizeBlock hn hfin
  unfold ProposalFollows
  rw [hgpo]
  refine foldl_setProposedProducers (P := fun gpo => ∀ n, gpo.proposed_schedule_block_num = some n →
      gpo.proposed_schedule.version = st'.head.latestSchedule.version + 1 ∧
        n.toNat ≤ st'.head.block_num.toNat) _ _ _ ?_ _ _ ?_
  · -- a proposal of this block
    intro producers n hsome
    cases hsome
    exact ⟨by rw [hlatest], by rw [hbn']⟩
  · -- the proposal that `start_block` left
    rcases promoteProposed_cases hpromote with ⟨-, -, -, -, -, rfl⟩ | ⟨-, hnone, rfl⟩
    · intro n hsome
      cases hsome
    · intro n hsome
      obtain ⟨hversion, hle⟩ := hprop n hsome
      rw [hlatest, BuildingBlock.latestSchedule_of_none hn hnone]
      exact ⟨hversion, by omega⟩

/-- A block keeps the pending schedule numbered after the active one: a proposal becomes pending
only when none is, numbered after the active schedule; a promotion leaves nothing pending; and
otherwise both stay. At genesis the pending schedule is pending since block `0`, and the first
block promotes it. -/
theorem PendingVersion.produceBlock
    (hpend : PendingVersion st.head ∨ st.head.pending_schedule.schedule_lib_num = 0)
    (hprop : ProposalFollows st) (h : st.produceBlock b = .ok st') : PendingVersion st'.head := by
  obtain ⟨bb, gpo₁, hn, hpromote, hfin, -⟩ := produceBlock_parts h
  have hpending := PendingBlockHeaderState.finishNext_pending hfin
  have hactive := (finalizeBlock_common hfin).2.2
  have hpromoted := produceBlock_promoted_iff hn hfin
  intro hne
  rcases promoteProposed_cases hpromote with ⟨n, hsome, -, hempty, hnew, -⟩ | ⟨-, hnone, -⟩
  · -- the proposal became pending, in a block that promoted nothing
    simp only [BuildingBlock.header, hnew] at hpending
    rw [hn.prev_pending_schedule] at hempty
    have hnot : bb.pending_block_header_state.was_pending_promoted = false := by
      rw [Bool.eq_false_iff]
      exact fun hp => (hpromoted.1 hp).1 hempty
    obtain ⟨hversion, -⟩ := hprop n hsome
    rw [hpending, hactive, hn.of_not_promoted hnot, hversion]
    unfold BlockHeaderState.latestSchedule
    rw [if_pos hempty]
  · simp only [BuildingBlock.header, hnone] at hpending
    by_cases hp : bb.pending_block_header_state.was_pending_promoted = true
    · -- a promotion leaves nothing pending
      rw [hpending, if_pos hp] at hne
      exact absurd rfl hne
    · rw [hpending, if_neg hp, hn.prev_pending_schedule] at hne ⊢
      rw [hactive, hn.of_not_promoted (Bool.eq_false_iff.2 hp)]
      rcases hpend with hpend | hlib
      · exact hpend hne
      · -- pending since block `0`: the block promotes it
        have hreached : st.head.pending_schedule.schedule_lib_num ≤
            st'.head.dpos_irreversible_blocknum := by
          rw [hlib, UInt32.le_iff_toNat_le, UInt32.toNat_zero]
          exact Nat.zero_le _
        exact absurd (hpromoted.2 ⟨hne, hreached⟩) hp

/-- Every block whose `next` succeeds is produced: the version checks of `start_block` and
`_finish_next` pass on a proposal numbered after the latest schedule. -/
theorem produceBlock_ok (hprop : ProposalFollows st) {pbhs : PendingBlockHeaderState}
    (hnext : st.head.next b.when b.confirm_block_count = .ok pbhs) :
    ∃ st', st.produceBlock b = .ok st' := by
  have hn := NextOf.of_next hnext
  -- a proposal taken when nothing is pending is numbered after the active schedule
  have hversion : ∀ n, st.gpo.proposed_schedule_block_num = some n →
      pbhs.prev_pending_schedule.schedule.producers = [] →
      st.gpo.proposed_schedule.version = pbhs.active_schedule_version + 1 := by
    intro n hsome hempty
    rw [hn.prev_pending_schedule] at hempty
    rw [(hprop n hsome).1, hn.active_schedule_version]
    unfold BlockHeaderState.latestSchedule
    rw [if_pos hempty]
  obtain ⟨⟨np, gpo₁⟩, hpromote⟩ := promoteProposed_ok hversion
  have hnew : ∀ schedule, np = some schedule → pbhs.was_pending_promoted = false ∧
      schedule.version = pbhs.active_schedule.version + 1 ∧
      pbhs.prev_pending_schedule.schedule.producers = [] := by
    intro schedule hsome
    rcases promoteProposed_cases hpromote with ⟨n, hn', -, hempty, hnp, -⟩ | ⟨-, hnone, -⟩
    · have hnot : pbhs.was_pending_promoted = false := by
        rw [Bool.eq_false_iff]
        intro hp
        exact (hn.promoted_iff.1 hp).1 (hn.prev_pending_schedule ▸ hempty)
      rw [hsome, Option.some_inj] at hnp
      rw [hnp, hversion n hn' hempty, hn.active_schedule_version, hn.active_schedule, hnot]
      exact ⟨rfl, rfl, hempty⟩
    · rw [hsome] at hnone
      cases hnone
  obtain ⟨head, hfin⟩ : ∃ head, (⟨pbhs, np⟩ : BuildingBlock).finalizeBlock = .ok head :=
    finalizeBlock_ok hnew
  refine ⟨⟨head, b.proposals.foldl (fun gpo producers =>
    (setProposedProducers b.disallow_empty_producer_schedule st.head.block_num ⟨pbhs, np⟩ gpo
      producers).2) gpo₁⟩, ?_⟩
  unfold ScheduleState.produceBlock ScheduleState.startBlock
  rw [hnext]
  simp only [bind, Except.bind, pure, Except.pure, hpromote, hfin]

/-- A promotion makes the pending schedule active. -/
theorem produceBlock_of_promotes (h : st.produceBlock b = .ok st')
    (hpromotes : st.head.pending_schedule.schedule.producers ≠ [] ∧
      st.head.pending_schedule.schedule_lib_num ≤ st'.head.dpos_irreversible_blocknum) :
    st'.head.active_schedule = st.head.pending_schedule.schedule := by
  obtain ⟨bb, -, hn, -, hfin, -⟩ := produceBlock_parts h
  rw [(finalizeBlock_common hfin).2.2]
  exact (hn.of_promoted ((produceBlock_promoted_iff hn hfin).2 hpromotes)).2

/-- Without a promotion the active schedule stays, and so does a pending schedule. -/
theorem produceBlock_of_not_promotes (h : st.produceBlock b = .ok st')
    (hnot : ¬ (st.head.pending_schedule.schedule.producers ≠ [] ∧
      st.head.pending_schedule.schedule_lib_num ≤ st'.head.dpos_irreversible_blocknum)) :
    st'.head.active_schedule = st.head.active_schedule ∧
      (st.head.pending_schedule.schedule.producers ≠ [] →
        st'.head.pending_schedule = st.head.pending_schedule) := by
  obtain ⟨bb, gpo₁, hn, hpromote, hfin, -⟩ := produceBlock_parts h
  have hp : bb.pending_block_header_state.was_pending_promoted = false := by
    rw [Bool.eq_false_iff]
    exact fun hp => hnot ((produceBlock_promoted_iff hn hfin).1 hp)
  refine ⟨by rw [(finalizeBlock_common hfin).2.2, hn.of_not_promoted hp], fun hne => ?_⟩
  -- with a schedule pending, `start_block` takes no proposal
  have hnone : bb.new_pending_producer_schedule = none := by
    rcases promoteProposed_cases hpromote with ⟨-, -, -, hempty, -, -⟩ | ⟨-, hnone, -⟩
    · rw [hn.prev_pending_schedule] at hempty
      exact absurd hempty hne
    · exact hnone
  rw [PendingBlockHeaderState.finishNext_pending hfin]
  simp only [BuildingBlock.header, hnone, hp, Bool.false_eq_true, if_false]
  exact hn.prev_pending_schedule

/-- A proposal whose block the new block has made irreversible, with nothing pending before it,
becomes the pending schedule at the new block. -/
theorem produceBlock_takes_proposal (h : st.produceBlock b = .ok st') {n : UInt32}
    (hsome : st.gpo.proposed_schedule_block_num = some n)
    (hcond : n ≤ st'.head.dpos_irreversible_blocknum ∧
      st.head.pending_schedule.schedule.producers = []) :
    st'.head.pending_schedule = ⟨st'.head.block_num, st.gpo.proposed_schedule⟩ := by
  obtain ⟨bb, gpo₁, hn, hpromote, hfin, -⟩ := produceBlock_parts h
  have hcommon := finalizeBlock_common hfin
  rcases promoteProposed_cases hpromote with ⟨-, -, -, -, hnew, -⟩ | ⟨hwait, -, -⟩
  · rw [PendingBlockHeaderState.finishNext_pending hfin, hcommon.1]
    simp only [BuildingBlock.header, hnew]
  · rw [hcommon.2.1, ← hn.prev_pending_schedule] at hcond
    exact absurd hcond (hwait n hsome)

/-- Otherwise a proposal waits: the calls of the block refuse, as it is from an earlier block. -/
theorem produceBlock_proposal_waits (hprop : ProposalFollows st)
    (hbn : st.head.block_num.toNat + 1 < 2 ^ 32) (h : st.produceBlock b = .ok st') {n : UInt32}
    (hsome : st.gpo.proposed_schedule_block_num = some n)
    (hcond : ¬ (n ≤ st'.head.dpos_irreversible_blocknum ∧
      st.head.pending_schedule.schedule.producers = [])) :
    st'.gpo = st.gpo := by
  obtain ⟨bb, gpo₁, hn, hpromote, hfin, hgpo⟩ := produceBlock_parts h
  have hcommon := finalizeBlock_common hfin
  have hearlier : n ≠ st.head.block_num + 1 := by
    intro heq
    have hle := (hprop n hsome).2
    rw [heq, toNat_add_one_of_lt hbn] at hle
    omega
  rcases promoteProposed_cases hpromote with ⟨n', hsome', hle, hempty, -, -⟩ | ⟨-, -, rfl⟩
  · rw [hsome, Option.some_inj] at hsome'
    subst hsome'
    rw [hcommon.2.1, ← hn.prev_pending_schedule] at hcond
    exact absurd ⟨hle, hempty⟩ hcond
  · rw [hgpo]
    exact foldl_setProposedProducers_of_earlier _ _ hsome hearlier _

end Block

/-! ## Along the blocks from genesis -/

/-- What the pipeline keeps from the first block on. -/
structure ScheduleInvariant (st : ScheduleState) : Prop where
  /-- The pending schedule is numbered one after the active one. -/
  pending_version : PendingVersion st.head
  /-- The proposed schedule follows the latest one. -/
  proposal_follows : ProposalFollows st

section Run

variable {st st' : ScheduleState} {b : BlockInput}

/-- A block keeps the invariant, while the block number does not wrap. -/
theorem ScheduleInvariant.produceBlock (hinv : ScheduleInvariant st)
    (hbn : st.head.block_num.toNat + 1 < 2 ^ 32) (h : st.produceBlock b = .ok st') :
    ScheduleInvariant st' :=
  ⟨PendingVersion.produceBlock (.inl hinv.pending_version) hinv.proposal_follows h,
    hinv.proposal_follows.produceBlock hbn h⟩

/-- The first block from genesis, which has nothing proposed, gives the invariant. -/
theorem ScheduleInvariant.first_block {initial_schedule : ProducerAuthoritySchedule}
    {initial_timestamp : UInt32}
    (h : (ScheduleState.genesis initial_schedule initial_timestamp).produceBlock b = .ok st') :
    ScheduleInvariant st' := by
  have hprop : ProposalFollows (ScheduleState.genesis initial_schedule initial_timestamp) := by
    intro n hsome
    cases hsome
  have hbn : (ScheduleState.genesis initial_schedule initial_timestamp).head.block_num.toNat + 1 <
      2 ^ 32 := by
    simp [ScheduleState.genesis, BlockHeaderState.genesis]
  exact ⟨PendingVersion.produceBlock (.inr rfl) hprop h, hprop.produceBlock hbn h⟩

end Run

/-- Along a run of blocks the invariant is kept and the block number grows by the number of
blocks, while it does not wrap. By induction on the blocks. -/
theorem ScheduleInvariant.run : ∀ (blocks : List BlockInput) {st st' : ScheduleState},
    ScheduleInvariant st → st.head.block_num.toNat + blocks.length < 2 ^ 32 →
    st.run blocks = .ok st' →
    ScheduleInvariant st' ∧ st'.head.block_num.toNat = st.head.block_num.toNat + blocks.length
  | [], _, _, hinv, _, hrun => by
    unfold ScheduleState.run at hrun
    cases hrun
    exact ⟨hinv, rfl⟩
  | b :: blocks, st, st', hinv, hbn, hrun => by
    unfold ScheduleState.run at hrun
    rw [List.foldlM_cons] at hrun
    obtain ⟨st₁, hstep, hrest⟩ := bind_eq_ok.1 hrun
    rw [List.length_cons] at hbn
    have hbn₁ : st₁.head.block_num.toNat = st.head.block_num.toNat + 1 := by
      rw [produceBlock_block_num hstep, toNat_add_one_of_lt (by omega)]
    obtain ⟨hinv', hbn'⟩ :=
      ScheduleInvariant.run blocks (hinv.produceBlock (by omega) hstep) (by omega) hrest
    refine ⟨hinv', ?_⟩
    rw [hbn', hbn₁, List.length_cons]
    omega

/-- Every state after a run of at least one block from genesis keeps the invariant, at the
block after as many blocks. -/
theorem ScheduleInvariant.of_genesis {initial_schedule : ProducerAuthoritySchedule}
    {initial_timestamp : UInt32} :
    ∀ {blocks : List BlockInput} {st : ScheduleState}, blocks ≠ [] → blocks.length + 1 < 2 ^ 32 →
      (ScheduleState.genesis initial_schedule initial_timestamp).run blocks = .ok st →
      ScheduleInvariant st ∧ st.head.block_num.toNat = blocks.length + 1
  | [], _, hne, _, _ => absurd rfl hne
  | b :: blocks, st, _, hlen, hrun => by
    unfold ScheduleState.run at hrun
    rw [List.foldlM_cons] at hrun
    obtain ⟨st₁, hstep, hrest⟩ := bind_eq_ok.1 hrun
    have hbn₁ : st₁.head.block_num.toNat = 2 := by
      rw [produceBlock_block_num hstep]
      rfl
    rw [List.length_cons] at hlen
    obtain ⟨hinv, hbn⟩ :=
      ScheduleInvariant.run blocks (ScheduleInvariant.first_block hstep) (by omega) hrest
    refine ⟨hinv, ?_⟩
    rw [hbn, hbn₁, List.length_cons]
    omega

/-- Along the blocks of the controller from genesis, from the first block on: the active schedule
changes only by a promotion of the pending one, which raises its version by one; a pending
schedule is numbered one after the active one, and every block whose `next` succeeds passes the
version checks of `start_block` and `_finish_next`; a proposal becomes pending at the first block
that has made its block irreversible with nothing pending before it, and waits until then; and a
pending schedule with producers becomes active at the first block that has made its block
irreversible, and stays pending until then. The block number stays below `2 ^ 32`. -/
theorem producer_schedule_pipeline {initial_schedule : ProducerAuthoritySchedule}
    {initial_timestamp : UInt32} {blocks : List BlockInput} {st st' : ScheduleState}
    {b : BlockInput} (hblocks : blocks ≠ []) (hlen : blocks.length + 2 < 2 ^ 32)
    (hrun : (ScheduleState.genesis initial_schedule initial_timestamp).run blocks = .ok st)
    (hstep : st.produceBlock b = .ok st') :
    (st'.head.active_schedule = st.head.active_schedule ∨
        (st.head.pending_schedule.schedule.producers ≠ [] ∧
          st.head.pending_schedule.schedule_lib_num ≤ st'.head.dpos_irreversible_blocknum ∧
          st'.head.active_schedule = st.head.pending_schedule.schedule ∧
          st'.head.active_schedule.version = st.head.active_schedule.version + 1)) ∧
      (st.head.pending_schedule.schedule.producers ≠ [] →
        st.head.pending_schedule.schedule.version = st.head.active_schedule.version + 1) ∧
      (∀ (b' : BlockInput) (pbhs : PendingBlockHeaderState),
        st.head.next b'.when b'.confirm_block_count = .ok pbhs →
          ∃ st'', st.produceBlock b' = .ok st'') ∧
      (∀ n, st.gpo.proposed_schedule_block_num = some n →
        (n ≤ st'.head.dpos_irreversible_blocknum ∧
            st.head.pending_schedule.schedule.producers = [] →
          st'.head.pending_schedule = ⟨st'.head.block_num, st.gpo.proposed_schedule⟩) ∧
        (¬ (n ≤ st'.head.dpos_irreversible_blocknum ∧
            st.head.pending_schedule.schedule.producers = []) →
          st'.gpo = st.gpo)) ∧
      (st.head.pending_schedule.schedule.producers ≠ [] →
        (st.head.pending_schedule.schedule_lib_num ≤ st'.head.dpos_irreversible_blocknum →
          st'.head.active_schedule = st.head.pending_schedule.schedule) ∧
        (¬ st.head.pending_schedule.schedule_lib_num ≤ st'.head.dpos_irreversible_blocknum →
          st'.head.active_schedule = st.head.active_schedule ∧
            st'.head.pending_schedule = st.head.pending_schedule)) := by
  obtain ⟨hinv, hbn⟩ := ScheduleInvariant.of_genesis hblocks (by omega) hrun
  have hbn' : st.head.block_num.toNat + 1 < 2 ^ 32 := by omega
  refine ⟨?_, hinv.pending_version, fun b' pbhs hnext => produceBlock_ok hinv.proposal_follows hnext,
    fun n hsome => ⟨produceBlock_takes_proposal hstep hsome,
      produceBlock_proposal_waits hinv.proposal_follows hbn' hstep hsome⟩,
    fun hne => ⟨fun hle => produceBlock_of_promotes hstep ⟨hne, hle⟩, fun hlt => ?_⟩⟩
  · -- the active schedule: promoted, one version up, or kept
    by_cases hpromotes : st.head.pending_schedule.schedule.producers ≠ [] ∧
        st.head.pending_schedule.schedule_lib_num ≤ st'.head.dpos_irreversible_blocknum
    · have hactive := produceBlock_of_promotes hstep hpromotes
      refine .inr ⟨hpromotes.1, hpromotes.2, hactive, ?_⟩
      rw [hactive]
      exact hinv.pending_version hpromotes.1
    · exact .inl (produceBlock_of_not_promotes hstep hpromotes).1
  · obtain ⟨hactive, hpending⟩ := produceBlock_of_not_promotes hstep fun h => hlt h.2
    exact ⟨hactive, hpending hne⟩

/-- Two blocks from a schedule of one producer: the second proposes a schedule, which the third
makes pending. -/
theorem producer_schedule_pipeline_third_block :
    ∃ st st', (ScheduleState.genesis ⟨0, [⟨1⟩]⟩ 0).run [⟨1, 0, true, [[⟨2⟩]]⟩] = .ok st ∧
      st.produceBlock ⟨2, 0, true, []⟩ = .ok st' ∧
      (st'.head.active_schedule = st.head.active_schedule ∨
          (st.head.pending_schedule.schedule.producers ≠ [] ∧
            st.head.pending_schedule.schedule_lib_num ≤ st'.head.dpos_irreversible_blocknum ∧
            st'.head.active_schedule = st.head.pending_schedule.schedule ∧
            st'.head.active_schedule.version = st.head.active_schedule.version + 1)) ∧
        (st.head.pending_schedule.schedule.producers ≠ [] →
          st.head.pending_schedule.schedule.version = st.head.active_schedule.version + 1) ∧
        (∀ (b' : BlockInput) (pbhs : PendingBlockHeaderState),
          st.head.next b'.when b'.confirm_block_count = .ok pbhs →
            ∃ st'', st.produceBlock b' = .ok st'') ∧
        (∀ n, st.gpo.proposed_schedule_block_num = some n →
          (n ≤ st'.head.dpos_irreversible_blocknum ∧
              st.head.pending_schedule.schedule.producers = [] →
            st'.head.pending_schedule = ⟨st'.head.block_num, st.gpo.proposed_schedule⟩) ∧
          (¬ (n ≤ st'.head.dpos_irreversible_blocknum ∧
              st.head.pending_schedule.schedule.producers = []) →
            st'.gpo = st.gpo)) ∧
        (st.head.pending_schedule.schedule.producers ≠ [] →
          (st.head.pending_schedule.schedule_lib_num ≤ st'.head.dpos_irreversible_blocknum →
            st'.head.active_schedule = st.head.pending_schedule.schedule) ∧
          (¬ st.head.pending_schedule.schedule_lib_num ≤ st'.head.dpos_irreversible_blocknum →
            st'.head.active_schedule = st.head.active_schedule ∧
              st'.head.pending_schedule = st.head.pending_schedule)) := by
  obtain ⟨st, st', hrun, hstep⟩ : ∃ st st',
      (ScheduleState.genesis ⟨0, [⟨1⟩]⟩ 0).run [⟨1, 0, true, [[⟨2⟩]]⟩] = .ok st ∧
        st.produceBlock ⟨2, 0, true, []⟩ = .ok st' := ⟨_, _, rfl, rfl⟩
  exact ⟨st, st', hrun, hstep,
    producer_schedule_pipeline (List.cons_ne_nil _ _) (by decide) hrun hstep⟩

/-- From genesis with one producer: the genesis state has the initial schedule pending with the
active version, and the first block promotes it without raising the version. Without
`disallow_empty_producer_schedule`, the second block proposes an empty schedule, `set_proposed_producers`
numbers it `1`, and the third block makes it pending; the fourth has made block `3` irreversible,
and the schedule never becomes active. -/
theorem schedule_pipeline_from_genesis :
    (ScheduleState.genesis ⟨0, [⟨1⟩]⟩ 0).head.pending_schedule.schedule.producers ≠ [] ∧
      (ScheduleState.genesis ⟨0, [⟨1⟩]⟩ 0).head.pending_schedule.schedule.version =
        (ScheduleState.genesis ⟨0, [⟨1⟩]⟩ 0).head.active_schedule.version ∧
      ((ScheduleState.genesis ⟨0, [⟨1⟩]⟩ 0).produceBlock ⟨1, 0, true, []⟩).map
          (fun st : ScheduleState => (st.head.active_schedule, st.head.pending_schedule)) =
        .ok (⟨0, [⟨1⟩]⟩, ⟨0, ⟨0, []⟩⟩) ∧
      ((ScheduleState.genesis ⟨0, [⟨1⟩]⟩ 0).run [⟨1, 0, false, [[]]⟩]).map
          (fun st : ScheduleState => st.gpo) = .ok ⟨some 2, ⟨1, []⟩⟩ ∧
      ((ScheduleState.genesis ⟨0, [⟨1⟩]⟩ 0).run
          [⟨1, 0, false, [[]]⟩, ⟨2, 0, false, []⟩, ⟨3, 0, false, []⟩]).map
          (fun st : ScheduleState =>
            (st.head.pending_schedule, st.head.dpos_irreversible_blocknum, st.head.active_schedule)) =
        .ok (⟨3, ⟨1, []⟩⟩, 3, ⟨0, [⟨1⟩]⟩) := by
  decide

end InfraBlockchain.Controller
