import Mathlib
import InfraBlockchain.Chain.BlockHeaderState

/-!
# The producer-schedule pipeline of the controller

A new producer schedule passes through three places (`controller.cpp`). A contract proposes it
with `set_proposed_producers`, which keeps it in the `global_property_object` with the number of
the block it was proposed in. `start_block` takes it as the new pending schedule of the block it
starts, once the block it was proposed in is irreversible and no schedule was pending before the
block; the block's header carries it, and `_finish_next` stores it as the pending schedule at the
block's number. `next` then makes a pending schedule active once that block is irreversible
(`BlockHeaderState.buildPending`).

One block of the controller is `start_block`, the `set_proposed_producers` calls that the block's
transactions make, in order, and `finalize_block` with `commit_block`, whose head is the pending
block header state finished with the block's header. Within the block, `active_producers()` and
`pending_producers()` read the building block: the pending block header state's active schedule,
and the new pending schedule of `start_block`, or else the schedule pending before the block.

Not modelled: what else `start_block` and `finalize_block` do (protocol features, the `onblock`
transaction, resource limits, merkle roots), and the checks of the `set_proposed_producers`
intrinsic before it calls the controller, since a call they refuse changes nothing. Producers are
their names, without signing authorities: two schedules with the same names compare equal, so a
proposal that changes only signing authorities gets `-1` here where the source accepts it, and
`make_block_header`'s check that a legacy schedule has one key per producer is not modelled.
Whether `disallow_empty_producer_schedule` is active is an input of each block.
-/

namespace InfraBlockchain.Chain

/-- The latest schedule of a header state: the pending one, or the active one when none is
pending. It is what `pending_producers()` and `active_producers()` give `set_proposed_producers`
between blocks. -/
def BlockHeaderState.latestSchedule (s : BlockHeaderState) : ProducerAuthoritySchedule :=
  if s.pending_schedule.schedule.producers = [] then s.active_schedule
  else s.pending_schedule.schedule

end InfraBlockchain.Chain

namespace InfraBlockchain.Controller

open Chain

/-- The fields of `global_property_object` that hold the proposed schedule. -/
structure GlobalPropertyObject where
  /-- `proposed_schedule_block_num`: the block of the proposal, when there is one. -/
  proposed_schedule_block_num : Option UInt32
  /-- `proposed_schedule`. -/
  proposed_schedule : ProducerAuthoritySchedule
  deriving DecidableEq, Repr

/-- What the controller keeps of schedules between blocks: the head's block header state and the
global properties. -/
structure ScheduleState where
  /-- `head`. -/
  head : BlockHeaderState
  /-- The `global_property_object`. -/
  gpo : GlobalPropertyObject
  deriving DecidableEq, Repr

/-- What `building_block` holds of schedules. -/
structure BuildingBlock where
  /-- `_pending_block_header_state`. -/
  pending_block_header_state : PendingBlockHeaderState
  /-- `_new_pending_producer_schedule`: the proposed schedule that `start_block` took. -/
  new_pending_producer_schedule : Option ProducerAuthoritySchedule
  deriving DecidableEq, Repr

/-- What one block of the controller is given: its timestamp and confirmations, whether
`disallow_empty_producer_schedule` is active, and the producers of each `set_proposed_producers`
call of its transactions. -/
structure BlockInput where
  /-- `when`. -/
  when : UInt32
  /-- `confirm_block_count`. -/
  confirm_block_count : UInt16
  /-- `is_builtin_activated(builtin_protocol_feature_t::disallow_empty_producer_schedule)`. -/
  disallow_empty_producer_schedule : Bool
  /-- The producers of each `set_proposed_producers` call, in order. -/
  proposals : List (List Name)
  deriving DecidableEq, Repr

/-- The empty proposal of a fresh `global_property_object`, and of one whose proposal became
pending. -/
def GlobalPropertyObject.empty : GlobalPropertyObject := ⟨none, ⟨0, []⟩⟩

/-- `initialize_blockchain_state` and `initialize_database`: the genesis header state and no
proposed schedule. -/
def ScheduleState.genesis (initial_schedule : ProducerAuthoritySchedule)
    (initial_timestamp : UInt32) : ScheduleState :=
  ⟨BlockHeaderState.genesis initial_schedule initial_timestamp, GlobalPropertyObject.empty⟩

/-! ## `start_block` -/

/-- The promotion of `start_block`: a proposed schedule whose block the new block has made
irreversible becomes the block's new pending schedule, when no schedule was pending before it,
and the global properties forget it. -/
def promoteProposed (gpo : GlobalPropertyObject) (pbhs : PendingBlockHeaderState) :
    Except Exception (Option ProducerAuthoritySchedule × GlobalPropertyObject) :=
  match gpo.proposed_schedule_block_num with
  | some proposed_num =>
    if proposed_num ≤ pbhs.dpos_irreversible_blocknum ∧
        pbhs.prev_pending_schedule.schedule.producers = [] then do
      eosAssert (gpo.proposed_schedule.version == pbhs.active_schedule_version + 1)
        .producer_schedule_exception "wrong producer schedule version specified"
      pure (some gpo.proposed_schedule, GlobalPropertyObject.empty)
    else pure (none, gpo)
  | none => pure (none, gpo)

/-- `controller_impl::start_block`, for schedules: the pending block header state of `next`, and
the promotion of the proposed schedule. -/
def ScheduleState.startBlock (st : ScheduleState) (when : UInt32) (confirm_block_count : UInt16) :
    Except Exception (BuildingBlock × GlobalPropertyObject) := do
  let pbhs ← st.head.next when confirm_block_count
  let (new_pending_producer_schedule, gpo) ← promoteProposed st.gpo pbhs
  pure (⟨pbhs, new_pending_producer_schedule⟩, gpo)

/-! ## `set_proposed_producers` -/

/-- `controller::active_producers` while a block is built. -/
def BuildingBlock.activeProducers (bb : BuildingBlock) : ProducerAuthoritySchedule :=
  bb.pending_block_header_state.active_schedule

/-- `controller::pending_producers` while a block is built: the schedule that `start_block`
took, or else the one pending before the block, even when this block has promoted it. -/
def BuildingBlock.pendingProducers (bb : BuildingBlock) : ProducerAuthoritySchedule :=
  match bb.new_pending_producer_schedule with
  | some schedule => schedule
  | none => bb.pending_block_header_state.prev_pending_schedule.schedule

/-- The schedule that `set_proposed_producers` compares a proposal with and numbers it after: the
pending one, or the active one when none is pending. -/
def BuildingBlock.latestSchedule (bb : BuildingBlock) : ProducerAuthoritySchedule :=
  if bb.pendingProducers.producers = [] then bb.activeProducers else bb.pendingProducers

/-- The checks of `set_proposed_producers` against a schedule already proposed: one proposed in
an earlier block waits to become pending, and one proposed in this block is replaced only by
different producers. -/
def proposalWaits (gpo : GlobalPropertyObject) (cur_block_num : UInt32) (producers : List Name) :
    Bool :=
  match gpo.proposed_schedule_block_num with
  | some proposed_num =>
    decide (proposed_num ≠ cur_block_num) || decide (producers = gpo.proposed_schedule.producers)
  | none => false

/-- `controller::set_proposed_producers`: `-1` and no change, or the version of the new proposed
schedule, one after the latest schedule's, with the proposal stored at the current block. -/
def setProposedProducers (disallow_empty_producer_schedule : Bool) (head_block_num : UInt32)
    (bb : BuildingBlock) (gpo : GlobalPropertyObject) (producers : List Name) :
    Int × GlobalPropertyObject :=
  let cur_block_num := head_block_num + 1
  if producers = [] ∧ disallow_empty_producer_schedule = true then (-1, gpo)
  else if proposalWaits gpo cur_block_num producers then (-1, gpo)
  else if producers = bb.latestSchedule.producers then (-1, gpo)
  else
    (((bb.latestSchedule.version + 1).toNat : Int),
      ⟨some cur_block_num, ⟨bb.latestSchedule.version + 1, producers⟩⟩)

/-! ## `finalize_block` and one block -/

/-- The header of `make_block_header`: the pending state's timestamp, producer, confirmations and
active schedule version, and the new pending schedule. -/
def BuildingBlock.header (bb : BuildingBlock) : SignedBlockHeader :=
  ⟨bb.pending_block_header_state.timestamp, bb.pending_block_header_state.producer,
    bb.pending_block_header_state.confirmed, bb.pending_block_header_state.active_schedule_version,
    bb.new_pending_producer_schedule⟩

/-- `finalize_block` and `commit_block`: the head that the block's state becomes. -/
def BuildingBlock.finalizeBlock (bb : BuildingBlock) : Except Exception BlockHeaderState :=
  bb.pending_block_header_state.finishNext bb.header

/-- One block of the controller. -/
def ScheduleState.produceBlock (st : ScheduleState) (b : BlockInput) :
    Except Exception ScheduleState := do
  let (bb, gpo) ← st.startBlock b.when b.confirm_block_count
  let gpo := b.proposals.foldl (fun gpo producers =>
    (setProposedProducers b.disallow_empty_producer_schedule st.head.block_num bb gpo producers).2) gpo
  let head ← bb.finalizeBlock
  pure ⟨head, gpo⟩

/-- A sequence of blocks of the controller. -/
def ScheduleState.run (st : ScheduleState) (blocks : List BlockInput) :
    Except Exception ScheduleState :=
  blocks.foldlM ScheduleState.produceBlock st

/-! ## What each part does -/

section Parts

variable {st : ScheduleState} {gpo gpo' : GlobalPropertyObject} {pbhs : PendingBlockHeaderState}

/-- `start_block` builds the pending state of `next` and promotes as `promoteProposed` does. -/
theorem startBlock_eq_ok {when : UInt32} {confirm_block_count : UInt16} {bb : BuildingBlock}
    (h : st.startBlock when confirm_block_count = .ok (bb, gpo')) :
    st.head.next when confirm_block_count = .ok bb.pending_block_header_state ∧
      promoteProposed st.gpo bb.pending_block_header_state =
        .ok (bb.new_pending_producer_schedule, gpo') := by
  unfold ScheduleState.startBlock at h
  obtain ⟨pbhs, hnext, h⟩ := bind_eq_ok.1 h
  obtain ⟨⟨np, gpo₁⟩, hpromote, h⟩ := bind_eq_ok.1 h
  cases h
  exact ⟨hnext, hpromote⟩

/-- The promotion either takes the proposed schedule, whose block is irreversible and with no
schedule pending before the block, or leaves the global properties as they are. -/
theorem promoteProposed_cases {np : Option ProducerAuthoritySchedule}
    (h : promoteProposed gpo pbhs = .ok (np, gpo')) :
    (∃ b, gpo.proposed_schedule_block_num = some b ∧ b ≤ pbhs.dpos_irreversible_blocknum ∧
        pbhs.prev_pending_schedule.schedule.producers = [] ∧
        np = some gpo.proposed_schedule ∧ gpo' = GlobalPropertyObject.empty) ∨
      ((∀ b, gpo.proposed_schedule_block_num = some b →
          ¬ (b ≤ pbhs.dpos_irreversible_blocknum ∧
            pbhs.prev_pending_schedule.schedule.producers = [])) ∧
        np = none ∧ gpo' = gpo) := by
  unfold promoteProposed at h
  split at h
  · next b hb =>
    split at h
    · next hcond =>
      obtain ⟨_, -, h⟩ := bind_eq_ok.1 h
      cases h
      exact .inl ⟨b, hb, hcond.1, hcond.2, rfl, rfl⟩
    · next hcond =>
      cases h
      refine .inr ⟨fun b' hb' => ?_, rfl, rfl⟩
      rw [hb] at hb'
      cases hb'
      exact hcond
  · next hb =>
    cases h
    refine .inr ⟨fun b' hb' => ?_, rfl, rfl⟩
    rw [hb] at hb'
    cases hb'

/-- The promotion passes its version check when the proposal is numbered after the active
schedule whenever no schedule was pending before the block. -/
theorem promoteProposed_ok
    (hversion : ∀ b, gpo.proposed_schedule_block_num = some b →
      pbhs.prev_pending_schedule.schedule.producers = [] →
      gpo.proposed_schedule.version = pbhs.active_schedule_version + 1) :
    ∃ r, promoteProposed gpo pbhs = .ok r := by
  unfold promoteProposed
  split
  · next b hb =>
    split
    · next hcond =>
      rw [hversion b hb hcond.2, beq_self_eq_true]
      exact ⟨_, rfl⟩
    · exact ⟨_, rfl⟩
  · exact ⟨_, rfl⟩

/-- A call of `set_proposed_producers` refuses and changes nothing, or stores the producers as
the proposal of the current block, numbered after the latest schedule, and returns that number. -/
theorem setProposedProducers_cases (disallow_empty_producer_schedule : Bool)
    (head_block_num : UInt32) (bb : BuildingBlock) (gpo : GlobalPropertyObject)
    (producers : List Name) :
    setProposedProducers disallow_empty_producer_schedule head_block_num bb gpo producers =
        (-1, gpo) ∨
      setProposedProducers disallow_empty_producer_schedule head_block_num bb gpo producers =
        (((bb.latestSchedule.version + 1).toNat : Int),
          ⟨some (head_block_num + 1), ⟨bb.latestSchedule.version + 1, producers⟩⟩) := by
  dsimp only [setProposedProducers]
  split_ifs
  · exact .inl rfl
  · exact .inl rfl
  · exact .inl rfl
  · exact .inr rfl

/-- A schedule proposed in an earlier block stays: every call of a later block refuses. -/
theorem setProposedProducers_of_earlier (disallow_empty_producer_schedule : Bool)
    {head_block_num b : UInt32} (bb : BuildingBlock) (producers : List Name)
    (hb : gpo.proposed_schedule_block_num = some b) (hlt : b ≠ head_block_num + 1) :
    setProposedProducers disallow_empty_producer_schedule head_block_num bb gpo producers =
      (-1, gpo) := by
  have hwaits : proposalWaits gpo (head_block_num + 1) producers = true := by
    unfold proposalWaits
    rw [hb]
    simp [hlt]
  simp only [setProposedProducers, hwaits, if_true, ite_self]

/-- A schedule proposed in an earlier block is still the proposal at the block's end. -/
theorem foldl_setProposedProducers_of_earlier (disallow_empty_producer_schedule : Bool)
    {head_block_num b : UInt32} (bb : BuildingBlock) (hb : gpo.proposed_schedule_block_num = some b)
    (hlt : b ≠ head_block_num + 1) :
    ∀ proposals : List (List Name), proposals.foldl (fun gpo producers =>
      (setProposedProducers disallow_empty_producer_schedule head_block_num bb gpo producers).2)
      gpo = gpo
  | [] => rfl
  | producers :: proposals => by
    rw [List.foldl_cons,
      setProposedProducers_of_earlier disallow_empty_producer_schedule bb producers hb hlt]
    exact foldl_setProposedProducers_of_earlier disallow_empty_producer_schedule bb hb hlt proposals

/-- What every call of a block keeps holds of the global properties at the block's end. -/
theorem foldl_setProposedProducers {P : GlobalPropertyObject → Prop}
    (disallow_empty_producer_schedule : Bool) (head_block_num : UInt32) (bb : BuildingBlock)
    (hstore : ∀ producers, P ⟨some (head_block_num + 1), ⟨bb.latestSchedule.version + 1, producers⟩⟩) :
    ∀ (proposals : List (List Name)) (gpo : GlobalPropertyObject), P gpo →
      P (proposals.foldl (fun gpo producers =>
        (setProposedProducers disallow_empty_producer_schedule head_block_num bb gpo producers).2)
        gpo)
  | [], _, hgpo => hgpo
  | producers :: proposals, gpo, hgpo => by
    rw [List.foldl_cons]
    apply foldl_setProposedProducers disallow_empty_producer_schedule head_block_num bb hstore
    rcases setProposedProducers_cases disallow_empty_producer_schedule head_block_num bb gpo
      producers with h | h
    · rw [h]
      exact hgpo
    · rw [h]
      exact hstore producers

/-- `finalize_block` passes the checks of `_finish_next` when a new pending schedule is numbered
after the active one, in a block that promoted nothing and had no schedule pending before it. -/
theorem finalizeBlock_ok {bb : BuildingBlock}
    (hnew : ∀ schedule, bb.new_pending_producer_schedule = some schedule →
      bb.pending_block_header_state.was_pending_promoted = false ∧
        schedule.version = bb.pending_block_header_state.active_schedule.version + 1 ∧
        bb.pending_block_header_state.prev_pending_schedule.schedule.producers = []) :
    ∃ head, bb.finalizeBlock = .ok head := by
  unfold BuildingBlock.finalizeBlock PendingBlockHeaderState.finishNext
    PendingBlockHeaderState.newSchedule
  simp only [BuildingBlock.header, beq_self_eq_true, eosAssert_true, bind_pure_comp]
  cases hsch : bb.new_pending_producer_schedule with
  | none => exact ⟨_, rfl⟩
  | some schedule =>
    obtain ⟨hpromoted, hversion, hempty⟩ := hnew schedule hsch
    simp only [hpromoted, hversion, hempty, beq_self_eq_true, List.isEmpty_nil, Bool.not_false,
      eosAssert_true]
    exact ⟨_, rfl⟩

/-- A block is `start_block`, the calls of its transactions on the global properties that
`start_block` leaves, and `finalize_block`. -/
theorem produceBlock_eq_ok {b : BlockInput} {st' : ScheduleState} (h : st.produceBlock b = .ok st') :
    ∃ bb gpo₁, st.startBlock b.when b.confirm_block_count = .ok (bb, gpo₁) ∧
      bb.finalizeBlock = .ok st'.head ∧
      st'.gpo = b.proposals.foldl (fun gpo producers =>
        (setProposedProducers b.disallow_empty_producer_schedule st.head.block_num bb gpo
          producers).2) gpo₁ := by
  unfold ScheduleState.produceBlock at h
  obtain ⟨⟨bb, gpo₁⟩, hstart, h⟩ := bind_eq_ok.1 h
  obtain ⟨head, hfin, h⟩ := bind_eq_ok.1 h
  cases h
  exact ⟨bb, gpo₁, hstart, hfin, rfl⟩

end Parts

end InfraBlockchain.Controller
