import Mathlib
import InfraBlockchain.Types
import InfraBlockchain.Lib.OrderStat
import InfraBlockchain.Lib.FlatMap

/-!
# Block header states

`block_header_state` (`block_header_state.cpp`) holds what validating the next block header needs:
the block number, the proposed and the settled last irreversible block
(`dpos_proposed_irreversible_blocknum`, `dpos_irreversible_blocknum`), the active producer
schedule, for each producer the last block it produced and the last block it implied
irreversible, and for each recent block the confirmations it still needs (`confirm_count`, oldest
first). `next(when, num_prev_blocks_to_confirm)` builds the `pending_block_header_state` of the
next block:

* the producer is the one that the active schedule gives the slot, twelve slots in a row each;
* the new block needs two thirds of the previous block's schedule plus one, as a `uint8_t`; the
  confirmations of the producer are spent from the newest block back, and the first block that
  needs none becomes the proposed last irreversible block, with every older one;
* the last irreversible block is the entry of rank a third of the producers' implied ones, the
  producer's own taken as the proposed one;
* a non-empty pending schedule becomes active once that block reaches the block where it became
  pending, and the two maps are rebuilt over its producers.

`_finish_next` then checks the signed header against the pending state and takes a new schedule
from it as pending, at the block's number.

Not modelled: block ids and the merkle of their ids, signatures and signing authorities, protocol
features, and the choice between the legacy field and the extension that carries a new schedule.
Each of them only adds checks that can reject a header, or fields that nothing here reads, so
every chain of header states of the code is one of the model. A `flat_map` is a list of pairs
(`FlatMap`).
-/

namespace InfraBlockchain.Chain

open FlatMap

/-- `config::producer_repetitions`. -/
def producerRepetitions : Nat := 12

/-- `config::maximum_tracked_dpos_confirmations`. -/
def maximumTrackedDposConfirmations : Nat := 1024

/-- `producer_authority_schedule`, with the names of its producers. -/
structure ProducerAuthoritySchedule where
  /-- `version`. -/
  version : UInt32
  /-- The names of `producers`, in the order of the schedule. -/
  producers : List Name
  deriving DecidableEq, Repr

/-- `detail::schedule_info`, without the hash. -/
structure ScheduleInfo where
  /-- `schedule_lib_num`: the block where the schedule became pending. -/
  schedule_lib_num : UInt32
  /-- `schedule`. -/
  schedule : ProducerAuthoritySchedule
  deriving DecidableEq, Repr

/-- The fields of `signed_block_header` that the transition reads; `new_producers` is the new
schedule that the header carries. -/
structure SignedBlockHeader where
  /-- `timestamp`, as its slot. -/
  timestamp : UInt32
  /-- `producer`. -/
  producer : Name
  /-- `confirmed`. -/
  confirmed : UInt16
  /-- `schedule_version`. -/
  schedule_version : UInt32
  /-- `new_producers`, or the schedule of a `producer_schedule_change_extension`. -/
  new_producers : Option ProducerAuthoritySchedule
  deriving DecidableEq, Repr

/-- `detail::block_header_state_common`. -/
structure BlockHeaderStateCommon where
  /-- `block_num`. -/
  block_num : UInt32
  /-- `dpos_proposed_irreversible_blocknum`. -/
  dpos_proposed_irreversible_blocknum : UInt32
  /-- `dpos_irreversible_blocknum`. -/
  dpos_irreversible_blocknum : UInt32
  /-- `active_schedule`. -/
  active_schedule : ProducerAuthoritySchedule
  /-- `producer_to_last_produced`. -/
  producer_to_last_produced : List (Name × UInt32)
  /-- `producer_to_last_implied_irb`. -/
  producer_to_last_implied_irb : List (Name × UInt32)
  /-- `confirm_count`, oldest block first. -/
  confirm_count : List UInt8
  deriving DecidableEq, Repr

/-- `pending_block_header_state`. -/
structure PendingBlockHeaderState extends BlockHeaderStateCommon where
  /-- `prev_pending_schedule`. -/
  prev_pending_schedule : ScheduleInfo
  /-- `was_pending_promoted`. -/
  was_pending_promoted : Bool
  /-- `producer`. -/
  producer : Name
  /-- `timestamp`, as its slot. -/
  timestamp : UInt32
  /-- `active_schedule_version`. -/
  active_schedule_version : UInt32
  /-- `confirmed`. -/
  confirmed : UInt16
  deriving DecidableEq, Repr

/-- `block_header_state`. -/
structure BlockHeaderState extends BlockHeaderStateCommon where
  /-- `header`. -/
  header : SignedBlockHeader
  /-- `pending_schedule`. -/
  pending_schedule : ScheduleInfo
  deriving DecidableEq, Repr

namespace BlockHeaderState

/-- `controller_impl::initialize_blockchain_state`: block `1`, nothing irreversible, no
confirmations and empty maps, with the initial schedule both active and pending. -/
def genesis (initial_schedule : ProducerAuthoritySchedule) (initial_timestamp : UInt32) :
    BlockHeaderState where
  block_num := 1
  dpos_proposed_irreversible_blocknum := 0
  dpos_irreversible_blocknum := 0
  active_schedule := initial_schedule
  producer_to_last_produced := []
  producer_to_last_implied_irb := []
  confirm_count := []
  header := ⟨initial_timestamp, default, 1, 0, none⟩
  pending_schedule := ⟨0, initial_schedule⟩

/-- `get_scheduled_producer`: each producer of the active schedule for `producer_repetitions`
slots in turn. On an empty schedule the source divides by zero; the model returns the default
name there. -/
def getScheduledProducer (s : BlockHeaderState) (t : UInt32) : Name :=
  let index := t.toNat % (s.active_schedule.producers.length * producerRepetitions) /
    producerRepetitions
  s.active_schedule.producers.getD index default

/-- The vector `blocknums` of `calc_dpos_last_irreversible`: the last implied irreversible block
of each producer, the next block's producer's taken as the proposed one. -/
def impliedBlocknums (s : BlockHeaderState) (producer_of_next_block : Name) : List Nat :=
  s.producer_to_last_implied_irb.map fun i =>
    if i.1 = producer_of_next_block then s.dpos_proposed_irreversible_blocknum.toNat
    else i.2.toNat

/-- `calc_dpos_last_irreversible`: the entry of rank `(size - 1) / 3` of `blocknums`, which two
thirds of the producers have passed. -/
def calcDposLastIrreversible (s : BlockHeaderState) (producer_of_next_block : Name) : UInt32 :=
  let blocknums := s.impliedBlocknums producer_of_next_block
  if blocknums.length = 0 then 0
  else (OrderStat.kthSmallest blocknums ((blocknums.length - 1) / 3) 0).toUInt32

/-- The timestamp of the next block: `when`, which must come after this block's, or this block's
next slot when `when` is the default. -/
def nextTimestamp (s : BlockHeaderState) (when : UInt32) : Except Exception UInt32 :=
  if when ≠ 0 then do
    eosAssert (when > s.header.timestamp) .block_validate_exception
      "next block must be in the future"
    pure when
  else pure (s.header.timestamp + 1)

/-- The check of `next` that a producer does not confirm blocks it has confirmed before. -/
def checkDoubleConfirm (s : BlockHeaderState) (producer : Name)
    (num_prev_blocks_to_confirm : UInt16) : Except Exception Unit :=
  match s.producer_to_last_produced.lookup producer with
  | some last_produced =>
    eosAssert (last_produced < s.block_num + 1 - num_prev_blocks_to_confirm.toUInt32)
      .producer_double_confirm "producer ${prod} double-confirming known range"
  | none => pure ()

end BlockHeaderState

/-- The confirmations of a new block appended, the oldest entry dropped when
`maximum_tracked_dpos_confirmations` entries are tracked already. -/
def pushConfirmCount (confirm_count : List UInt8) (required_confs : UInt8) : List UInt8 :=
  if confirm_count.length < maximumTrackedDposConfirmations then confirm_count ++ [required_confs]
  else confirm_count.tail ++ [required_confs]

/-- The loop of `next` that spends a producer's confirmations, entry `i` down: the entry is
decremented, and when it reaches zero its block, `block_num - (size - 1 - i)`, is the new proposed
last irreversible block and the loop stops. The argument `i + 1` stands for the source's `i`, so
that `0` is its `i < 0`; `blocks_to_confirm` counts the confirmations left. -/
def confirmLoop (block_num : UInt32) :
    List UInt8 → Nat → Nat → UInt32 → List UInt8 × UInt32
  | confirm_count, 0, _, proposed => (confirm_count, proposed)
  | confirm_count, _ + 1, 0, proposed => (confirm_count, proposed)
  | confirm_count, i + 1, blocks_to_confirm + 1, proposed =>
    let confirm_count := confirm_count.modify i (· - 1)
    if confirm_count.getD i 0 = 0 then
      -- both branches of the source keep the entries after `i`: none when `i` is the last
      (confirm_count.drop (i + 1), block_num - (confirm_count.length - 1 - i).toUInt32)
    else confirmLoop block_num confirm_count i blocks_to_confirm proposed

/-- The two maps that a promotion rebuilds over the producers of the new schedule: the block's
producer gets `own`, a producer of the old map keeps its value, and a new one gets `fresh`. -/
def rebuildMap (producers : List Name) (producer : Name) (own : UInt32)
    (old : List (Name × UInt32)) (fresh : UInt32) : List (Name × UInt32) :=
  producers.foldl
    (fun m pro => assign m pro (if pro = producer then own else (old.lookup pro).getD fresh)) []

namespace BlockHeaderState

/-- The body of `next` once the timestamp and the producer are known. -/
def buildPending (s : BlockHeaderState) (when : UInt32) (num_prev_blocks_to_confirm : UInt16)
    (producer : Name) : PendingBlockHeaderState :=
  let block_num := s.block_num + 1
  -- the previous block's schedule signs, and so confirms, this block
  let required_confs : UInt32 := (s.active_schedule.producers.length * 2 / 3).toUInt32 + 1
  let pushed := pushConfirmCount s.confirm_count required_confs.toUInt8
  let confirmed := confirmLoop block_num pushed pushed.length
    (num_prev_blocks_to_confirm.toNat + 1) s.dpos_proposed_irreversible_blocknum
  let dpos_irreversible_blocknum := s.calcDposLastIrreversible producer
  let promoted := !s.pending_schedule.schedule.producers.isEmpty &&
    decide (dpos_irreversible_blocknum ≥ s.pending_schedule.schedule_lib_num)
  { block_num
    dpos_proposed_irreversible_blocknum := confirmed.2
    dpos_irreversible_blocknum
    active_schedule := if promoted then s.pending_schedule.schedule else s.active_schedule
    producer_to_last_produced :=
      if promoted then
        assign (rebuildMap s.pending_schedule.schedule.producers producer block_num
          s.producer_to_last_produced dpos_irreversible_blocknum) producer block_num
      else assign s.producer_to_last_produced producer block_num
    producer_to_last_implied_irb :=
      if promoted then
        rebuildMap s.pending_schedule.schedule.producers producer
          s.dpos_proposed_irreversible_blocknum s.producer_to_last_implied_irb
          dpos_irreversible_blocknum
      else assign s.producer_to_last_implied_irb producer s.dpos_proposed_irreversible_blocknum
    confirm_count := confirmed.1
    prev_pending_schedule := s.pending_schedule
    was_pending_promoted := promoted
    producer
    timestamp := when
    active_schedule_version := s.active_schedule.version
    confirmed := num_prev_blocks_to_confirm }

/-- `block_header_state::next(when, num_prev_blocks_to_confirm)`. -/
def next (s : BlockHeaderState) (when : UInt32) (num_prev_blocks_to_confirm : UInt16) :
    Except Exception PendingBlockHeaderState := do
  let when ← s.nextTimestamp when
  let producer := s.getScheduledProducer when
  s.checkDoubleConfirm producer num_prev_blocks_to_confirm
  pure (s.buildPending when num_prev_blocks_to_confirm producer)

end BlockHeaderState

namespace PendingBlockHeaderState

/-- The new schedule of a signed header, which must come with the version after the active one,
not in a block that promoted the pending schedule, and only when none is pending. -/
def newSchedule (p : PendingBlockHeaderState) (h : SignedBlockHeader) :
    Except Exception (Option ProducerAuthoritySchedule) :=
  match h.new_producers with
  | none => pure none
  | some new_producers => do
    eosAssert (!p.was_pending_promoted) .producer_schedule_exception
      "cannot set pending producer schedule in the same block in which pending was promoted to active"
    eosAssert (new_producers.version == p.active_schedule.version + 1)
      .producer_schedule_exception "wrong producer schedule version specified"
    eosAssert p.prev_pending_schedule.schedule.producers.isEmpty .producer_schedule_exception
      "cannot set new pending producers until last pending is confirmed"
    pure (some new_producers)

/-- `pending_block_header_state::_finish_next`: the header checked against the pending state, and
the pending schedule that follows: a new one at this block, an emptied one after a promotion, or
the previous one. -/
def finishNext (p : PendingBlockHeaderState) (h : SignedBlockHeader) :
    Except Exception BlockHeaderState := do
  eosAssert (h.timestamp == p.timestamp) .block_validate_exception "timestamp mismatch"
  eosAssert (h.confirmed == p.confirmed) .block_validate_exception "confirmed mismatch"
  eosAssert (h.producer == p.producer) .wrong_producer "wrong producer specified"
  eosAssert (h.schedule_version == p.active_schedule_version) .producer_schedule_exception
    "schedule_version in signed block is corrupted"
  let maybe_new_producer_schedule ← p.newSchedule h
  let pending_schedule : ScheduleInfo :=
    match maybe_new_producer_schedule with
    | some schedule => ⟨p.block_num, schedule⟩
    | none =>
      if p.was_pending_promoted then
        ⟨p.prev_pending_schedule.schedule_lib_num, ⟨p.prev_pending_schedule.schedule.version, []⟩⟩
      else p.prev_pending_schedule
  pure { toBlockHeaderStateCommon := p.toBlockHeaderStateCommon, header := h, pending_schedule }

end PendingBlockHeaderState

/-- `block_header_state::next(h, ...)`: the pending state of the header's timestamp and
confirmations, finished with the header. -/
def BlockHeaderState.nextOfHeader (s : BlockHeaderState) (h : SignedBlockHeader) :
    Except Exception BlockHeaderState := do
  let p ← s.next h.timestamp h.confirmed
  p.finishNext h

/-! ## The parts of a step -/

/-- A natural number below `2 ^ 32` is read back from its 32-bit word. -/
theorem toNat_toUInt32_of_lt {n : Nat} (h : n < 2 ^ 32) : n.toUInt32.toNat = n := by
  rw [Nat.toUInt32, UInt32.toNat_ofNat', Nat.mod_eq_of_lt h]

/-- A block number below `2 ^ 32 - 1` is incremented without wrapping. -/
theorem toNat_add_one_of_lt {a : UInt32} (h : a.toNat + 1 < 2 ^ 32) :
    (a + 1).toNat = a.toNat + 1 := by
  rw [UInt32.toNat_add, UInt32.toNat_one, Nat.mod_eq_of_lt h]

namespace BlockHeaderState

/-- On a schedule with producers, the scheduled producer of every slot is one of them: the index
stays below the number of producers. -/
theorem getScheduledProducer_mem {s : BlockHeaderState} (h : s.active_schedule.producers ≠ [])
    (t : UInt32) : s.getScheduledProducer t ∈ s.active_schedule.producers := by
  unfold getScheduledProducer
  have hn : 0 < s.active_schedule.producers.length := List.length_pos_of_ne_nil h
  have hmod : t.toNat % (s.active_schedule.producers.length * producerRepetitions) <
      producerRepetitions * s.active_schedule.producers.length := by
    rw [Nat.mul_comm producerRepetitions]
    exact Nat.mod_lt _ (Nat.mul_pos hn (by decide))
  have hindex := Nat.div_lt_of_lt_mul hmod
  rw [List.getD_eq_getElem _ _ hindex]
  exact List.getElem_mem hindex

/-- `calc_dpos_last_irreversible` as a number: the entry of rank `(size - 1) / 3`, or `0` without
producers. -/
theorem toNat_calcDposLastIrreversible (s : BlockHeaderState) (p : Name) :
    (s.calcDposLastIrreversible p).toNat =
      if (s.impliedBlocknums p).length = 0 then 0
      else OrderStat.kthSmallest (s.impliedBlocknums p)
        (((s.impliedBlocknums p).length - 1) / 3) 0 := by
  unfold calcDposLastIrreversible
  dsimp only
  by_cases hempty : (s.impliedBlocknums p).length = 0
  · rw [if_pos hempty, if_pos hempty]
    rfl
  · rw [if_neg hempty, if_neg hempty]
    -- every entry is a 32-bit block number, and so is the one selected
    have hbound : ∀ x ∈ s.impliedBlocknums p, x ≤ 2 ^ 32 - 1 := by
      intro x hx
      obtain ⟨e, -, rfl⟩ := List.mem_map.1 hx
      have h₁ := UInt32.toNat_lt s.dpos_proposed_irreversible_blocknum
      have h₂ := UInt32.toNat_lt e.2
      split <;> omega
    have hk := OrderStat.kthSmallest_le hbound (Nat.zero_le _)
      (((s.impliedBlocknums p).length - 1) / 3)
    apply toNat_toUInt32_of_lt
    omega

/-- When no producer has implied a block past the proposed one, neither does the last irreversible
block. -/
theorem calcDposLastIrreversible_le {s : BlockHeaderState}
    (h : ∀ e ∈ s.producer_to_last_implied_irb,
      e.2.toNat ≤ s.dpos_proposed_irreversible_blocknum.toNat) (p : Name) :
    (s.calcDposLastIrreversible p).toNat ≤ s.dpos_proposed_irreversible_blocknum.toNat := by
  rw [toNat_calcDposLastIrreversible]
  split
  · exact Nat.zero_le _
  · apply OrderStat.kthSmallest_le _ (Nat.zero_le _)
    intro x hx
    obtain ⟨e, he, rfl⟩ := List.mem_map.1 hx
    split
    · exact le_rfl
    · exact h e he

/-- `calc_dpos_last_irreversible` is the two-thirds order statistic: the largest implied block
that more than two thirds of the producers have reached, the next block's producer's entry being
the proposed block; `0` without producers. -/
theorem calc_dpos_last_irreversible_two_thirds (s : BlockHeaderState) (p : Name) :
    let n := s.producer_to_last_implied_irb.length
    let blocknums := s.impliedBlocknums p
    (n = 0 → s.calcDposLastIrreversible p = 0) ∧
      (0 < n → IsGreatest
        {b | b ∈ blocknums ∧ 2 * n < 3 * blocknums.countP (fun x => decide (b ≤ x))}
        (s.calcDposLastIrreversible p).toNat) := by
  dsimp only
  have hlen : (s.impliedBlocknums p).length = s.producer_to_last_implied_irb.length :=
    List.length_map _
  refine ⟨fun hn => ?_, fun hpos => ?_⟩
  · rw [calcDposLastIrreversible, if_pos (hlen.trans hn)]
  · rw [toNat_calcDposLastIrreversible, if_neg (by omega)]
    -- the rank `(n - 1) / 3` is a third of the entries, rounded down, short of `n`
    have hk : ((s.impliedBlocknums p).length - 1) / 3 < (s.impliedBlocknums p).length := by
      omega
    refine ⟨⟨OrderStat.kthSmallest_mem hk 0, ?_⟩, fun b ⟨_, hcount⟩ => ?_⟩
    · have hge := OrderStat.length_sub_le_countP_kthSmallest hk 0
      omega
    · by_contra hlt
      have hle := OrderStat.countP_le_of_kthSmallest_lt hk (not_le.1 hlt)
      omega

/-- With three producers at implied irreversible blocks 5, 7 and 9, and a fourth producing next, the
last irreversible block is the greatest that more than two thirds of the list reach. -/
theorem last_irreversible_of_three_producers :
    let s : BlockHeaderState :=
      { genesis ⟨0, []⟩ 0 with producer_to_last_implied_irb := [(⟨1⟩, 5), (⟨2⟩, 7), (⟨3⟩, 9)] }
    IsGreatest {b | b ∈ s.impliedBlocknums ⟨4⟩ ∧ 2 * s.producer_to_last_implied_irb.length <
        3 * (s.impliedBlocknums ⟨4⟩).countP (fun x => decide (b ≤ x))}
      (s.calcDposLastIrreversible ⟨4⟩).toNat :=
  (calc_dpos_last_irreversible_two_thirds _ _).2 (by decide)

end BlockHeaderState

/-- The entries before the new one are entries of the old list. -/
theorem pushConfirmCount_eq_append (confirm_count : List UInt8) (required_confs : UInt8) :
    ∃ init, pushConfirmCount confirm_count required_confs = init ++ [required_confs] ∧
      ∀ c ∈ init, c ∈ confirm_count := by
  unfold pushConfirmCount
  split
  · exact ⟨confirm_count, rfl, fun _ hc => hc⟩
  · exact ⟨confirm_count.tail, rfl, fun _ hc => List.mem_of_mem_tail hc⟩

/-- A push keeps at most `maximum_tracked_dpos_confirmations` entries, and adds one at most. -/
theorem length_pushConfirmCount {confirm_count : List UInt8}
    (h : confirm_count.length ≤ maximumTrackedDposConfirmations) (required_confs : UInt8) :
    (pushConfirmCount confirm_count required_confs).length ≤ maximumTrackedDposConfirmations ∧
      (pushConfirmCount confirm_count required_confs).length ≤ confirm_count.length + 1 := by
  unfold pushConfirmCount
  split
  · rw [List.length_append, List.length_singleton]
    omega
  · next hfull =>
    -- a full list has an oldest entry to drop
    rw [List.length_append, List.length_tail, List.length_singleton]
    have hpos : 0 < confirm_count.length := by
      unfold maximumTrackedDposConfirmations at hfull
      omega
    constructor <;> omega

/-- The loop ends in one of two ways: no entry reaches zero and the list keeps its length and the
proposed block, or the entries after the one that did are kept and the proposed block is the block
that many before `block_num`. By induction on the index. -/
theorem confirmLoop_spec (block_num : UInt32) :
    ∀ (i b : Nat) (confirm_count : List UInt8) (proposed : UInt32), i ≤ confirm_count.length →
      ((confirmLoop block_num confirm_count i b proposed).2 = proposed ∧
          (confirmLoop block_num confirm_count i b proposed).1.length = confirm_count.length) ∨
        ((confirmLoop block_num confirm_count i b proposed).2 =
            block_num - (confirmLoop block_num confirm_count i b proposed).1.length.toUInt32 ∧
          (confirmLoop block_num confirm_count i b proposed).1.length < confirm_count.length)
  | 0, _, _, _, _ => .inl ⟨rfl, rfl⟩
  | _ + 1, 0, _, _, _ => .inl ⟨rfl, rfl⟩
  | i + 1, b + 1, confirm_count, proposed, hi => by
    simp only [confirmLoop]
    split
    · -- entry `i` reached zero: the `size - 1 - i` entries after it remain
      refine .inr ⟨?_, ?_⟩
      · dsimp only
        rw [List.length_drop, List.length_modify, Nat.sub_sub, Nat.add_comm 1 i]
      · dsimp only
        rw [List.length_drop, List.length_modify]
        omega
    · have hlen := List.length_modify (· - 1) confirm_count i
      rcases confirmLoop_spec block_num i b (confirm_count.modify i (· - 1)) proposed
        (by omega) with h | h
      · exact .inl ⟨h.1, h.2.trans hlen⟩
      · exact .inr ⟨h.1, h.2.trans_eq hlen⟩

/-- A decrement at `i` that leaves a non-zero entry keeps every entry non-zero. -/
theorem ne_zero_of_mem_modify {l : List UInt8} {i : Nat} (hl : ∀ c ∈ l, c ≠ 0)
    (hi : (l.modify i (· - 1)).getD i 0 ≠ 0) : ∀ c ∈ l.modify i (· - 1), c ≠ 0 := by
  intro c hc
  obtain ⟨j, hj, rfl⟩ := List.getElem_of_mem hc
  by_cases hij : i = j
  · subst hij
    rwa [List.getD_eq_getElem _ _ hj] at hi
  · rw [List.getElem_modify, if_neg hij]
    exact hl _ (List.getElem_mem _)

/-- The loop keeps every entry non-zero: it stops at the first entry that reaches zero and drops
it with the older ones. -/
theorem confirmLoop_ne_zero (block_num : UInt32) :
    ∀ (i b : Nat) (confirm_count : List UInt8) (proposed : UInt32), (∀ c ∈ confirm_count, c ≠ 0) →
      ∀ c ∈ (confirmLoop block_num confirm_count i b proposed).1, c ≠ 0
  | 0, _, _, _, h => h
  | _ + 1, 0, _, _, h => h
  | i + 1, b + 1, confirm_count, proposed, h => by
    simp only [confirmLoop]
    split
    · intro c hc
      rw [List.drop_modify_of_lt _ _ _ _ (Nat.lt_succ_self i)] at hc
      exact h c (List.mem_of_mem_drop hc)
    · next hi =>
      exact confirmLoop_ne_zero block_num i b _ proposed (ne_zero_of_mem_modify h hi)

/-- The loop over a new block's entry appended to non-zero entries leaves non-zero entries: its
first iteration decrements the new entry, which either reaches zero and goes with all the others,
or stays non-zero. -/
theorem confirmLoop_push_ne_zero (block_num : UInt32) {init : List UInt8}
    (hinit : ∀ c ∈ init, c ≠ 0) (required_confs : UInt8) (b : Nat) (proposed : UInt32) :
    ∀ c ∈ (confirmLoop block_num (init ++ [required_confs]) (init ++ [required_confs]).length
      (b + 1) proposed).1, c ≠ 0 := by
  have hmodify : (init ++ [required_confs]).modify init.length (· - 1) =
      init ++ [required_confs - 1] := by
    rw [List.modify_eq_take_cons_drop (by simp)]
    simp
  rw [List.length_append, List.length_singleton]
  simp only [confirmLoop, hmodify]
  split
  · intro c hc
    simp at hc
  · next hnew =>
    refine confirmLoop_ne_zero block_num init.length b _ proposed ?_
    intro c hc
    rcases List.mem_append.1 hc with hc | hc
    · exact hinit c hc
    · rw [List.mem_singleton.1 hc]
      simpa using hnew

/-- What one step does to the confirmations: at most `maximum_tracked_dpos_confirmations`
entries, all non-zero, a proposed block that does not go back, and as many blocks after it as
entries. -/
theorem confirmLoop_pushConfirmCount {block_num : UInt32} {confirm_count : List UInt8}
    {proposed : UInt32} (hlen : confirm_count.length ≤ maximumTrackedDposConfirmations)
    (hne : ∀ c ∈ confirm_count, c ≠ 0)
    (hproposed : proposed.toNat + confirm_count.length ≤ block_num.toNat)
    (hbn : block_num.toNat + 1 < 2 ^ 32) (required_confs : UInt8) (b : Nat) :
    (confirmLoop (block_num + 1) (pushConfirmCount confirm_count required_confs)
        (pushConfirmCount confirm_count required_confs).length (b + 1) proposed).1.length ≤
        maximumTrackedDposConfirmations ∧
      (∀ c ∈ (confirmLoop (block_num + 1) (pushConfirmCount confirm_count required_confs)
        (pushConfirmCount confirm_count required_confs).length (b + 1) proposed).1, c ≠ 0) ∧
      proposed.toNat ≤ (confirmLoop (block_num + 1) (pushConfirmCount confirm_count required_confs)
        (pushConfirmCount confirm_count required_confs).length (b + 1) proposed).2.toNat ∧
      (confirmLoop (block_num + 1) (pushConfirmCount confirm_count required_confs)
          (pushConfirmCount confirm_count required_confs).length (b + 1) proposed).2.toNat +
        (confirmLoop (block_num + 1) (pushConfirmCount confirm_count required_confs)
          (pushConfirmCount confirm_count required_confs).length (b + 1) proposed).1.length ≤
        block_num.toNat + 1 := by
  obtain ⟨hpush_max, hpush_len⟩ := length_pushConfirmCount hlen required_confs
  obtain ⟨init, hpush, hinit⟩ := pushConfirmCount_eq_append confirm_count required_confs
  have hne' := confirmLoop_push_ne_zero (block_num + 1) (fun c hc => hne c (hinit c hc))
    required_confs b proposed
  rw [← hpush] at hne'
  have hbn' : (block_num + 1).toNat = block_num.toNat + 1 := toNat_add_one_of_lt hbn
  rcases confirmLoop_spec (block_num + 1) _ (b + 1) (pushConfirmCount confirm_count required_confs)
    proposed le_rfl with ⟨hres, hlen'⟩ | ⟨hres, hlen'⟩
  · -- no block became irreversible
    rw [hres, hlen']
    exact ⟨hpush_max, hne', le_rfl, by omega⟩
  · -- the remaining entries are the blocks after the new proposed one
    set r := confirmLoop (block_num + 1) (pushConfirmCount confirm_count required_confs)
      (pushConfirmCount confirm_count required_confs).length (b + 1) proposed
    have hr : r.1.length.toUInt32.toNat = r.1.length := toNat_toUInt32_of_lt (by
      unfold maximumTrackedDposConfirmations at hpush_max
      omega)
    have hle : r.1.length.toUInt32 ≤ block_num + 1 := by
      rw [UInt32.le_iff_toNat_le, hr, hbn']
      omega
    have hsub : r.2.toNat = block_num.toNat + 1 - r.1.length := by
      rw [hres, UInt32.toNat_sub_of_le _ _ hle, hr, hbn']
    exact ⟨by omega, hne', by omega, by omega⟩

/-! ## The maps that a promotion rebuilds -/

/-- A rebuilt map has the producers of the new schedule as its keys. -/
theorem mem_keys_rebuildMap (producers : List Name) (producer : Name) (own : UInt32)
    (old : List (Name × UInt32)) (fresh : UInt32) (k : Name) :
    k ∈ (rebuildMap producers producer own old fresh).map Prod.fst ↔ k ∈ producers := by
  unfold rebuildMap
  rw [mem_keys_foldl_assign]
  simp

/-- The rebuilt map has one entry a producer. -/
theorem nodup_keys_rebuildMap (producers : List Name) (producer : Name) (own : UInt32)
    (old : List (Name × UInt32)) (fresh : UInt32) :
    ((rebuildMap producers producer own old fresh).map Prod.fst).Nodup :=
  nodup_keys_foldl_assign _ producers List.nodup_nil

/-- A bound met by the producer's value, by every old value and by the fresh one holds for every
value of a rebuilt map. -/
theorem forall_rebuildMap {P : UInt32 → Prop} (producers : List Name) (producer : Name)
    {own : UInt32} {old : List (Name × UInt32)} {fresh : UInt32} (hown : P own)
    (hold : ∀ e ∈ old, P e.2) (hfresh : P fresh) :
    ∀ e ∈ rebuildMap producers producer own old fresh, P e.2 := by
  unfold rebuildMap
  refine forall_foldl_assign _ producers (fun pro _ => ?_) (fun _ he => by simp at he)
  split
  · exact hown
  · cases hlookup : old.lookup pro with
    | none => exact hfresh
    | some v => exact hold _ (mem_of_lookup_eq_some hlookup)

/-! ## A whole step -/

/-- Finishing a pending state keeps its common part. -/
theorem PendingBlockHeaderState.finishNext_common {p : PendingBlockHeaderState}
    {h : SignedBlockHeader} {s' : BlockHeaderState} (hfinish : p.finishNext h = .ok s') :
    s'.toBlockHeaderStateCommon = p.toBlockHeaderStateCommon := by
  unfold PendingBlockHeaderState.finishNext at hfinish
  obtain ⟨_, -, hfinish⟩ := bind_eq_ok.1 hfinish
  obtain ⟨_, -, hfinish⟩ := bind_eq_ok.1 hfinish
  obtain ⟨_, -, hfinish⟩ := bind_eq_ok.1 hfinish
  obtain ⟨_, -, hfinish⟩ := bind_eq_ok.1 hfinish
  obtain ⟨_, -, hfinish⟩ := bind_eq_ok.1 hfinish
  cases hfinish
  rfl

/-- The pending schedule that `_finish_next` stores: the header's new schedule at the block's
number, an emptied one after a promotion, or the one pending before the block. -/
theorem PendingBlockHeaderState.finishNext_pending {p : PendingBlockHeaderState}
    {h : SignedBlockHeader} {s' : BlockHeaderState} (hfinish : p.finishNext h = .ok s') :
    s'.pending_schedule =
      match h.new_producers with
      | some schedule => ⟨p.block_num, schedule⟩
      | none =>
        if p.was_pending_promoted then
          ⟨p.prev_pending_schedule.schedule_lib_num, ⟨p.prev_pending_schedule.schedule.version, []⟩⟩
        else p.prev_pending_schedule := by
  unfold PendingBlockHeaderState.finishNext at hfinish
  obtain ⟨_, -, hfinish⟩ := bind_eq_ok.1 hfinish
  obtain ⟨_, -, hfinish⟩ := bind_eq_ok.1 hfinish
  obtain ⟨_, -, hfinish⟩ := bind_eq_ok.1 hfinish
  obtain ⟨_, -, hfinish⟩ := bind_eq_ok.1 hfinish
  obtain ⟨np, hnew, hfinish⟩ := bind_eq_ok.1 hfinish
  cases hfinish
  -- `newSchedule` passes the header's schedule on, or none
  unfold PendingBlockHeaderState.newSchedule at hnew
  split at hnew
  · next hnone =>
    cases hnew
    rw [hnone]
  · next sch hsome =>
    obtain ⟨_, -, hnew⟩ := bind_eq_ok.1 hnew
    obtain ⟨_, -, hnew⟩ := bind_eq_ok.1 hnew
    obtain ⟨_, -, hnew⟩ := bind_eq_ok.1 hnew
    cases hnew
    rw [hsome]

/-- `next` that succeeds builds the pending state of some timestamp, with the producer of that
slot. -/
theorem BlockHeaderState.next_eq_ok {s : BlockHeaderState} {when : UInt32} {conf : UInt16}
    {p : PendingBlockHeaderState} (hnext : s.next when conf = .ok p) :
    ∃ w, p = s.buildPending w conf (s.getScheduledProducer w) := by
  unfold BlockHeaderState.next at hnext
  obtain ⟨w, -, hp⟩ := bind_eq_ok.1 hnext
  obtain ⟨_, -, hp⟩ := bind_eq_ok.1 hp
  cases hp
  exact ⟨w, rfl⟩

/-- A step from a signed header builds its common part as `next` does at some timestamp, with the
producer of that slot. -/
theorem BlockHeaderState.nextOfHeader_common {s s' : BlockHeaderState} {h : SignedBlockHeader}
    (hnext : s.nextOfHeader h = .ok s') :
    ∃ w, s'.toBlockHeaderStateCommon =
      (s.buildPending w h.confirmed (s.getScheduledProducer w)).toBlockHeaderStateCommon := by
  unfold BlockHeaderState.nextOfHeader at hnext
  obtain ⟨p, hp, hfinish⟩ := bind_eq_ok.1 hnext
  obtain ⟨w, rfl⟩ := BlockHeaderState.next_eq_ok hp
  exact ⟨w, PendingBlockHeaderState.finishNext_common hfinish⟩

end InfraBlockchain.Chain
