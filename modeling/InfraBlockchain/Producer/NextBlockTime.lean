import Mathlib
import InfraBlockchain.Lib.RoundRobin
import InfraBlockchain.Lib.OrderStat
import InfraBlockchain.Lib.WordArith
import InfraBlockchain.Chain.BlockHeaderState

/-!
# The next production slot

`producer_plugin_impl::calculate_next_block_time(producer_name, current_block_time)`
(`producer_plugin.cpp`) says when a producer of this node may produce next: never when it is not
in the active schedule of the head block, and otherwise at the first slot of its own after
`current_block_time` that also lies past its watermark, the block number and the slot of the
last block it signed (`consider_new_watermark`). The arithmetic is the source's: slots are
`uint32_t`, and the distance from the minimum slot's producer to this one is a `size_t`
subtraction that wraps below zero and takes the schedule's size back.
`calculate_producer_wake_up_time` is one block interval before the earliest of these times over
the node's producers.

Under the slot arithmetic lies a round robin of twelve slots a producer (`RoundRobin`): the slot
that the source computes from the minimum slot is the round robin's first turn of the producer
from it, whenever that turn is a `uint32_t` (`toNat_nextProducerSlot`); the minimum slot is the
reference slot plus the least offset that the watermark admits (`toNat_minimumOffset`); and a
slot is admissible exactly when it is at least the minimum slot and is the producer's
(`isAdmissibleSlot_iff`). So the time returned is that of the least admissible slot, as soon as
any slot of `uint32_t` is admissible (`next_block_time_earliest`).

Times are microseconds, as `fc::time_point`. `_producer_watermarks` is a `std::map` and
`_producers` a `std::set`, both lists here: a lookup finds the one entry of a key, and the wake-up
time is a minimum, which does not depend on the order. Products of the schedule's size are
counted in `Nat`, as in `get_scheduled_producer`: no schedule has `2^64 / 12` producers.
-/

namespace InfraBlockchain.Producer

open Chain RoundRobin

/-- `config::block_interval_ms`. -/
def blockIntervalMs : Nat := 500

/-- `config::block_interval_us`. -/
def blockIntervalUs : Nat := blockIntervalMs * 1000

/-- `config::block_timestamp_epoch`, in milliseconds. -/
def blockTimestampEpoch : Nat := 946684800000

/-- `block_timestamp_type(slot).to_time_point()`, in microseconds. -/
def slotTimePoint (slot : UInt32) : Nat :=
  (slot.toNat * blockIntervalMs + blockTimestampEpoch) * 1000

/-- What `calculate_next_block_time` and `calculate_producer_wake_up_time` read of
`producer_plugin_impl` and of its chain. -/
structure ProducerPluginImpl where
  /-- `chain.head_block_state()`. -/
  head : BlockHeaderState
  /-- `chain.is_building_block()`. -/
  building_block : Bool
  /-- `_producer_watermarks`: the block number and the slot of each producer's watermark. -/
  producer_watermarks : List (Name × UInt32 × UInt32)
  /-- `_producers`. -/
  producers : List Name

namespace ProducerPluginImpl

/-- `get_watermark(producer)`. -/
def getWatermark (s : ProducerPluginImpl) (producer : Name) : Option (UInt32 × UInt32) :=
  s.producer_watermarks.lookup producer

/-- The block number that a watermark is compared with: the head block's, or the next one while
a block is being built. -/
def watermarkBlockNum (s : ProducerPluginImpl) : UInt32 :=
  if s.building_block then s.head.block_num + 1 else s.head.block_num

/-- The local `minimum_offset` of `calculate_next_block_time`: the next slot at least, and past
the producer's watermark. -/
def minimumOffset (s : ProducerPluginImpl) (producer_name : Name) (current_block_time : UInt32) :
    UInt32 :=
  match s.getWatermark producer_name with
  | none => 1
  | some watermark =>
    let block_num := s.watermarkBlockNum
    let minimum_offset : UInt32 :=
      if watermark.1 > block_num then watermark.1 - block_num + 1 else 1
    if watermark.2 > current_block_time then
      max minimum_offset (watermark.2 - current_block_time + 1)
    else minimum_offset

/-- The slot whose time `calculate_next_block_time` returns, for the producer at `producer_index`
of a schedule of `size` producers, from `minimum_slot`: that slot when it is the producer's, and
otherwise the first slot of the producer's next turn. The distance between the two turns is a
`size_t` subtraction; a result above `producer_index` is how the source detects that it wrapped. -/
def nextProducerSlot (size producer_index : Nat) (minimum_slot : UInt32) : UInt32 :=
  let minimum_slot_producer_index :=
    minimum_slot.toNat % (size * producerRepetitions) / producerRepetitions
  if producer_index = minimum_slot_producer_index then minimum_slot
  else
    let producer_distance := (producer_index + 2 ^ 64 - minimum_slot_producer_index) % 2 ^ 64
    let producer_distance :=
      if producer_distance > producer_index then (producer_distance + size) % 2 ^ 64
      else producer_distance
    let first_minimum_producer_slot :=
      minimum_slot - minimum_slot % producerRepetitions.toUInt32
    -- the `size_t` sum is cut to `uint32_t`, whose modulus divides that of `size_t`
    (first_minimum_producer_slot.toNat + producer_distance * producerRepetitions).toUInt32

/-- `calculate_next_block_time(producer_name, current_block_time)`. -/
def calculateNextBlockTime (s : ProducerPluginImpl) (producer_name : Name)
    (current_block_time : UInt32) : Option Nat :=
  let active_schedule := s.head.active_schedule.producers
  match active_schedule.findIdx? (· == producer_name) with
  | none => none
  | some producer_index =>
    let minimum_slot := current_block_time + s.minimumOffset producer_name current_block_time
    some (slotTimePoint (nextProducerSlot active_schedule.length producer_index minimum_slot))

/-- `calculate_producer_wake_up_time(ref_block_time)`: the earliest next block time of the node's
producers, a block interval early, kept as the loop goes. -/
def calculateProducerWakeUpTime (s : ProducerPluginImpl) (ref_block_time : UInt32) : Option Nat :=
  s.producers.foldl (fun wake_up_time p =>
    match s.calculateNextBlockTime p ref_block_time with
    | some next_producer_block_time =>
      OrderStat.keepMin wake_up_time (next_producer_block_time - blockIntervalUs)
    | none => wake_up_time) none

/-! ## The admissible slots -/

/-- The slots at which `p` may produce next, read off the property the code is meant to have:
after the reference slot `t`, as far past `t` as the watermark's block number is past the block
number, after the watermark's slot, and scheduled to `p`. -/
def IsAdmissibleSlot (s : ProducerPluginImpl) (p : Name) (t slot : UInt32) : Prop :=
  t.toNat + 1 ≤ slot.toNat ∧
    (∀ w ∈ s.getWatermark p,
      (s.watermarkBlockNum < w.1 →
        t.toNat + (w.1.toNat - s.watermarkBlockNum.toNat) + 1 ≤ slot.toNat) ∧
      (t < w.2 → w.2 < slot)) ∧
    s.head.getScheduledProducer slot = p

/-- Decided entry by entry; the watermark is checked as the one value it may hold, not over all
pairs of words. -/
instance (s : ProducerPluginImpl) (p : Name) (t slot : UInt32) :
    Decidable (s.IsAdmissibleSlot p t slot) := by
  unfold IsAdmissibleSlot
  exact @instDecidableAnd _ _ _ (@instDecidableAnd _ _ (Option.decidableForallMem _) _)

/-- The least offset from the reference slot that the watermark admits. -/
def offsetBound (s : ProducerPluginImpl) (p : Name) (t : UInt32) : Nat :=
  match s.getWatermark p with
  | none => 1
  | some w =>
    max (if s.watermarkBlockNum < w.1 then w.1.toNat - s.watermarkBlockNum.toNat + 1 else 1)
      (if t < w.2 then w.2.toNat - t.toNat + 1 else 1)

/-- The conditions on a slot other than its producer say that it is at least the offset bound
past the reference slot. -/
theorem watermark_iff_offsetBound_le (s : ProducerPluginImpl) (p : Name) (t slot : UInt32) :
    (t.toNat + 1 ≤ slot.toNat ∧
      ∀ w ∈ s.getWatermark p,
        (s.watermarkBlockNum < w.1 →
          t.toNat + (w.1.toNat - s.watermarkBlockNum.toNat) + 1 ≤ slot.toNat) ∧
        (t < w.2 → w.2 < slot)) ↔
      t.toNat + s.offsetBound p t ≤ slot.toNat := by
  unfold offsetBound
  cases s.getWatermark p with
  | none => simp
  | some w =>
    simp only [Option.mem_def, Option.some.injEq, forall_eq', UInt32.lt_iff_toNat_lt]
    split_ifs <;> omega

/-- The offset computed in `uint32_t` is the offset bound, when the minimum slot fits. -/
theorem toNat_minimumOffset {s : ProducerPluginImpl} {p : Name} {t : UInt32}
    (hfit : t.toNat + s.offsetBound p t < 2 ^ 32) :
    (s.minimumOffset p t).toNat = s.offsetBound p t := by
  unfold minimumOffset
  unfold offsetBound at hfit ⊢
  revert hfit
  cases s.getWatermark p with
  | none => intro _; rfl
  | some w =>
    intro hfit
    -- each offset of the source is `a - b + 1` for `b < a`, which fits by `hfit`
    have hsub {a b : UInt32} (hab : b < a) (hle : a.toNat - b.toNat + 1 < 2 ^ 32) :
        (a - b + 1).toNat = a.toNat - b.toNat + 1 := by
      rw [UInt32.toNat_add_of_lt, UInt32.toNat_sub_of_le _ _ (UInt32.le_of_lt hab)]
      · rfl
      · rw [UInt32.toNat_sub_of_le _ _ (UInt32.le_of_lt hab)]
        exact hle
    simp only [gt_iff_lt]
    by_cases hb : s.watermarkBlockNum < w.1 <;> by_cases ht : t < w.2 <;>
      simp only [hb, ht, if_true, if_false, UInt32.toNat_max] at hfit ⊢
    · rw [hsub hb (by omega), hsub ht (by omega)]
    · rw [hsub hb (by omega)]
      omega
    · rw [hsub ht (by omega)]
      rfl
    · rfl

/-- The source's slot is the round robin's first turn of the producer from the minimum slot,
when that turn fits a `uint32_t`. Off the producer's turn the distance is the round robin's:
without a wrap when the producer comes later in the schedule, and with the size added back
when it comes earlier. -/
theorem toNat_nextProducerSlot {size producer_index : Nat} (hi : producer_index < size)
    {m : UInt32} (hfit : firstTurnFrom size producerRepetitions producer_index m.toNat < 2 ^ 32) :
    (nextProducerSlot size producer_index m).toNat =
      firstTurnFrom size producerRepetitions producer_index m.toNat := by
  have hturn : m.toNat % (size * producerRepetitions) / producerRepetitions =
      turn size producerRepetitions m.toNat := rfl
  unfold nextProducerSlot
  unfold firstTurnFrom at hfit ⊢
  dsimp only
  rw [hturn]
  by_cases h : producer_index = turn size producerRepetitions m.toNat
  · rw [if_pos h, if_pos h.symm]
  · rw [if_neg h]
    rw [if_neg (Ne.symm h)] at hfit ⊢
    have hc := turn_lt (Nat.zero_lt_of_lt hi) producerRepetitions m.toNat
    have hc_le : turn size producerRepetitions m.toNat ≤ m.toNat / producerRepetitions := by
      rw [turn_eq_div_mod]
      exact Nat.mod_le _ _
    generalize turn size producerRepetitions m.toNat = c at h hc hc_le hfit ⊢
    have hR : producerRepetitions = 12 := rfl
    have hfirst : (m - m % producerRepetitions.toUInt32).toNat = m.toNat / 12 * 12 := by
      rw [UInt32.toNat_sub_mod]
      show m.toNat - m.toNat % 12 = m.toNat / 12 * 12
      omega
    rw [distance_eq hi hc] at hfit ⊢
    rw [Nat.toUInt32, UInt32.toNat_ofNat', hfirst]
    rw [hR] at hfit hc_le ⊢
    by_cases hci : c ≤ producer_index
    · -- the producer comes later in the schedule: the subtraction does not wrap
      rw [if_pos hci] at hfit ⊢
      have hd : (producer_index + 2 ^ 64 - c) % 2 ^ 64 = producer_index - c := by omega
      rw [hd, if_neg (by omega)]
      omega
    · -- the producer comes earlier: the subtraction wraps and the size is added back
      rw [if_neg hci] at hfit ⊢
      have hd : (producer_index + 2 ^ 64 - c) % 2 ^ 64 = producer_index + 2 ^ 64 - c := by omega
      rw [hd, if_pos (by omega)]
      omega

/-- With distinct producers, a slot is `p`'s exactly when its turn is `p`'s place. -/
theorem getScheduledProducer_eq_iff {s : ProducerPluginImpl} {p : Name} {producer_index : Nat}
    (hnodup : s.head.active_schedule.producers.Nodup)
    (hidx : s.head.active_schedule.producers.findIdx? (· == p) = some producer_index)
    (slot : UInt32) :
    s.head.getScheduledProducer slot = p ↔
      turn s.head.active_schedule.producers.length producerRepetitions slot.toNat =
        producer_index := by
  obtain ⟨hlt, hp, -⟩ := List.findIdx?_eq_some_iff_getElem.1 hidx
  have hp : s.head.active_schedule.producers[producer_index] = p := by simpa using hp
  have hturn := turn_lt (Nat.zero_lt_of_lt hlt) producerRepetitions slot.toNat
  have hget : s.head.getScheduledProducer slot =
      s.head.active_schedule.producers[turn s.head.active_schedule.producers.length
        producerRepetitions slot.toNat] :=
    List.getD_eq_getElem _ _ hturn
  rw [hget, ← hp]
  exact hnodup.getElem_inj_iff

/-- A slot is admissible exactly when it is at least the minimum slot and is `p`'s. -/
theorem isAdmissibleSlot_iff {s : ProducerPluginImpl} {p : Name} {producer_index : Nat}
    (hnodup : s.head.active_schedule.producers.Nodup)
    (hidx : s.head.active_schedule.producers.findIdx? (· == p) = some producer_index)
    (t slot : UInt32) :
    s.IsAdmissibleSlot p t slot ↔
      t.toNat + s.offsetBound p t ≤ slot.toNat ∧
        turn s.head.active_schedule.producers.length producerRepetitions slot.toNat =
          producer_index := by
  rw [IsAdmissibleSlot, ← and_assoc, watermark_iff_offsetBound_le,
    getScheduledProducer_eq_iff hnodup hidx]

/-- `calculate_next_block_time` is `none` exactly off the schedule. -/
theorem calculateNextBlockTime_eq_none_iff (s : ProducerPluginImpl) (p : Name) (t : UInt32) :
    s.calculateNextBlockTime p t = none ↔ p ∉ s.head.active_schedule.producers := by
  have hnone : s.head.active_schedule.producers.findIdx? (· == p) = none ↔
      p ∉ s.head.active_schedule.producers := by
    rw [List.findIdx?_eq_none_iff]
    simp only [beq_eq_false_iff_ne, ne_eq]
    exact ⟨fun h hp => h p hp rfl, fun h x hx hxp => h (hxp ▸ hx)⟩
  rw [← hnone]
  unfold calculateNextBlockTime
  dsimp only
  split <;> simp_all

/-- `calculate_next_block_time` of a scheduled producer: the time of the slot that the round robin
gives it from the minimum slot. -/
theorem calculateNextBlockTime_of_findIdx? {s : ProducerPluginImpl} {p : Name} {i : Nat}
    (hidx : s.head.active_schedule.producers.findIdx? (· == p) = some i) (t : UInt32) :
    s.calculateNextBlockTime p t = some (slotTimePoint
      (nextProducerSlot s.head.active_schedule.producers.length i (t + s.minimumOffset p t))) := by
  unfold calculateNextBlockTime
  dsimp only
  rw [hidx]

/-- Once some slot of `uint32_t` is admissible, `calculate_next_block_time` gives the time of the
least one. The minimum slot is the reference slot plus the offset bound, the first turn of the
producer from it is at most the admissible slot and so fits, and the round robin's lemmas say it
is the producer's, at least the minimum slot, and before every other admissible slot. -/
theorem calculateNextBlockTime_earliest {s : ProducerPluginImpl} {p : Name} {t slot : UInt32}
    (hnodup : s.head.active_schedule.producers.Nodup) (hne : s.head.active_schedule.producers ≠ [])
    (hslot : s.IsAdmissibleSlot p t slot) :
    ∃ best, s.IsAdmissibleSlot p t best ∧ (∀ slot', s.IsAdmissibleSlot p t slot' → best ≤ slot') ∧
      s.calculateNextBlockTime p t = some (slotTimePoint best) := by
  have hmem : p ∈ s.head.active_schedule.producers :=
    hslot.2.2 ▸ BlockHeaderState.getScheduledProducer_mem hne slot
  obtain ⟨i, hidx⟩ : ∃ i, s.head.active_schedule.producers.findIdx? (· == p) = some i := by
    apply Option.isSome_iff_exists.1
    rw [List.findIdx?_isSome]
    exact List.any_eq_true.2 ⟨p, hmem, beq_self_eq_true p⟩
  have hi : i < s.head.active_schedule.producers.length :=
    (List.findIdx?_eq_some_iff_getElem.1 hidx).1
  have hR : 0 < producerRepetitions := by decide
  obtain ⟨hm, hturn⟩ := (isAdmissibleSlot_iff hnodup hidx t slot).1 hslot
  have hlt := slot.toNat_lt
  -- the minimum slot does not wrap
  have hmin : (t + s.minimumOffset p t).toNat = t.toNat + s.offsetBound p t := by
    have hoff := toNat_minimumOffset (s := s) (p := p) (t := t) (by omega)
    rw [UInt32.toNat_add_of_lt (by omega), hoff]
  -- nor does the first turn from it, which comes no later than `slot`
  have hfirst := firstTurnFrom_le hi (hmin ▸ hm) hturn
  have hbest := toNat_nextProducerSlot hi (m := t + s.minimumOffset p t) (by omega)
  refine ⟨_, ?_, ?_, calculateNextBlockTime_of_findIdx? hidx t⟩
  · rw [isAdmissibleSlot_iff hnodup hidx, hbest, ← hmin]
    exact ⟨le_firstTurnFrom hR hi, turn_firstTurnFrom hR hi⟩
  · intro slot' hslot'
    obtain ⟨hm', hturn'⟩ := (isAdmissibleSlot_iff hnodup hidx t slot').1 hslot'
    rw [UInt32.le_iff_toNat_le, hbest]
    exact firstTurnFrom_le hi (hmin ▸ hm') hturn'

/-- The wake-up time is a block interval before the earliest next block time of the node's
producers. -/
theorem calculateProducerWakeUpTime_eq (s : ProducerPluginImpl) (t : UInt32) :
    s.calculateProducerWakeUpTime t =
      ((s.producers.filterMap fun q => s.calculateNextBlockTime q t).min?).map
        (· - blockIntervalUs) := by
  have hmono : Monotone fun x : Nat => x - blockIntervalUs := fun _ _ h => Nat.sub_le_sub_right h _
  -- the loop is the running minimum over the wake-up times of the producers that have one
  have hfold : s.calculateProducerWakeUpTime t =
      (s.producers.filterMap fun q => (s.calculateNextBlockTime q t).map (· - blockIntervalUs)).foldl
        OrderStat.keepMin none := by
    rw [List.foldl_filterMap]
    unfold calculateProducerWakeUpTime
    congr 1
    funext wake_up_time q
    cases s.calculateNextBlockTime q t <;> rfl
  rw [hfold, OrderStat.foldl_keepMin, Option.toList_none, List.nil_append, ← List.map_filterMap,
    OrderStat.min?_map_of_monotone hmono]

end ProducerPluginImpl

open ProducerPluginImpl

/-- The next production slot is the earliest admissible one, and the wake-up time a block interval
before the earliest over the node's producers. -/
theorem next_block_time_earliest (s : ProducerPluginImpl)
    (hnodup : s.head.active_schedule.producers.Nodup) (hne : s.head.active_schedule.producers ≠ [])
    (p : Name) (t : UInt32) :
    (s.calculateNextBlockTime p t = none ↔ p ∉ s.head.active_schedule.producers) ∧
    ((∃ slot, s.IsAdmissibleSlot p t slot) →
      ∃ best, s.IsAdmissibleSlot p t best ∧ (∀ slot, s.IsAdmissibleSlot p t slot → best ≤ slot) ∧
        s.calculateNextBlockTime p t = some (slotTimePoint best)) ∧
    s.calculateProducerWakeUpTime t =
      ((s.producers.filterMap fun q => s.calculateNextBlockTime q t).min?).map
        (· - blockIntervalUs) := by
  refine ⟨calculateNextBlockTime_eq_none_iff s p t, ?_, calculateProducerWakeUpTime_eq s t⟩
  rintro ⟨slot, hslot⟩
  exact calculateNextBlockTime_earliest hnodup hne hslot

/-- Three producers, the second of which signed block `5` at slot `30` while the head is block `3`:
from slot `20` it waits past slot `30`, and its next turn starts at slot `48`. -/
theorem next_block_time_after_watermark :
    let s : ProducerPluginImpl :=
      ⟨{ BlockHeaderState.genesis ⟨0, [⟨1⟩, ⟨2⟩, ⟨3⟩]⟩ 20 with block_num := 3 }, false,
        [(⟨2⟩, 5, 30)], [⟨2⟩]⟩
    s.head.active_schedule.producers.Nodup ∧ s.head.active_schedule.producers ≠ [] ∧
      ∃ best, s.IsAdmissibleSlot ⟨2⟩ 20 best ∧
        (∀ slot, s.IsAdmissibleSlot ⟨2⟩ 20 slot → best ≤ slot) ∧
        s.calculateNextBlockTime ⟨2⟩ 20 = some (slotTimePoint best) := by
  intro s
  have hnodup : s.head.active_schedule.producers.Nodup := by decide
  have hne : s.head.active_schedule.producers ≠ [] := by decide
  exact ⟨hnodup, hne, (next_block_time_earliest s hnodup hne ⟨2⟩ 20).2.1 ⟨48, by decide⟩⟩

end InfraBlockchain.Producer
