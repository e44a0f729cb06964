import Mathlib
import InfraBlockchain.Types

/-!
# The usage accumulator

`exponential_moving_average_accumulator` (`resource_limits_private.hpp`) keeps an account's average
usage over a window of block slots, premultiplied by `config::rate_limiting_precision`, in
`value_ex`. `add` first decays `value_ex` by `(window_size - delta) / window_size` when a slot
`delta` slots after the last one begins, or clears it past the window, then adds the new units
spread over the window and rounded up. Within one slot nothing decays: `value_ex` grows by the
rounded-up share of the units exactly (`add_same_ordinal`).

`exponential_decay_accumulator`, the accumulator of the producer's subjective billing, is in the
last section. `integer_divide_ceil` and `downgrade_cast` are the rounding and narrowing helpers of
the same header. The 128-bit intermediates of their callers are naturals here: a product of a 64-bit and a
32-bit value does not wrap.

Reading a usage in the window rounded up and checking it rounded down agree: after an admission of
`x` units within the room that the rounded-up reading leaves, the rounded-down check of the new
value still passes, as long as the window is no longer than the precision
(`add_ceil_mul_div_le`).
-/

namespace InfraBlockchain.Resource

/-- `config::rate_limiting_precision`. -/
def rateLimitingPrecision : Nat := 1000 * 1000

/-- `impl::integer_divide_ceil`. -/
def integerDivideCeil (num den : Nat) : Nat := num / den + if num % den > 0 then 1 else 0

/-- `impl::downgrade_cast` from a wider unsigned type to one whose largest value is `max`. -/
def downgradeCast (max val : Nat) : Except Exception Nat := do
  eosAssert (val ≤ max) .rate_limiting_state_inconsistent
    "Casting a higher bit integer value ${v} to a lower bit integer value which cannot contain the value, valid range is [${min}, ${max}]"
  pure val

/-- `operator*(value, ratio)`: `value * numerator / denominator`, asserted not to overflow. -/
def mulRatio (value numerator denominator : UInt64) : Except Exception UInt64 := do
  eosAssert (numerator == 0 || 18446744073709551615 / numerator ≥ value)
    .rate_limiting_state_inconsistent
    "Usage exceeds maximum value representable after extending for precision"
  pure (value * numerator / denominator)

/-- `usage_accumulator`: the last slot that contributed, the average premultiplied by the
precision, and the last average with the usage of the current slot so far. -/
structure UsageAccumulator where
  /-- The last slot that contributed. -/
  last_ordinal : UInt32 := 0
  /-- The average, premultiplied by the precision. -/
  value_ex : UInt64 := 0
  /-- The last average with the usage of the current slot so far. -/
  consumed : UInt64 := 0
  deriving DecidableEq, Repr

/-- `max_raw_value`. -/
def maxRawValue : Nat := (2 ^ 64 - 1) / rateLimitingPrecision

/-- `average()`: the average, rounded up. -/
def UsageAccumulator.average (a : UsageAccumulator) : UInt64 :=
  (integerDivideCeil a.value_ex.toNat rateLimitingPrecision).toUInt64

/-- The decay of `add` when a later slot begins: by `(window_size - delta) / window_size` within
the window, to zero past it. -/
def UsageAccumulator.decay (a : UsageAccumulator) (ordinal window_size : UInt32) :
    Except Exception UInt64 :=
  if a.last_ordinal.toUInt64 + window_size.toUInt64 > ordinal.toUInt64 then
    let delta := ordinal - a.last_ordinal
    mulRatio a.value_ex (window_size.toUInt64 - delta.toUInt64) window_size.toUInt64
  else pure 0

/-- The start of a later slot in `add`: the value decayed, the slot the last one, and the average
as consumed. -/
def UsageAccumulator.advance (a : UsageAccumulator) (ordinal window_size : UInt32) :
    Except Exception UsageAccumulator := do
  eosAssert (ordinal > a.last_ordinal) .resource_limit_exception
    "new ordinal cannot be less than the previous ordinal"
  let value_ex ← a.decay ordinal window_size
  let a := { a with value_ex, last_ordinal := ordinal }
  pure { a with consumed := a.average }

/-- `add(units, ordinal, window_size)`; the window must be positive. -/
def UsageAccumulator.add (a : UsageAccumulator) (units : UInt64) (ordinal window_size : UInt32) :
    Except Exception UsageAccumulator := do
  -- the checks come before any change
  eosAssert (units.toNat ≤ maxRawValue) .rate_limiting_state_inconsistent
    "Usage exceeds maximum value representable after extending for precision"
  eosAssert (2 ^ 64 - 1 - a.consumed.toNat ≥ units.toNat) .rate_limiting_state_inconsistent
    "Overflow in tracked usage when adding usage!"
  let value_ex_contrib ← downgradeCast (2 ^ 64 - 1)
    (integerDivideCeil (units.toNat * rateLimitingPrecision) window_size.toNat)
  eosAssert (2 ^ 64 - 1 - a.value_ex.toNat ≥ value_ex_contrib) .rate_limiting_state_inconsistent
    "Overflow in accumulated value when adding usage!"
  let a ← (if a.last_ordinal ≠ ordinal then a.advance ordinal window_size else pure a)
  pure { a with consumed := a.consumed + units, value_ex := a.value_ex + value_ex_contrib.toUInt64 }

/-- `downgrade_cast` succeeds exactly within the bound, on the value itself. -/
theorem downgradeCast_eq_ok {max val r : Nat} : downgradeCast max val = .ok r ↔ val ≤ max ∧ r = val := by
  unfold downgradeCast
  by_cases h : val ≤ max
  · simp [h, eosAssert, bind, Except.bind, pure, Except.pure, eq_comm]
  · simp [h, eosAssert, bind, Except.bind]

/-- The ratio's check passes when the product fits in 64 bits. -/
theorem mulRatio_of_lt {value numerator denominator : UInt64}
    (h : value.toNat * numerator.toNat < 2 ^ 64) :
    mulRatio value numerator denominator = .ok (value * numerator / denominator) := by
  unfold mulRatio
  rw [eosAssert_bind, if_pos]
  · rfl
  by_cases h0 : numerator = 0
  · simp [h0]
  · have hpos : 0 < numerator.toNat := by
      rw [Nat.pos_iff_ne_zero, Ne, ← UInt64.toNat_zero, UInt64.toNat_inj]
      exact h0
    simp only [Bool.or_eq_true, beq_iff_eq, h0, false_or, decide_eq_true_eq]
    rw [ge_iff_le, UInt64.le_iff_toNat_le, UInt64.toNat_div, Nat.le_div_iff_mul_le hpos]
    simp only [UInt64.reduceToNat]
    omega

/-! ## Rounding -/

/-- Rounded up, a quotient times the divisor passes the dividend by less than the divisor. -/
theorem integerDivideCeil_mul_lt (num : Nat) {den : Nat} (hden : 0 < den) :
    integerDivideCeil num den * den < num + den := by
  unfold integerDivideCeil
  have hdiv := Nat.div_add_mod num den
  have hmod := Nat.mod_lt num hden
  split
  · rw [Nat.add_mul, Nat.one_mul, Nat.mul_comm]
    omega
  · rw [Nat.add_zero, Nat.mul_comm]
    omega

/-- A usage `V` read in a window `W` rounded up leaves `M - ⌈V W / P⌉` units of room; `x > 0` units
added within it, spread over the window and rounded up, keep the new usage rounded down within
`M`, when the window is no longer than the precision. The two roundings cost less than one unit
together: one when `V W / P` has a remainder, and less than `W / P` from spreading `x`. -/
theorem add_ceil_mul_div_le {V x W M P : Nat} (hP : 0 < P) (hW : W ≤ P) (hx₀ : 0 < x)
    (hx : x ≤ M - integerDivideCeil (V * W) P) :
    (V + integerDivideCeil (x * P) W) * W / P ≤ M := by
  rcases Nat.eq_zero_or_pos W with rfl | hWpos
  · simp
  -- `V W = q P + r`, and the rounded-up reading is `q` or `q + 1`
  obtain ⟨q, r, hVW, hr⟩ : ∃ q r, V * W = q * P + r ∧ r < P :=
    ⟨V * W / P, V * W % P, by rw [Nat.mul_comm (V * W / P)]; exact (Nat.div_add_mod _ _).symm,
      Nat.mod_lt _ hP⟩
  have hceil : integerDivideCeil (V * W) P = q + if r > 0 then 1 else 0 := by
    have hq : V * W / P = q := by
      rw [hVW, Nat.add_comm, Nat.add_mul_div_right _ _ hP, Nat.div_eq_of_lt hr, Nat.zero_add]
    have hm : V * W % P = r := by
      rw [hVW, Nat.add_comm, Nat.add_mul_mod_self_right, Nat.mod_eq_of_lt hr]
    rw [integerDivideCeil, hq, hm]
  -- spreading `x` over the window adds less than `x P + W`
  have hspread := integerDivideCeil_mul_lt (x * P) hWpos
  have hroom : (q + x + if r > 0 then 1 else 0) * P ≤ M * P := by
    apply Nat.mul_le_mul_right
    rw [hceil] at hx
    split at hx <;> split <;> omega
  apply Nat.le_of_lt_succ
  rw [Nat.div_lt_iff_lt_mul hP, Nat.add_mul, hVW]
  split at hroom
  · rw [Nat.add_mul, Nat.add_mul, Nat.one_mul] at hroom
    rw [Nat.succ_mul]
    omega
  · rw [Nat.add_zero, Nat.add_mul] at hroom
    rw [Nat.succ_mul]
    omega

/-! ## Adding usage -/

/-- An add raises only the accumulator's own exceptions. -/
theorem UsageAccumulator.add_raisesNo {k : ExceptionKind}
    (hk₁ : k ≠ .rate_limiting_state_inconsistent) (hk₂ : k ≠ .resource_limit_exception)
    (a : UsageAccumulator) (units : UInt64) (ordinal window_size : UInt32) :
    RaisesNo k (a.add units ordinal window_size) := by
  have hassert : ∀ (cond : Bool) (message : String),
      RaisesNo k (eosAssert cond .rate_limiting_state_inconsistent message) :=
    RaisesNo.eosAssert_of_ne hk₁.symm
  -- the decay and the new slot raise only their own exceptions too
  have hadvance : RaisesNo k (a.advance ordinal window_size) := by
    refine RaisesNo.bind (RaisesNo.eosAssert_of_ne hk₂.symm _ _) fun _ _ => ?_
    refine RaisesNo.bind ?_ fun _ _ => RaisesNo.ok _
    unfold UsageAccumulator.decay
    split
    · exact RaisesNo.bind (hassert _ _) fun _ _ => RaisesNo.ok _
    · exact RaisesNo.ok _
  refine RaisesNo.bind (hassert _ _) fun _ _ => ?_
  refine RaisesNo.bind (hassert _ _) fun _ _ => ?_
  refine RaisesNo.bind (RaisesNo.bind (hassert _ _) fun _ _ => RaisesNo.ok _) fun _ _ => ?_
  refine RaisesNo.bind (hassert _ _) fun _ _ => ?_
  refine RaisesNo.bind ?_ fun _ _ => RaisesNo.ok _
  split
  · exact hadvance
  · exact RaisesNo.ok _

/-- Within the last slot nothing decays: an add gives `value_ex` the rounded-up share of the units
over the window, and keeps the slot. -/
theorem UsageAccumulator.add_same_ordinal {a a' : UsageAccumulator} {units : UInt64}
    {ordinal window_size : UInt32} (hlast : a.last_ordinal = ordinal)
    (h : a.add units ordinal window_size = .ok a') :
    a'.value_ex.toNat =
        a.value_ex.toNat + integerDivideCeil (units.toNat * rateLimitingPrecision) window_size.toNat ∧
      a'.last_ordinal = ordinal := by
  unfold UsageAccumulator.add at h
  obtain ⟨_, -, h⟩ := bind_eq_ok.1 h
  obtain ⟨_, -, h⟩ := bind_eq_ok.1 h
  obtain ⟨contrib, hcast, h⟩ := bind_eq_ok.1 h
  obtain ⟨_, hroom, h⟩ := bind_eq_ok.1 h
  obtain ⟨b, hb, h⟩ := bind_eq_ok.1 h
  rw [if_neg (not_not.2 hlast)] at hb
  obtain ⟨hfit, rfl⟩ := downgradeCast_eq_ok.1 hcast
  cases hb
  cases h
  have hroom' := of_decide_eq_true (eosAssert_eq_ok.1 hroom)
  have hvalue := UInt64.toNat_lt a.value_ex
  refine ⟨?_, hlast⟩
  rw [UInt64.toNat_add, Nat.toUInt64, UInt64.toNat_ofNat']
  omega

/-- An add that succeeds leaves its slot as the last one. -/
theorem UsageAccumulator.add_last_ordinal {a a' : UsageAccumulator} {units : UInt64}
    {ordinal window_size : UInt32} (h : a.add units ordinal window_size = .ok a') :
    a'.last_ordinal = ordinal := by
  by_cases hlast : a.last_ordinal = ordinal
  · exact (UsageAccumulator.add_same_ordinal hlast h).2
  · unfold UsageAccumulator.add at h
    obtain ⟨_, -, h⟩ := bind_eq_ok.1 h
    obtain ⟨_, -, h⟩ := bind_eq_ok.1 h
    obtain ⟨_, -, h⟩ := bind_eq_ok.1 h
    obtain ⟨_, -, h⟩ := bind_eq_ok.1 h
    obtain ⟨b, hb, h⟩ := bind_eq_ok.1 h
    rw [if_pos hlast] at hb
    cases h
    -- the new slot is written by `advance`
    unfold UsageAccumulator.advance at hb
    obtain ⟨_, -, hb⟩ := bind_eq_ok.1 hb
    obtain ⟨_, -, hb⟩ := bind_eq_ok.1 hb
    cases hb
    rfl

/-! ## Bounds over a run of slots

When no slot brings more than `M` units, each later slot adds at most `⌈M P / window_size⌉` to
`value_ex` (`maxContribution`) and keeps at most `(window_size - 1) / window_size` of it, so
`value_ex` stays within `window_size` such contributions (`UsageAccumulator.Within`). Every check of
`add` then passes as long as `window_size + 1` windows of them fit in 64 bits
(`UsageAccumulator.add_of_within`). -/

/-- Rounded up, a quotient times the divisor reaches the dividend. -/
theorem le_integerDivideCeil_mul (num : Nat) {den : Nat} (hden : 0 < den) :
    num ≤ integerDivideCeil num den * den := by
  unfold integerDivideCeil
  have hdiv := Nat.div_add_mod num den
  split
  · rw [Nat.add_mul, Nat.one_mul, Nat.mul_comm]
    have hmod := Nat.mod_lt num hden
    omega
  · rw [Nat.add_zero, Nat.mul_comm]
    omega

/-- Rounding up is monotone in the dividend. -/
theorem integerDivideCeil_le_of_le {a b den : Nat} (hden : 0 < den) (h : a ≤ b) :
    integerDivideCeil a den ≤ integerDivideCeil b den := by
  have ha := integerDivideCeil_mul_lt a hden
  have hb := le_integerDivideCeil_mul b hden
  -- one multiple of `den` more than `b`'s would pass `a + den`
  by_contra hlt
  have hmul : (integerDivideCeil b den + 1) * den ≤ integerDivideCeil a den * den :=
    Nat.mul_le_mul_right _ (by omega)
  rw [Nat.add_mul, Nat.one_mul] at hmul
  omega

/-- The most that a slot of at most `M` units adds to `value_ex` over a window of `W` slots. -/
def maxContribution (M W : Nat) : Nat := integerDivideCeil (M * rateLimitingPrecision) W

/-- An accumulator within the envelope of slots of at most `M` units over a window of `W`: its value
within `W` of the largest contributions, and its usage as consumed within twice `M` and a window. -/
structure UsageAccumulator.Within (a : UsageAccumulator) (M W : Nat) : Prop where
  /-- The value within the window's largest contributions. -/
  value_ex_le : a.value_ex.toNat ≤ W * maxContribution M W
  /-- The usage within twice `M` and a window. -/
  consumed_le : a.consumed.toNat ≤ 2 * M + 2 ^ 32

/-- A new accumulator is within every envelope. -/
theorem UsageAccumulator.within_empty (M W : Nat) : ({} : UsageAccumulator).Within M W :=
  ⟨Nat.zero_le _, Nat.zero_le _⟩

/-- A later slot within the window keeps `(window_size - delta) / window_size` of the value, at
most `(window_size - 1) / window_size` of it; the ratio's check passes when the value times
`window_size - 1` fits in 64 bits. Past the window nothing is kept. -/
theorem UsageAccumulator.decay_of_bounds {a : UsageAccumulator} {ordinal window_size : UInt32}
    (hord : a.last_ordinal < ordinal)
    (hfit : a.value_ex.toNat * (window_size.toNat - 1) < 2 ^ 64) :
    ∃ v, a.decay ordinal window_size = .ok v ∧
      v.toNat * window_size.toNat ≤ a.value_ex.toNat * (window_size.toNat - 1) := by
  unfold UsageAccumulator.decay
  split
  · rename_i hwin
    -- `delta` is the distance of the slots, shorter than the window
    have hlt := UInt32.lt_iff_toNat_lt.1 hord
    rw [gt_iff_lt, UInt64.lt_iff_toNat_lt, UInt64.toNat_add, UInt32.toNat_toUInt64,
      UInt32.toNat_toUInt64, UInt32.toNat_toUInt64] at hwin
    have hlast := UInt32.toNat_lt a.last_ordinal
    have hW := UInt32.toNat_lt window_size
    have hdelta : (ordinal - a.last_ordinal).toNat = ordinal.toNat - a.last_ordinal.toNat :=
      UInt32.toNat_sub_of_le _ _ (UInt32.le_iff_toNat_le.2 (Nat.le_of_lt hlt))
    have hnum : (window_size.toUInt64 - (ordinal - a.last_ordinal).toUInt64).toNat =
        window_size.toNat - (ordinal.toNat - a.last_ordinal.toNat) := by
      rw [UInt64.toNat_sub_of_le, UInt32.toNat_toUInt64, UInt32.toNat_toUInt64, hdelta]
      rw [UInt64.le_iff_toNat_le, UInt32.toNat_toUInt64, UInt32.toNat_toUInt64, hdelta]
      omega
    have hkept : window_size.toNat - (ordinal.toNat - a.last_ordinal.toNat) ≤
        window_size.toNat - 1 := by
      omega
    have hprod : a.value_ex.toNat * (window_size.toUInt64 - (ordinal - a.last_ordinal).toUInt64).toNat
        ≤ a.value_ex.toNat * (window_size.toNat - 1) := by
      rw [hnum]
      exact Nat.mul_le_mul_left _ hkept
    refine ⟨_, mulRatio_of_lt (lt_of_le_of_lt hprod hfit), ?_⟩
    rw [UInt64.toNat_div, UInt64.toNat_mul, Nat.mod_eq_of_lt (lt_of_le_of_lt hprod hfit),
      UInt32.toNat_toUInt64]
    exact (Nat.div_mul_le_self _ _).trans hprod
  · exact ⟨0, rfl, by simp⟩

/-- A later slot decayed to `v` starts with `v` as the value and its rounded-up average as the usage
consumed. -/
theorem UsageAccumulator.advance_of_decay {a : UsageAccumulator} {ordinal window_size : UInt32}
    {v : UInt64} (hord : a.last_ordinal < ordinal) (h : a.decay ordinal window_size = .ok v) :
    a.advance ordinal window_size =
      .ok ⟨ordinal, v, (integerDivideCeil v.toNat rateLimitingPrecision).toUInt64⟩ := by
  unfold UsageAccumulator.advance
  rw [eosAssert_bind, if_pos (decide_eq_true hord), h, ok_bind]
  rfl

/-- A later slot of at most `M` units passes every check of `add` and keeps the accumulator within
the envelope, when `window_size + 1` windows of the largest contributions fit in 64 bits. -/
theorem UsageAccumulator.add_of_within {a : UsageAccumulator} {units : UInt64}
    {ordinal window_size : UInt32} {M : Nat} (ha : a.Within M window_size.toNat)
    (hord : a.last_ordinal < ordinal) (hW : 0 < window_size.toNat) (hM : M ≤ maxRawValue)
    (hfit : window_size.toNat * (window_size.toNat + 1) * maxContribution M window_size.toNat <
      2 ^ 64)
    (hunits : units.toNat ≤ M) :
    ∃ a', a.add units ordinal window_size = .ok a' ∧ a'.Within M window_size.toNat ∧
      a'.last_ordinal = ordinal := by
  obtain ⟨hvalue, hconsumed⟩ := ha
  obtain ⟨k, hk⟩ : ∃ k, window_size.toNat = k + 1 := ⟨window_size.toNat - 1, by omega⟩
  have hP : rateLimitingPrecision = 1000000 := rfl
  have hMraw : M ≤ 18446744073709 := hM
  -- the units add at most the largest contribution, and a window of those stays below `M P + W`
  have hcontrib : integerDivideCeil (units.toNat * rateLimitingPrecision) window_size.toNat ≤
      maxContribution M window_size.toNat :=
    integerDivideCeil_le_of_le hW (Nat.mul_le_mul_right _ hunits)
  have hwindow : maxContribution M window_size.toNat * window_size.toNat <
      M * rateLimitingPrecision + window_size.toNat :=
    integerDivideCeil_mul_lt _ hW
  rw [hk] at hvalue hfit hwindow hcontrib
  have hfit₁ : (k + 1) * maxContribution M (k + 1) + maxContribution M (k + 1) < 2 ^ 64 := by
    have : ((k + 1) + 1) * maxContribution M (k + 1) ≤
        (k + 1) * ((k + 1) + 1) * maxContribution M (k + 1) :=
      Nat.mul_le_mul_right _ (Nat.le_mul_of_pos_left _ (Nat.succ_pos k))
    rw [Nat.add_mul, Nat.one_mul] at this
    omega
  have hfit₂ : a.value_ex.toNat * (window_size.toNat - 1) < 2 ^ 64 := by
    rw [hk, Nat.add_sub_cancel]
    calc a.value_ex.toNat * k ≤ (k + 1) * maxContribution M (k + 1) * k :=
          Nat.mul_le_mul_right _ hvalue
      _ ≤ (k + 1) * ((k + 1) + 1) * maxContribution M (k + 1) := by
          rw [Nat.mul_right_comm]
          exact Nat.mul_le_mul_right _ (Nat.mul_le_mul_left _ (by omega))
      _ < 2 ^ 64 := hfit
  -- the decayed value keeps at most `k` of the `k + 1` contributions
  obtain ⟨v, hdecay, hv⟩ := a.decay_of_bounds hord hfit₂
  have hv' : v.toNat ≤ maxContribution M (k + 1) * k := by
    rw [hk, Nat.add_sub_cancel] at hv
    apply Nat.le_of_mul_le_mul_right _ (Nat.succ_pos k)
    calc v.toNat * (k + 1) ≤ a.value_ex.toNat * k := hv
      _ ≤ (k + 1) * maxContribution M (k + 1) * k := Nat.mul_le_mul_right _ hvalue
      _ = maxContribution M (k + 1) * k * (k + 1) := by ring
  have hsplit : maxContribution M (k + 1) * k + maxContribution M (k + 1) =
      (k + 1) * maxContribution M (k + 1) := by
    ring
  have hWlt := UInt32.toNat_lt window_size
  have havg := integerDivideCeil_mul_lt v.toNat (show 0 < rateLimitingPrecision by decide)
  -- the checks of `add`, in its order
  have hconsumed_room : 2 ^ 64 - 1 - a.consumed.toNat ≥ units.toNat := by omega
  have hcast : integerDivideCeil (units.toNat * rateLimitingPrecision) window_size.toNat ≤
      2 ^ 64 - 1 := by
    rw [hk]
    omega
  have hvalue_room : 2 ^ 64 - 1 - a.value_ex.toNat ≥
      integerDivideCeil (units.toNat * rateLimitingPrecision) window_size.toNat := by
    rw [hk]
    omega
  have hnew : a.last_ordinal ≠ ordinal := fun h => by
    rw [UInt32.lt_iff_toNat_lt, h] at hord
    omega
  unfold UsageAccumulator.add
  rw [eosAssert_bind, if_pos (decide_eq_true (hunits.trans hM)), eosAssert_bind,
    if_pos (decide_eq_true hconsumed_room), downgradeCast_eq_ok.2 ⟨hcast, rfl⟩, ok_bind,
    eosAssert_bind, if_pos (decide_eq_true hvalue_room), if_pos hnew,
    a.advance_of_decay hord hdecay, ok_bind]
  refine ⟨_, rfl, ⟨?_, ?_⟩, rfl⟩
  · -- the kept value and the new contribution make at most a window of contributions
    show (v + (integerDivideCeil (units.toNat * rateLimitingPrecision)
      window_size.toNat).toUInt64).toNat ≤ window_size.toNat * maxContribution M window_size.toNat
    rw [hk, UInt64.toNat_add, Nat.toUInt64, UInt64.toNat_ofNat']
    omega
  · -- the usage consumed is the rounded-up average of at most a window, and the new units
    show ((integerDivideCeil v.toNat rateLimitingPrecision).toUInt64 + units).toNat ≤ 2 * M + 2 ^ 32
    have hvW : v.toNat ≤ maxContribution M (k + 1) * (k + 1) :=
      hv'.trans (Nat.mul_le_mul_left _ (Nat.le_succ k))
    rw [UInt64.toNat_add, Nat.toUInt64, UInt64.toNat_ofNat']
    rw [hP] at havg hwindow ⊢
    omega

/-! ## The decaying accumulator

`exponential_decay_accumulator` (same header) keeps the sum of its inputs, premultiplied by the
precision, and lets it decay linearly between updates: read at a slot `delta` slots after the last
one it keeps `(window_size - delta) / window_size` of its value, and a window later nothing
(`valueExAt_of_window`). An add first decays the value to its slot, then adds the input,
saturating at the largest 64-bit value. The value read never exceeds the value stored
(`valueExAt_le`), and an add raises the value read at its slot by the input exactly, up to the
saturation (`add_spec`). -/

/-- `exponential_decay_accumulator<>`. -/
structure ExponentialDecayAccumulator where
  /-- The ordinal of the last period which has contributed to the accumulator. -/
  last_ordinal : UInt32 := 0
  /-- The accumulated value, premultiplied by the precision. -/
  value_ex : UInt64 := 0
  deriving DecidableEq, Repr

namespace ExponentialDecayAccumulator

/-- `value_ex_at(ordinal, window_size)`: the value decayed to a slot. The product of the value and
the decay is taken in 128 bits, where the check of the ratio's product always passes. -/
def valueExAt (a : ExponentialDecayAccumulator) (ordinal window_size : UInt32) :
    Except Exception UInt64 :=
  if a.last_ordinal < ordinal then
    if a.last_ordinal.toNat + window_size.toNat > ordinal.toNat then
      let delta := ordinal - a.last_ordinal
      Nat.toUInt64 <$> downgradeCast (2 ^ 64 - 1)
        (a.value_ex.toNat * (window_size.toNat - delta.toNat) / window_size.toNat)
    else pure 0
  else pure a.value_ex

/-- `value_at(ordinal, window_size)`: the value at a slot, rounded up. -/
def valueAt (a : ExponentialDecayAccumulator) (ordinal window_size : UInt32) :
    Except Exception UInt64 := do
  let value_ex ← a.valueExAt ordinal window_size
  pure (integerDivideCeil value_ex.toNat rateLimitingPrecision).toUInt64

/-- The start of a later slot in `add`: the value decayed to it, and the slot the last one. -/
def advance (a : ExponentialDecayAccumulator) (ordinal window_size : UInt32) :
    Except Exception ExponentialDecayAccumulator := do
  let value_ex ← a.valueExAt ordinal window_size
  pure { last_ordinal := ordinal, value_ex }

/-- `add(units, ordinal, window_size)`. -/
def add (a : ExponentialDecayAccumulator) (units : UInt64) (ordinal window_size : UInt32) :
    Except Exception ExponentialDecayAccumulator := do
  -- the check comes before any change
  eosAssert (units.toNat ≤ maxRawValue) .rate_limiting_state_inconsistent
    "Usage exceeds maximum value representable after extending for precision"
  let units_ex := units.toNat * rateLimitingPrecision
  let a ← (if a.last_ordinal < ordinal then a.advance ordinal window_size else pure a)
  -- saturate the value
  let value_ex ← downgradeCast (2 ^ 64 - 1) (min (units_ex + a.value_ex.toNat) (2 ^ 64 - 1))
  pure { a with value_ex := value_ex.toUInt64 }

/-- At the last slot or before it, the value read is the value stored. -/
theorem valueExAt_of_le {a : ExponentialDecayAccumulator} {ordinal : UInt32}
    (h : ordinal ≤ a.last_ordinal) (window_size : UInt32) :
    a.valueExAt ordinal window_size = .ok a.value_ex := by
  rw [valueExAt, if_neg (fun hlt => absurd h (UInt32.not_le.2 hlt))]
  rfl

/-- A window after the last slot, nothing is left. -/
theorem valueExAt_of_window {a : ExponentialDecayAccumulator} {ordinal window_size : UInt32}
    (hlt : a.last_ordinal < ordinal)
    (h : a.last_ordinal.toNat + window_size.toNat ≤ ordinal.toNat) :
    a.valueExAt ordinal window_size = .ok 0 := by
  rw [valueExAt, if_pos hlt, if_neg (Nat.not_lt.2 h)]
  rfl

/-- The value read at a slot is at most the value stored. -/
theorem valueExAt_le (a : ExponentialDecayAccumulator) (ordinal window_size : UInt32) :
    ∃ v, a.valueExAt ordinal window_size = .ok v ∧ v.toNat ≤ a.value_ex.toNat := by
  by_cases hlt : a.last_ordinal < ordinal
  · by_cases hwin : a.last_ordinal.toNat + window_size.toNat > ordinal.toNat
    · -- within the window the value is scaled by a ratio of at most one
      have hdecay : a.value_ex.toNat * (window_size.toNat - (ordinal - a.last_ordinal).toNat) /
          window_size.toNat ≤ a.value_ex.toNat := by
        apply Nat.div_le_of_le_mul
        rw [Nat.mul_comm]
        exact Nat.mul_le_mul_right _ (Nat.sub_le _ _)
      have hfit : a.value_ex.toNat * (window_size.toNat - (ordinal - a.last_ordinal).toNat) /
          window_size.toNat ≤ 2 ^ 64 - 1 := by
        have := UInt64.toNat_lt a.value_ex
        omega
      refine ⟨Nat.toUInt64 (a.value_ex.toNat * (window_size.toNat -
        (ordinal - a.last_ordinal).toNat) / window_size.toNat), ?_, ?_⟩
      · rw [valueExAt, if_pos hlt, if_pos hwin]
        dsimp only
        rw [downgradeCast_eq_ok.2 ⟨hfit, rfl⟩]
        rfl
      · rw [Nat.toUInt64, UInt64.toNat_ofNat', Nat.mod_eq_of_lt (by omega)]
        exact hdecay
    · exact ⟨0, valueExAt_of_window hlt (Nat.le_of_not_lt hwin), Nat.zero_le _⟩
  · exact ⟨_, valueExAt_of_le (UInt32.not_lt.1 hlt) window_size, le_refl _⟩

/-- An accumulator that holds nothing reads nothing at every slot. -/
theorem valueExAt_of_value_ex {a : ExponentialDecayAccumulator} (h : a.value_ex = 0)
    (ordinal window_size : UInt32) : a.valueExAt ordinal window_size = .ok 0 := by
  obtain ⟨v, hv, hle⟩ := a.valueExAt_le ordinal window_size
  rw [h, UInt64.toNat_zero, Nat.le_zero, ← UInt64.toNat_zero, UInt64.toNat_inj] at hle
  rw [hv, hle]

/-- An accumulator that holds nothing has a value of zero at every slot. -/
theorem valueAt_of_value_ex {a : ExponentialDecayAccumulator} (h : a.value_ex = 0)
    (ordinal window_size : UInt32) : a.valueAt ordinal window_size = .ok 0 := by
  rw [valueAt, valueExAt_of_value_ex h, ok_bind]
  rfl

/-- An add of a representable input succeeds; it leaves its slot at or before the last one and the
value the saturated sum of the value read at its slot and the input. -/
theorem add_spec (a : ExponentialDecayAccumulator) {units : UInt64} (ordinal window_size : UInt32)
    (hunits : units.toNat ≤ maxRawValue) :
    ∃ v a', a.valueExAt ordinal window_size = .ok v ∧ a.add units ordinal window_size = .ok a' ∧
      ordinal ≤ a'.last_ordinal ∧
      a'.value_ex.toNat = min (units.toNat * rateLimitingPrecision + v.toNat) (2 ^ 64 - 1) := by
  obtain ⟨v, hv, -⟩ := a.valueExAt_le ordinal window_size
  -- the slot the value is read at, and the value, after the decay
  obtain ⟨b, hb, hlast, hvalue⟩ : ∃ b, (if a.last_ordinal < ordinal then a.advance ordinal window_size
      else pure a) = .ok b ∧ ordinal ≤ b.last_ordinal ∧ b.value_ex = v := by
    by_cases hlt : a.last_ordinal < ordinal
    · refine ⟨⟨ordinal, v⟩, ?_, UInt32.le_refl _, rfl⟩
      rw [if_pos hlt, advance, hv]
      rfl
    · have hle := UInt32.not_lt.1 hlt
      rw [valueExAt_of_le hle, Except.ok.injEq] at hv
      exact ⟨a, if_neg hlt, hle, hv⟩
  have hmin : min (units.toNat * rateLimitingPrecision + b.value_ex.toNat) (2 ^ 64 - 1) ≤
      2 ^ 64 - 1 := Nat.min_le_right _ _
  refine ⟨v, { b with value_ex := Nat.toUInt64 (min (units.toNat * rateLimitingPrecision +
    b.value_ex.toNat) (2 ^ 64 - 1)) }, hv, ?_, hlast, ?_⟩
  · rw [add, eosAssert_bind, if_pos (decide_eq_true hunits), hb, ok_bind,
      downgradeCast_eq_ok.2 ⟨hmin, rfl⟩, ok_bind]
    rfl
  · show (Nat.toUInt64 _).toNat = _
    rw [Nat.toUInt64, UInt64.toNat_ofNat', Nat.mod_eq_of_lt (by omega), hvalue]

/-- Rounded up, a multiple of the divisor is its quotient. -/
theorem integerDivideCeil_mul_self (n : Nat) {den : Nat} (hden : 0 < den) :
    integerDivideCeil (den * n) den = n := by
  rw [integerDivideCeil, Nat.mul_div_cancel_left _ hden, Nat.mul_mod_right, if_neg (by omega),
    Nat.add_zero]

/-- A value within the precision times `T` reads at most `T` at every slot. -/
theorem valueAt_le_of_le {a : ExponentialDecayAccumulator} {T : Nat}
    (h : a.value_ex.toNat ≤ rateLimitingPrecision * T) (ordinal window_size : UInt32) :
    ∃ r, a.valueAt ordinal window_size = .ok r ∧ r.toNat ≤ T := by
  obtain ⟨v, hv, hle⟩ := a.valueExAt_le ordinal window_size
  have hP : 0 < rateLimitingPrecision := by decide
  refine ⟨_, by rw [valueAt, hv, ok_bind]; rfl, ?_⟩
  calc (integerDivideCeil v.toNat rateLimitingPrecision).toUInt64.toNat
      ≤ integerDivideCeil v.toNat rateLimitingPrecision := by
        rw [Nat.toUInt64, UInt64.toNat_ofNat']
        exact Nat.mod_le _ _
    _ ≤ integerDivideCeil (rateLimitingPrecision * T) rateLimitingPrecision :=
        integerDivideCeil_le_of_le hP (hle.trans h)
    _ = T := integerDivideCeil_mul_self T hP

/-- A window after the last slot, the value is zero. -/
theorem valueAt_of_window {a : ExponentialDecayAccumulator} {ordinal window_size : UInt32}
    (hlt : a.last_ordinal < ordinal)
    (h : a.last_ordinal.toNat + window_size.toNat ≤ ordinal.toNat) :
    a.valueAt ordinal window_size = .ok 0 := by
  rw [valueAt, valueExAt_of_window hlt h, ok_bind]
  rfl

end ExponentialDecayAccumulator

end InfraBlockchain.Resource
