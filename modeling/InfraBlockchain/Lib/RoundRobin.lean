import Mathlib.Data.Nat.ModEq
import Mathlib.Tactic.Ring

/-!
# Round-robin turns

`n` parties take turns of `R` consecutive slots each, party `0` first, over and over: slot `x`
belongs to party `turn n R x = x % (n * R) / R`, the number of its turn `x / R` modulo `n`
(`turn_eq_div_mod`).

`firstTurnFrom n R i m` is the first slot at or after `m` that belongs to party `i`: `m` itself
when it does, and otherwise the first slot of the party's next turn, `(m / R + d) * R` for the
distance `d = (i + n - turn n R m) % n` by which its turn follows that of `m`. It belongs to
party `i`, is at least `m` and at most every slot at or after `m` of party `i`
(`turn_firstTurnFrom`, `le_firstTurnFrom`, `firstTurnFrom_le`), and it comes before
`m + n * R`, a whole round after `m` (`firstTurnFrom_lt`).
-/

namespace RoundRobin

/-- The party of slot `x`. -/
def turn (n R x : Nat) : Nat := x % (n * R) / R

/-- The distance, counted forward modulo `n`, from turn `c` to party `i`'s. -/
def distance (n i c : Nat) : Nat := (i + n - c) % n

/-- The first slot at or after `m` that belongs to party `i`. -/
def firstTurnFrom (n R i m : Nat) : Nat :=
  if turn n R m = i then m else (m / R + distance n i (turn n R m)) * R

/-- A turn is the round of the slot modulo the producers. -/
theorem turn_eq_div_mod (n R x : Nat) : turn n R x = x / R % n :=
  Nat.mod_mul_left_div_self x R n

/-- A turn is one of the producers. -/
theorem turn_lt {n : Nat} (hn : 0 < n) (R x : Nat) : turn n R x < n := by
  rw [turn_eq_div_mod]
  exact Nat.mod_lt _ hn

/-- The distance without the modulus: forward within the round, or across its end. -/
theorem distance_eq {n i c : Nat} (hi : i < n) (hc : c < n) :
    distance n i c = if c ≤ i then i - c else i + n - c := by
  unfold distance
  split
  · rw [show i + n - c = i - c + n by omega, Nat.add_mod_right, Nat.mod_eq_of_lt (by omega)]
  · exact Nat.mod_eq_of_lt (by omega)

/-- Moving forward by the distance from a turn reaches party `i`. -/
theorem add_distance_mod {n i : Nat} (hi : i < n) (c : Nat) :
    (c + distance n i (c % n)) % n = i := by
  have hc := Nat.mod_lt c (Nat.zero_lt_of_lt hi)
  rw [distance, Nat.add_mod_mod, ← Nat.mod_add_mod, show c % n + (i + n - c % n) = i + n by omega, Nat.add_mod_right, Nat.mod_eq_of_lt hi]

section Turns

variable {n R i m : Nat} (hR : 0 < R) (hi : i < n)
include hR hi

/-- The first turn of `i` from `m` is `i`'s. -/
theorem turn_firstTurnFrom : turn n R (firstTurnFrom n R i m) = i := by
  unfold firstTurnFrom
  split
  · assumption
  · simp only [turn_eq_div_mod]
    rw [Nat.mul_div_cancel _ hR]
    exact add_distance_mod hi (m / R)

omit hR in
/-- Off party `i`'s turn, its next turn is at least one turn away. -/
theorem distance_pos (h : turn n R m ≠ i) : 0 < distance n i (turn n R m) := by
  have hc := turn_lt (Nat.zero_lt_of_lt hi) R m
  rw [distance_eq hi hc]
  split <;> omega

/-- The first turn from `m` is not before `m`. -/
theorem le_firstTurnFrom : m ≤ firstTurnFrom n R i m := by
  unfold firstTurnFrom
  split
  · exact Nat.le_refl m
  · rename_i h
    have hd := distance_pos hi h
    calc m ≤ R * (m / R + 1) := Nat.le_of_lt (Nat.lt_mul_div_succ m hR)
      _ = (m / R + 1) * R := Nat.mul_comm _ _
      _ ≤ (m / R + distance n i (turn n R m)) * R := Nat.mul_le_mul_right _ (by omega)

omit hR in
/-- No slot at or after `m` of party `i` comes before `firstTurnFrom`: its turn follows that of
`m` by a multiple of `n` rounds plus the distance, so by at least the distance. -/
theorem firstTurnFrom_le {x : Nat} (hmx : m ≤ x) (hx : turn n R x = i) :
    firstTurnFrom n R i m ≤ x := by
  unfold firstTurnFrom
  split
  · exact hmx
  · rename_i hm
    have hc0 : m / R ≤ x / R := Nat.div_le_div_right hmx
    -- the turns of `m` and `x` are congruent up to the distance
    have hcong : (m / R + (x / R - m / R)) % n = (m / R + distance n i (turn n R m)) % n := by
      rw [Nat.add_sub_cancel' hc0, ← turn_eq_div_mod, hx, turn_eq_div_mod,
        add_distance_mod hi (m / R)]
    have hmod : (x / R - m / R) % n = distance n i (turn n R m) := by
      rw [Nat.ModEq.add_left_cancel' (m / R) hcong, distance]
      exact Nat.mod_mod _ _
    have hle : m / R + distance n i (turn n R m) ≤ x / R := by
      have := Nat.mod_le (x / R - m / R) n
      omega
    calc (m / R + distance n i (turn n R m)) * R ≤ x / R * R := Nat.mul_le_mul_right _ hle
      _ ≤ x := Nat.div_mul_le_self x R

/-- The first turn of party `i` from `m` starts within a round of `m`. -/
theorem firstTurnFrom_lt : firstTurnFrom n R i m < m + n * R := by
  have hnR : R ≤ n * R := Nat.le_mul_of_pos_left R (Nat.zero_lt_of_lt hi)
  unfold firstTurnFrom
  split
  · omega
  · have hd : distance n i (turn n R m) + 1 ≤ n := Nat.mod_lt _ (Nat.zero_lt_of_lt hi)
    have hstep : (distance n i (turn n R m) + 1) * R ≤ n * R := Nat.mul_le_mul_right _ hd
    have hsplit : (m / R + distance n i (turn n R m)) * R + R =
        m / R * R + (distance n i (turn n R m) + 1) * R := by ring
    have hfloor := Nat.div_mul_le_self m R
    omega

end Turns

end RoundRobin
