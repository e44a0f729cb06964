import Mathlib.Data.Nat.Digits.Lemmas
import Mathlib.Data.Nat.Size
import Mathlib.Data.List.GetD

/-!
# Fixed-width positional notation

A word that packs fields of a few bits each is a number written in a base with a fixed number of
digits: `digitsLE b w n` are the `w` lowest digits of `n` in base `b`, least significant first,
leading zeros included, and `Nat.ofDigits` reads such a list back. Digit `j` of a list read back is
the quotient by `b ^ j` taken modulo `b`, and a field placed above the bits of a smaller one is
combined with it by `|||` as by `+`.

In base two, `Nat.size` is the number of digits. Or-ing a number with its shifts by `1, 2, 4, …`
sets every bit below the highest one (`TopBits`), which is how a word is rounded up to a power of
two without a loop.
-/

namespace Radix

/-- The `w` lowest digits of `n` in base `b`, least significant first. -/
def digitsLE (b : Nat) : Nat → Nat → List Nat
  | 0, _ => []
  | w + 1, n => n % b :: digitsLE b w (n / b)

@[simp] theorem length_digitsLE (b w n : Nat) : (digitsLE b w n).length = w := by
  induction w generalizing n with
  | zero => rfl
  | succ w ih => simp [digitsLE, ih]

/-- A number below `b ^ w` is its `w` digits read back. -/
theorem ofDigits_digitsLE {b : Nat} : ∀ {w n : Nat}, n < b ^ w → Nat.ofDigits b (digitsLE b w n) = n
  | 0, n, h => by
    have : n = 0 := by simpa using h
    simp [digitsLE, this]
  | w + 1, n, h => by
    have hq : n / b < b ^ w := by
      rw [pow_succ] at h
      exact Nat.div_lt_of_lt_mul (by rwa [Nat.mul_comm] at h)
    rw [digitsLE, Nat.ofDigits_cons, ofDigits_digitsLE hq]
    exact Nat.mod_add_div n b

/-- Digit `j` of a number read back from digits below `b` is digit `j` of the list, and `0` above
it. By induction on the list: the lowest digit is the remainder, and dividing by `b` drops it. -/
theorem ofDigits_div_pow_mod {b : Nat} :
    ∀ {l : List Nat}, (∀ d ∈ l, d < b) → ∀ j, Nat.ofDigits b l / b ^ j % b = l.getD j 0
  | [], _, j => by simp
  | d :: l, hl, j => by
    have hd : d < b := hl d List.mem_cons_self
    have hb : 0 < b := Nat.zero_lt_of_lt hd
    cases j with
    | zero => simp [Nat.ofDigits_cons, Nat.add_mul_mod_self_left, Nat.mod_eq_of_lt hd]
    | succ j =>
      have hdrop : (d + b * Nat.ofDigits b l) / b = Nat.ofDigits b l := by
        rw [Nat.add_mul_div_left _ _ hb, Nat.div_eq_of_lt hd, Nat.zero_add]
      rw [Nat.ofDigits_cons, pow_succ', ← Nat.div_div_eq_div_mul, hdrop,
        ofDigits_div_pow_mod (fun d hd => hl d (List.mem_cons_of_mem _ hd)) j]
      simp

/-- A field below bit `k` and a multiple of `2 ^ k` have no bit in common: their `|||` is their
sum. -/
theorem mul_two_pow_or_eq_add {k r : Nat} (hr : r < 2 ^ k) (a : Nat) :
    a * 2 ^ k ||| r = a * 2 ^ k + r := by
  rw [← Nat.shiftLeft_eq, Nat.shiftLeft_add_eq_or_of_lt hr]

/-- Two fields with no bit in common, the lower one below `2 ^ m` before both are shifted by
`k`. -/
theorem mul_two_pow_or_mul_two_pow {m r : Nat} (hr : r < 2 ^ m) (a k : Nat) :
    a * 2 ^ (m + k) ||| r * 2 ^ k = (a * 2 ^ m + r) * 2 ^ k := by
  have hhigh : a * 2 ^ (m + k) = (a * 2 ^ m) <<< k := by
    rw [Nat.shiftLeft_eq, pow_add, Nat.mul_assoc]
  have hlow : r * 2 ^ k = r <<< k := (Nat.shiftLeft_eq r k).symm
  rw [hhigh, hlow, ← Nat.shiftLeft_or_distrib, mul_two_pow_or_eq_add hr, Nat.shiftLeft_eq]

/-- Digit `j` of the `w` digits of `n`. -/
theorem getD_digitsLE (b : Nat) : ∀ (w n j : Nat),
    (digitsLE b w n).getD j 0 = if j < w then n / b ^ j % b else 0
  | 0, n, j => by simp [digitsLE]
  | w + 1, n, 0 => by simp [digitsLE]
  | w + 1, n, j + 1 => by
    rw [digitsLE, List.getD_cons_succ, getD_digitsLE b w (n / b) j, pow_succ',
      Nat.div_div_eq_div_mul]
    simp

/-- A list of `w` entries that has the digits of `n` at every place is the digits of `n`. -/
theorem eq_digitsLE {b w n : Nat} {l : List Nat} (hlen : l.length = w)
    (h : ∀ k < w, l.getD k 0 = n / b ^ k % b) : l = digitsLE b w n := by
  apply List.ext_getElem (by simp [hlen])
  intro k hk _
  have hkw : k < w := hlen ▸ hk
  have hl := h k hkw
  have hd := getD_digitsLE b w n k
  rw [List.getD_eq_getElem l 0 hk] at hl
  rw [List.getD_eq_getElem _ 0 (by simpa using hkw), if_pos hkw] at hd
  rw [hl, hd]

/-! ## Binary length -/

/-- A positive number has one binary digit more than its half. -/
theorem size_eq_size_div_two_add_one {n : Nat} (h : n ≠ 0) : Nat.size n = Nat.size (n / 2) + 1 := by
  have hle : ∀ m, Nat.size n ≤ m + 1 ↔ Nat.size (n / 2) ≤ m := by
    intro m
    rw [Nat.size_le, Nat.size_le, pow_succ]
    omega
  have hpos : 0 < Nat.size n := Nat.size_pos.2 (Nat.pos_of_ne_zero h)
  have h₁ := (hle (Nat.size (n / 2))).2 le_rfl
  have h₂ := (hle (Nat.size n - 1)).1 (by omega)
  omega

/-- The highest set bit of a positive number is bit `size - 1`. -/
theorem testBit_size_sub_one {w : Nat} (h : w ≠ 0) : w.testBit (Nat.size w - 1) = true := by
  have hsize : Nat.size w = Nat.log2 w + 1 := by
    apply le_antisymm
    · exact Nat.size_le.2 Nat.lt_log2_self
    · exact Nat.lt_size.2 (Nat.log2_self_le h)
  rw [hsize, Nat.add_sub_cancel]
  exact Nat.testBit_log2 h

/-- A number below `2 ^ s` whose bits from `s - c` up to `s` are set. -/
structure TopBits (s c x : Nat) : Prop where
  /-- Below `2 ^ s`. -/
  lt : x < 2 ^ s
  /-- The bits from `s - c` up to `s` are set. -/
  set : ∀ i < s, s ≤ i + c → x.testBit i = true

/-- Every number has its highest bit set. -/
theorem TopBits.of_size (w : Nat) : TopBits (Nat.size w) 1 w := by
  refine ⟨Nat.lt_size_self w, fun i hi hic => ?_⟩
  have hi' : i = Nat.size w - 1 := by omega
  have hw : w ≠ 0 := by
    rintro rfl
    simp at hi
  rw [hi']
  exact testBit_size_sub_one hw

/-- Or-ing with the shift by `c` doubles the run of set bits at the top. -/
theorem TopBits.or_shiftRight {s c x : Nat} (h : TopBits s c x) :
    TopBits s (2 * c) (x ||| x >>> c) := by
  refine ⟨Nat.or_lt_two_pow h.lt (lt_of_le_of_lt (Nat.shiftRight_le x c) h.lt), fun i hi hic => ?_⟩
  rw [Nat.testBit_or, Nat.testBit_shiftRight, Bool.or_eq_true]
  by_cases hlow : s ≤ i + c
  · exact .inl (h.set i hi hlow)
  · exact .inr (h.set (c + i) (by omega) (by omega))

/-- A run of set bits as long as the number is all ones. -/
theorem TopBits.eq_two_pow_sub_one {s c x : Nat} (h : TopBits s c x) (hc : s ≤ c) :
    x = 2 ^ s - 1 := by
  apply Nat.eq_of_testBit_eq
  intro i
  rw [Nat.testBit_two_pow_sub_one]
  by_cases hi : i < s
  · rw [h.set i hi (by omega), decide_eq_true hi]
  · have hlt : x < 2 ^ i := lt_of_lt_of_le h.lt (Nat.pow_le_pow_right (by decide) (by omega))
    rw [Nat.testBit_lt_two_pow hlt, decide_eq_false hi]

end Radix
