import Mathlib.Data.Nat.Digits.Defs
import InfraBlockchain.Lib.Radix

/-!
# Decimal text

The decimal text of a number is `Nat.toDigits 10`, and `Nat.ofDigitChars 10` reads a run of
digits back (`value`). `padded w r` is the text of `r` in exactly `w` digits, leading zeros
included: it is what is left of the text of `10 ^ w + r` once its leading `1` is dropped, the
usual way of printing a fraction. `parse` reads an optional sign and one digit or more.

Printing and parsing are inverse (`parse_text`), a padded text reads back as its value
(`value_padded`), and a run of `w` digits is below `10 ^ w` (`value_lt`), which is how the value of
a text is split at a place.
-/

namespace Decimal

/-- The value of a run of digits, most significant first. -/
def value (ds : List Char) : Nat := Nat.ofDigitChars 10 ds 0

/-- A text of one digit or more and nothing else, read as a number. -/
def unsigned (ds : List Char) : Option Nat :=
  if !ds.isEmpty && ds.all Char.isDigit then some (value ds) else none

/-- Reading a decimal integer: an optional sign, then one digit or more. -/
def parse : List Char → Option Int
  | [] => none
  | c :: ds =>
    if c = '-' then (unsigned ds).map fun n => -(n : Int)
    else if c = '+' then (unsigned ds).map fun n => (n : Int)
    else (unsigned (c :: ds)).map fun n => (n : Int)

/-- The text of an integer: a minus sign before a negative one, then the digits of its
magnitude. -/
def text (v : Int) : List Char :=
  if v < 0 then '-' :: Nat.toDigits 10 v.natAbs else Nat.toDigits 10 v.natAbs

/-- The text of `r` in exactly `w` digits, leading zeros included. -/
def padded (w r : Nat) : List Char := (Radix.digitsLE 10 w r).reverse.map Nat.digitChar

/-! ## Digits -/

/-- `digitChar` of a digit is a digit character. -/
theorem isDigit_digitChar : ∀ d < 10, (Nat.digitChar d).isDigit := by decide

/-- The code of a digit character, less that of '0', is the digit. -/
theorem digitChar_sub_zero : ∀ d < 10, (Nat.digitChar d).toNat - '0'.toNat = d := by decide

/-- A digit's character stands for a number below ten. -/
theorem sub_zero_lt_ten {c : Char} (h : c.isDigit) : c.toNat - '0'.toNat < 10 := by
  have hc : 48 ≤ c.toNat ∧ c.toNat ≤ 57 := by
    simp only [Char.isDigit, Bool.and_eq_true, decide_eq_true_eq] at h
    exact h
  have hzero : '0'.toNat = 48 := rfl
  omega

/-- The decimal text of a number is digits. -/
theorem isDigit_of_mem_toDigits {c : Char} {n : Nat} (h : c ∈ Nat.toDigits 10 n) : c.isDigit :=
  Nat.isDigit_of_mem_toDigits (by decide) (by decide) h

/-- No character that is not a digit occurs in a number's text. -/
theorem not_mem_toDigits {c : Char} (hc : c.isDigit = false) (n : Nat) :
    c ∉ Nat.toDigits 10 n := fun h => by
  rw [isDigit_of_mem_toDigits h] at hc
  contradiction

@[simp] theorem length_padded (w r : Nat) : (padded w r).length = w := by simp [padded]

/-- A padded decimal text is digits. -/
theorem isDigit_of_mem_padded {c : Char} {w r : Nat} (h : c ∈ padded w r) : c.isDigit := by
  obtain ⟨d, hd, rfl⟩ := List.mem_map.1 h
  obtain ⟨k, hk, rfl⟩ := List.mem_iff_getElem.1 (List.mem_reverse.1 hd)
  rw [List.getElem_eq_getD 0, Radix.getD_digitsLE, if_pos (by simpa using hk)]
  exact isDigit_digitChar _ (Nat.mod_lt _ (by decide))

/-! ## Reading digits back -/

/-- The digits read after a value `init` shift it up by their number. -/
theorem ofDigitChars_eq (l : List Char) (init : Nat) :
    Nat.ofDigitChars 10 l init = init * 10 ^ l.length + value l := by
  induction l generalizing init with
  | nil => simp [Nat.ofDigitChars, value]
  | cons c l ih =>
    have hstep (i : Nat) : Nat.ofDigitChars 10 (c :: l) i =
        Nat.ofDigitChars 10 l (10 * i + (c.toNat - '0'.toNat)) := rfl
    rw [value, hstep, hstep, ih, ih, List.length_cons, pow_succ]
    ring

/-- Reading two texts one after the other. -/
theorem value_append (xs ys : List Char) :
    value (xs ++ ys) = value xs * 10 ^ ys.length + value ys := by
  rw [value, Nat.ofDigitChars, List.foldl_append]
  exact ofDigitChars_eq ys _

/-- A run of `w` digits is below `10 ^ w`. -/
theorem value_lt {ds : List Char} (h : ∀ c ∈ ds, c.isDigit) : value ds < 10 ^ ds.length := by
  induction ds with
  | nil => simp [value, Nat.ofDigitChars]
  | cons c ds ih =>
    have hc := sub_zero_lt_ten (h c List.mem_cons_self)
    have hds := ih fun c' hc' => h c' (List.mem_cons_of_mem _ hc')
    have hcons : value (c :: ds) = (c.toNat - '0'.toNat) * 10 ^ ds.length + value ds := by
      rw [value, ← ofDigitChars_eq]
      simp [Nat.ofDigitChars]
    calc value (c :: ds) = (c.toNat - '0'.toNat) * 10 ^ ds.length + value ds := hcons
      _ < (c.toNat - '0'.toNat) * 10 ^ ds.length + 10 ^ ds.length := by omega
      _ = (c.toNat - '0'.toNat + 1) * 10 ^ ds.length := by ring
      _ ≤ 10 * 10 ^ ds.length := Nat.mul_le_mul_right _ hc
      _ = 10 ^ (c :: ds).length := by rw [List.length_cons, pow_succ']

@[simp] theorem value_toDigits (n : Nat) : value (Nat.toDigits 10 n) = n :=
  Nat.ofDigitChars_ten_toDigits

/-- Digits read back from their characters, most significant first. -/
theorem value_reverse_map {l : List Nat} (hl : ∀ d ∈ l, d < 10) :
    value (l.reverse.map Nat.digitChar) = Nat.ofDigits 10 l := by
  induction l with
  | nil => rfl
  | cons d l ih =>
    have hsingle : value [Nat.digitChar d] = d := by
      show 10 * 0 + ((Nat.digitChar d).toNat - '0'.toNat) = d
      rw [digitChar_sub_zero d (hl d List.mem_cons_self), Nat.mul_zero, Nat.zero_add]
    rw [List.reverse_cons, List.map_append, value_append, ih fun d' h => hl d' (List.mem_cons_of_mem _ h),
      Nat.ofDigits_cons, List.map_singleton, hsingle, List.length_singleton, pow_one]
    ring

/-- A padded text reads back its number. -/
theorem value_padded {w r : Nat} (hr : r < 10 ^ w) : value (padded w r) = r := by
  have hdigits : ∀ d ∈ Radix.digitsLE 10 w r, d < 10 := by
    intro d hd
    obtain ⟨k, hk, rfl⟩ := List.mem_iff_getElem.1 hd
    rw [List.getElem_eq_getD 0, Radix.getD_digitsLE, if_pos (by simpa using hk)]
    exact Nat.mod_lt _ (by decide)
  rw [padded, value_reverse_map hdigits, Radix.ofDigits_digitsLE hr]

/-- The text of `10 ^ w + r` is a `1` before the `w` digits of `r`. By induction on `w`: the
last digit of `r` is the last character, and the rest is the text of `10 ^ w + r / 10`. -/
theorem toDigits_pow_add : ∀ {w r : Nat}, r < 10 ^ w →
    Nat.toDigits 10 (10 ^ w + r) = '1' :: padded w r
  | 0, r, hr => by
    have hr0 : r = 0 := by simpa using hr
    subst hr0
    decide
  | w + 1, r, hr => by
    have hq : r / 10 < 10 ^ w := by
      rw [pow_succ'] at hr
      exact Nat.div_lt_of_lt_mul hr
    have hsplit : 10 ^ (w + 1) + r = 10 * (10 ^ w + r / 10) + r % 10 := by
      rw [pow_succ]
      omega
    have hpad : padded (w + 1) r = padded w (r / 10) ++ [Nat.digitChar (r % 10)] := by
      simp [padded, Radix.digitsLE]
    rw [hsplit, ← Nat.toDigits_append_toDigits (by decide) (by positivity) (Nat.mod_lt _ (by decide)),
      toDigits_pow_add hq, Nat.toDigits_of_lt_base (Nat.mod_lt _ (by decide)), hpad, List.cons_append]

/-! ## Parsing -/

/-- A nonempty text of digits reads as its value. -/
theorem unsigned_of_digits {ds : List Char} (hne : ds ≠ []) (h : ∀ c ∈ ds, c.isDigit) :
    unsigned ds = some (value ds) := by
  have hall : ds.all Char.isDigit = true := List.all_eq_true.2 h
  simp [unsigned, hne, hall]

/-- A run of digits parses as its value. -/
theorem parse_of_digits {ds : List Char} (hne : ds ≠ []) (h : ∀ c ∈ ds, c.isDigit) :
    parse ds = some (value ds : Int) := by
  obtain ⟨c, cs, rfl⟩ := List.exists_cons_of_ne_nil hne
  have hc := h c List.mem_cons_self
  have hminus : c ≠ '-' := fun hm => by rw [hm] at hc; contradiction
  have hplus : c ≠ '+' := fun hp => by rw [hp] at hc; contradiction
  rw [parse, if_neg hminus, if_neg hplus, unsigned_of_digits hne h]
  rfl

/-- A minus sign before a run of digits parses as the negated value. -/
theorem parse_neg_of_digits {ds : List Char} (hne : ds ≠ []) (h : ∀ c ∈ ds, c.isDigit) :
    parse ('-' :: ds) = some (-(value ds : Int)) := by
  rw [parse, if_pos rfl, unsigned_of_digits hne h]
  rfl

/-- A number's text, after a minus sign or none, parses as the number with that sign. -/
theorem parse_sign_toDigits (neg : Bool) (n : Nat) :
    parse ((if neg then ['-'] else []) ++ Nat.toDigits 10 n) = some (if neg then -(n : Int) else n) := by
  have hne : Nat.toDigits 10 n ≠ [] := Nat.toDigits_ne_nil
  have hdig : ∀ c ∈ Nat.toDigits 10 n, c.isDigit := fun _ h => isDigit_of_mem_toDigits h
  cases neg with
  | false => simpa using parse_of_digits hne hdig
  | true => simpa using parse_neg_of_digits hne hdig

/-- Printing then parsing gives the integer back. -/
theorem parse_text (v : Int) : parse (text v) = some v := by
  unfold text
  split
  · rename_i hneg
    have h := parse_sign_toDigits true v.natAbs
    simp only [if_true, List.singleton_append] at h
    rw [h]
    congr 1
    omega
  · rename_i hnonneg
    have h := parse_sign_toDigits false v.natAbs
    simp only [Bool.false_eq_true, if_false, List.nil_append] at h
    rw [h]
    congr 1
    omega

end Decimal
