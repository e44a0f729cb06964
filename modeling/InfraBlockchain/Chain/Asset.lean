import Mathlib
import InfraBlockchain.Lib.Decimal
import InfraBlockchain.Types

/-!
# Asset and symbol text

`asset::to_string` (`asset.cpp`) prints an amount as its sign, its integer part and, when the
symbol has decimals, a point and the fraction zero-padded to the number of decimals, then a space
and the symbol's name. `asset::from_string` splits a text at its first space, takes the precision
from the number of digits after the point, reads the symbol through `symbol::from_string` and the
amount through `fc::to_int64` in checked arithmetic. `symbol::operator string` (`symbol.hpp`)
prints the precision, a comma and the name, and `symbol::from_string` reads them back through
`string_to_symbol`, which packs the name's characters into the bytes above the precision.

A `std::string` is its list of characters. fc's conversions and checked arithmetic are outside
the repository and are modelled as exact: `fc::to_string` prints the decimal text of an
`int64_t`, `fc::to_int64` reads an optional sign and digits into one, and `fc::safe<int64_t>`
gives the exact result or raises.

Every valid asset whose symbol has a name prints to a text that reads back as the same asset,
and so does every valid symbol with a name (`Asset.fromString_toString`,
`Symbol.fromString_toString`). The name's bytes are the base-256 digits of the word above the
precision, so packing them again gives the word; the fraction is printed in exactly as many digits
as the precision, so the parser finds the same precision; and the parser gives the sign of the text
back to the fraction, also when the integer part is zero.
-/

namespace InfraBlockchain

/-! ## fc's text and arithmetic -/

/-- The blanks that `fc::trim` removes, those of `std::isspace`. -/
def fcIsSpace (c : Char) : Bool :=
  c == ' ' || c == '\t' || c == '\n' || c == '\x0B' || c == '\x0C' || c == '\r'

/-- `fc::trim`: the text without the blanks at either end. -/
def fcTrim (s : List Char) : List Char := (s.dropWhile fcIsSpace).rdropWhile fcIsSpace

/-- `std::string::find` of a character: the place of its first occurrence, `none` for `npos`. -/
def stringFind (s : List Char) (c : Char) : Option Nat := s.findIdx? (· == c)

/-- `fc::to_string(int64_t)`. -/
def fcToString (v : Int64) : List Char := Decimal.text v.toInt

/-- `fc::to_int64`: the decimal value of the text, which must be an `int64_t`. -/
def fcToInt64 (s : List Char) : Except Exception Int64 :=
  match Decimal.parse s with
  | some v =>
    if -2 ^ 63 ≤ v ∧ v < 2 ^ 63 then .ok (Int64.ofInt v)
    else .error ⟨.parse_error_exception, "Couldn\x27t parse int64_t"⟩
  | none => .error ⟨.parse_error_exception, "Couldn\x27t parse int64_t"⟩

/-- The result of `fc::safe<int64_t>` arithmetic: the exact value, which must be an `int64_t`. -/
def fcSafe (v : Int) : Except Exception Int64 :=
  if v < -2 ^ 63 then .error ⟨.underflow_exception, ""⟩
  else if 2 ^ 63 ≤ v then .error ⟨.overflow_exception, ""⟩
  else .ok (Int64.ofInt v)

/-- `fc::safe<int64_t>::operator*`. -/
def safeMul (a b : Int64) : Except Exception Int64 := fcSafe (a.toInt * b.toInt)

/-- `fc::safe<int64_t>::operator+`. -/
def safeAdd (a b : Int64) : Except Exception Int64 := fcSafe (a.toInt + b.toInt)

/-! ## Symbols -/

/-- `symbol::name`, as the characters of the text. -/
def Symbol.nameText (s : Symbol) : List Char := s.name.map Char.ofNat

/-- `symbol::operator string`: the precision, a comma and the name. -/
def Symbol.toString (s : Symbol) : List Char := Nat.toDigits 10 s.decimals ++ ',' :: s.nameText

/-- The loop of `string_to_symbol` from character `i`: each character must be an upper-case
letter, and goes into byte `i + 1` of the word. -/
def stringToSymbolAux : Nat → List Char → UInt64 → Except Exception UInt64
  | _, [], result => .ok result
  | i, c :: cs, result => do
    eosAssert ('A' ≤ c && c ≤ 'Z') .symbol_type_exception "invalid character in symbol name"
    stringToSymbolAux (i + 1) cs (result ||| c.toNat.toUInt64 <<< (8 * (i + 1)).toUInt64)

/-- `string_to_symbol`: the characters of the C string, up to its first NUL, above the
precision. -/
def stringToSymbol (precision : UInt8) (str : List Char) : Except Exception UInt64 := do
  let result ← stringToSymbolAux 0 (str.takeWhile (· ≠ '\x00')) 0
  pure (result ||| precision.toUInt64)

/-- `symbol(uint64_t v)`: the word, which must be a valid symbol. -/
def Symbol.make (v : UInt64) : Except Exception Symbol := do
  eosAssert (Symbol.valid ⟨v⟩) .symbol_type_exception "invalid symbol: ${name}"
  pure ⟨v⟩

/-- `symbol::from_string`. -/
def Symbol.fromString (str : List Char) : Except Exception Symbol := do
  let s := fcTrim str
  eosAssert (!s.isEmpty) .symbol_type_exception "creating symbol from empty string"
  match stringFind s ',' with
  | none => .error ⟨.symbol_type_exception, "missing comma in symbol"⟩
  | some comma_pos =>
    let prec_part := s.take comma_pos
    -- `uint8_t p = fc::to_int64(prec_part)` keeps the low byte
    let p : UInt8 := (← fcToInt64 prec_part).toUInt64.toUInt8
    let name_part := s.drop (comma_pos + 1)
    eosAssert (p.toNat ≤ Symbol.maxPrecision) .symbol_type_exception "precision ${p} should be <= 18"
    Symbol.make (← stringToSymbol p name_part)

/-- `symbol::precision`: ten to the number of decimals, which must be at most `18`. -/
def Symbol.precision (s : Symbol) : Except Exception UInt64 := do
  eosAssert (s.decimals ≤ Symbol.maxPrecision) .symbol_type_exception
    "precision ${p} should be <= 18"
  pure (10 ^ s.decimals).toUInt64

/-! ## Assets -/

/-- `asset::precision`, the symbol's as an `int64_t`. -/
def Asset.precision (a : Asset) : Except Exception Int64 := do
  pure (← a.sym.precision).toInt64

/-- `asset::to_string`. -/
def Asset.toString (a : Asset) : Except Exception (List Char) := do
  let sign := if a.amount < 0 then ['-'] else []
  let abs_amount := if a.amount < 0 then -a.amount else a.amount
  let precision ← a.precision
  let result := fcToString (abs_amount / precision)
  -- the fraction is zero-padded: `precision + fract` is printed and its leading `1` erased
  let result := if a.sym.decimals = 0 then result
    else result ++ '.' :: (fcToString (precision + abs_amount % precision)).drop 1
  pure (sign ++ result ++ ' ' :: a.sym.nameText)

/-- `asset(share_type a, symbol id)`: the amount must be within range and the symbol valid. -/
def Asset.make (amount : Int64) (sym : Symbol) : Except Exception Asset := do
  eosAssert (Asset.isAmountWithinRange ⟨amount, sym⟩) .asset_type_exception
    "magnitude of asset amount must be less than 2^62"
  eosAssert sym.valid .asset_type_exception "invalid symbol"
  pure ⟨amount, sym⟩

/-- `asset::from_string`. -/
def Asset.fromString (str : List Char) : Except Exception Asset := do
  let s := fcTrim str
  match stringFind s ' ' with
  | none =>
    .error ⟨.asset_type_exception, "Asset\x27s amount and symbol should be separated with space"⟩
  | some space_pos =>
    let symbol_str := fcTrim (s.drop (space_pos + 1))
    let amount_str := s.take space_pos
    let dot_pos := stringFind amount_str '.'
    match dot_pos with
    | some dot =>
      eosAssert (dot ≠ amount_str.length - 1) .asset_type_exception
        "Missing decimal fraction after decimal point"
    | none => pure ()
    -- the precision is the number of digits after the point
    let precision_digit_str := match dot_pos with
      | some dot => Nat.toDigits 10 (amount_str.length - dot - 1)
      | none => ['0']
    let sym ← Symbol.fromString (precision_digit_str ++ ',' :: symbol_str)
    let int_part ← fcToInt64 (match dot_pos with
      | some dot => amount_str.take dot
      | none => amount_str)
    let fract_part ← match dot_pos with
      | some dot => do
        let fract_part ← fcToInt64 (amount_str.drop (dot + 1))
        -- the fraction takes the sign of the text
        if amount_str.head? = some '-' then safeMul fract_part (-1) else pure fract_part
      | none => pure 0
    let amount ← safeMul int_part (← sym.precision).toInt64
    let amount ← safeAdd amount fract_part
    Asset.make amount sym

/-! ## Characters -/

/-- The blanks of `fc::trim` are the characters up to the space. -/
theorem fcIsSpace_eq_false {c : Char} (h : 33 ≤ c.toNat) : fcIsSpace c = false := by
  cases hsp : fcIsSpace c with
  | false => rfl
  | true =>
    simp only [fcIsSpace, Bool.or_eq_true, beq_iff_eq] at hsp
    rcases hsp with ((((hc | hc) | hc) | hc) | hc) | hc <;> (subst hc; simp at h)

/-- A decimal digit's code lies between those of '0' and '9'. -/
theorem toNat_of_isDigit {c : Char} (h : c.isDigit) : 48 ≤ c.toNat ∧ c.toNat ≤ 57 := by
  simp only [Char.isDigit, Bool.and_eq_true, decide_eq_true_eq] at h
  exact h

/-- A character of a valid symbol's name is an upper-case letter. -/
def IsUpper (c : Char) : Prop := 'A' ≤ c ∧ c ≤ 'Z'

instance : DecidablePred IsUpper := fun c => inferInstanceAs (Decidable ('A' ≤ c ∧ c ≤ 'Z'))

/-- An upper-case letter's code lies between those of 'A' and 'Z'. -/
theorem IsUpper.toNat {c : Char} (h : IsUpper c) : 65 ≤ c.toNat ∧ c.toNat ≤ 90 := h

/-- No upper-case letter is white space to `fcIsSpace`. -/
theorem IsUpper.not_space {c : Char} (h : IsUpper c) : fcIsSpace c = false :=
  fcIsSpace_eq_false (by have := h.toNat; omega)

/-! ## Reading text -/

/-- A text with no blank at either end is its own trim. -/
theorem fcTrim_eq_self {s : List Char} (hhead : ∀ c ∈ s.head?, fcIsSpace c = false)
    (hlast : ∀ c ∈ s.getLast?, fcIsSpace c = false) : fcTrim s = s := by
  have hdrop : s.dropWhile fcIsSpace = s := by
    refine List.dropWhile_eq_self_iff.2 fun hl => ?_
    rw [hhead s[0] (by simp [List.head?_eq_getElem?])]
    decide
  rw [fcTrim, hdrop]
  refine List.rdropWhile_eq_self_iff.2 fun hl => ?_
  rw [hlast (s.getLast hl) (List.getLast?_eq_some_getLast hl)]
  decide

/-- A text with no blank in it is its own trim. -/
theorem fcTrim_of_forall {s : List Char} (h : ∀ c ∈ s, fcIsSpace c = false) : fcTrim s = s :=
  fcTrim_eq_self (fun c hc => h c (List.mem_of_mem_head? hc))
    (fun c hc => h c (List.mem_of_getLast? hc))

/-- Two parts around a separator, the first with no blank at its start and the second with none
in it, make their own trim. -/
theorem fcTrim_append_cons {xs ys : List Char} {c : Char} (hxs : xs ≠ [])
    (hhead : ∀ x ∈ xs.head?, fcIsSpace x = false) (hys : ys ≠ [])
    (hblank : ∀ y ∈ ys, fcIsSpace y = false) : fcTrim (xs ++ c :: ys) = xs ++ c :: ys := by
  refine fcTrim_eq_self (fun x hx => hhead x ?_) fun y hy => hblank y ?_
  · have hsome := List.head?_eq_some_head hxs
    rw [List.head?_append, hsome, Option.some_or] at hx
    rwa [hsome]
  · rw [List.getLast?_append_of_ne_nil _ (List.cons_ne_nil c ys), List.getLast?_cons] at hy
    obtain ⟨x, hx, hyx⟩ : ∃ x, ys.getLast? = some x ∧ y = x := by
      cases hlast : ys.getLast? with
      | none => exact absurd (List.getLast?_eq_none_iff.1 hlast) hys
      | some x => rw [hlast] at hy; exact ⟨x, rfl, by simpa using hy.symm⟩
    exact hyx ▸ List.mem_of_getLast? hx

/-- What follows a separator after a part. -/
@[simp] theorem drop_succ_append_cons (xs ys : List Char) (c : Char) :
    (xs ++ c :: ys).drop (xs.length + 1) = ys := by
  simp

/-- `find` of a character that the text does not hold finds nothing. -/
theorem stringFind_eq_none {s : List Char} {c : Char} (h : c ∉ s) : stringFind s c = none := by
  rw [stringFind, List.findIdx?_eq_none_iff]
  intro x hx
  simpa using fun hxc : x = c => h (hxc ▸ hx)

/-- The first separator after a part that does not hold it is at the part's length. -/
theorem stringFind_append_cons {xs ys : List Char} {c : Char} (h : c ∉ xs) :
    stringFind (xs ++ c :: ys) c = some xs.length := by
  have hnone : xs.findIdx? (· == c) = none := stringFind_eq_none h
  rw [stringFind, List.findIdx?_append, hnone, List.findIdx?_cons]
  simp

/-! ## fc's conversions on exact values -/

/-- A decimal text whose value fits in 64 bits converts to that value. -/
theorem fcToInt64_of_parse {s : List Char} {v : Int} (h : Decimal.parse s = some v)
    (hlo : -2 ^ 63 ≤ v) (hhi : v < 2 ^ 63) : fcToInt64 s = .ok (Int64.ofInt v) := by
  simp only [fcToInt64, h]
  rw [if_pos ⟨hlo, hhi⟩]

/-- `safe` keeps a value within 64 bits. -/
theorem fcSafe_of_range {v : Int} (hlo : -2 ^ 63 ≤ v) (hhi : v < 2 ^ 63) :
    fcSafe v = .ok (Int64.ofInt v) := by
  rw [fcSafe, if_neg (by omega), if_neg (by omega)]

/-- The text of a nonnegative 64-bit integer is its decimal digits. -/
theorem fcToString_of_toInt {x : Int64} {m : Nat} (h : x.toInt = m) :
    fcToString x = Nat.toDigits 10 m := by
  rw [fcToString, Decimal.text, h, if_neg (by omega), Int.natAbs_natCast]

/-- A value within `int64_t` is its own wrap-around. -/
theorem bmod_of_range {v : Int} (hlo : -2 ^ 63 ≤ v) (hhi : v < 2 ^ 63) : v.bmod (2 ^ 64) = v :=
  Int.bmod_eq_of_le (by norm_num; omega) (by norm_num; omega)

/-! ## The symbol word -/

/-- The loop of `symbol::name` writes the base-256 digits of the word, lowest first. -/
theorem symbolNameBytes_eq_digits (v : Nat) : symbolNameBytes v = Nat.digits 256 v := by
  induction v using Nat.strong_induction_on with
  | _ v ih =>
    rw [symbolNameBytes]
    split
    · rename_i hv
      rw [hv, Nat.digits_zero]
    · rename_i hv
      rw [Nat.digits_def' (by decide) (Nat.pos_of_ne_zero hv),
        ih (v / 256) (Nat.div_lt_self (Nat.pos_of_ne_zero hv) (by decide))]

/-- The letters of a symbol are the bytes of its value above the lowest. -/
theorem Symbol.name_eq (s : Symbol) : s.name = Nat.digits 256 (s.value.toNat / 256) := by
  rw [Symbol.name, symbolNameBytes_eq_digits, UInt64.toNat_shiftRight, Nat.shiftRight_eq_div_pow]
  rfl

/-- The precision of a symbol is its lowest byte. -/
theorem Symbol.decimals_eq (s : Symbol) : s.decimals = s.value.toNat % 256 := by
  rw [Symbol.decimals, UInt64.toNat_and, show (0xFF : UInt64).toNat = 2 ^ 8 - 1 from rfl,
    Nat.and_two_pow_sub_one_eq_mod]

/-- The word is the name's bytes above the precision's. -/
theorem Symbol.value_eq (s : Symbol) :
    s.value.toNat = 256 * Nat.ofDigits 256 s.name + s.decimals := by
  rw [Symbol.name_eq, Nat.ofDigits_digits, Symbol.decimals_eq]
  omega

/-- A name has at most seven characters, the bytes above the precision. -/
theorem Symbol.length_name_le (s : Symbol) : s.name.length ≤ 7 := by
  rw [Symbol.name_eq, Nat.digits_length_le_iff (by decide)]
  have := s.value.toNat_lt
  omega

/-- A valid symbol has at most eighteen decimals. -/
theorem Symbol.decimals_le_of_valid {s : Symbol} (hs : s.valid) : s.decimals ≤ 18 := by
  simp only [Symbol.valid, Bool.and_eq_true, decide_eq_true_eq] at hs
  exact hs.1

/-- The letters of a valid symbol are codes of upper-case letters. -/
theorem Symbol.upper_of_valid {s : Symbol} (hs : s.valid) : ∀ c ∈ s.name, 65 ≤ c ∧ c ≤ 90 := by
  simp only [Symbol.valid, Symbol.validName, Bool.and_eq_true, List.all_eq_true,
    decide_eq_true_eq] at hs
  exact hs.2

/-- The name of a valid symbol, as text, is upper-case letters. -/
theorem Symbol.upper_of_mem_nameText {s : Symbol} (hs : s.valid) :
    ∀ c ∈ s.nameText, IsUpper c := by
  intro c hc
  obtain ⟨b, hb, rfl⟩ := List.mem_map.1 hc
  have hb' := s.upper_of_valid hs b hb
  have hvalid : b.isValidChar := Or.inl (by omega)
  show 65 ≤ (Char.ofNat b).toNat ∧ (Char.ofNat b).toNat ≤ 90
  rw [Char.toNat_ofNat, if_pos hvalid]
  exact hb'

/-- The codes of a valid symbol's text are its letters. -/
theorem Symbol.map_toNat_nameText {s : Symbol} (hs : s.valid) :
    s.nameText.map Char.toNat = s.name := by
  rw [Symbol.nameText, List.map_map]
  refine (List.map_congr_left fun b hb => ?_).trans (List.map_id' s.name)
  have hb' := s.upper_of_valid hs b hb
  show (Char.ofNat b).toNat = b
  rw [Char.toNat_ofNat, if_pos (Or.inl (by omega))]

/-! ## Packing a name -/

/-- The loop packs upper-case letters into the bytes from `i + 1` up, above the bytes that the
word already holds. By induction on the letters left. -/
theorem stringToSymbolAux_upper : ∀ (cs : List Char) (i : Nat) (result : UInt64),
    (∀ c ∈ cs, IsUpper c) → i + cs.length ≤ 7 → result.toNat < 2 ^ (8 * (i + 1)) →
    ∃ r : UInt64, stringToSymbolAux i cs result = .ok r ∧
      r.toNat = result.toNat + 2 ^ (8 * (i + 1)) * Nat.ofDigits 256 (cs.map Char.toNat)
  | [], _, result, _, _, _ => ⟨result, rfl, by simp⟩
  | c :: cs, i, result, hcs, hlen, hres => by
    have hc := hcs c List.mem_cons_self
    have hcode := hc.toNat
    have hlen' : i + 1 + cs.length ≤ 7 := by simp at hlen; omega
    have hpow : 2 ^ (8 * (i + 1 + 1)) = 2 ^ (8 * (i + 1)) * 256 := by
      rw [show 8 * (i + 1 + 1) = 8 * (i + 1) + 8 by ring, pow_add]
      rfl
    -- the letter's byte fits below the top of the word
    have hfit : c.toNat * 2 ^ (8 * (i + 1)) < 2 ^ 64 :=
      calc c.toNat * 2 ^ (8 * (i + 1)) < 2 ^ 8 * 2 ^ (8 * (i + 1)) :=
            Nat.mul_lt_mul_of_pos_right (by omega) (Nat.two_pow_pos _)
        _ = 2 ^ (8 * (i + 1 + 1)) := by rw [hpow, Nat.mul_comm]; rfl
        _ ≤ 2 ^ 64 := Nat.pow_le_pow_right (by decide) (by omega)
    have hshift : (c.toNat.toUInt64 <<< (8 * (i + 1)).toUInt64).toNat =
        c.toNat * 2 ^ (8 * (i + 1)) := by
      have hk : (8 * (i + 1)).toUInt64.toNat % 64 = 8 * (i + 1) := by
        simp only [Nat.toUInt64, UInt64.toNat_ofNat']
        omega
      have hcode64 : c.toNat.toUInt64.toNat = c.toNat := by
        simp only [Nat.toUInt64, UInt64.toNat_ofNat']
        omega
      rw [UInt64.toNat_shiftLeft, hk, hcode64, Nat.shiftLeft_eq, Nat.mod_eq_of_lt hfit]
    have hor : (result ||| c.toNat.toUInt64 <<< (8 * (i + 1)).toUInt64).toNat =
        result.toNat + c.toNat * 2 ^ (8 * (i + 1)) := by
      rw [UInt64.toNat_or, hshift, Nat.lor_comm, Radix.mul_two_pow_or_eq_add hres]
      ring
    have hnext : result.toNat + c.toNat * 2 ^ (8 * (i + 1)) < 2 ^ (8 * (i + 1 + 1)) := by
      have hle : c.toNat * 2 ^ (8 * (i + 1)) ≤ 255 * 2 ^ (8 * (i + 1)) :=
        Nat.mul_le_mul_right _ (by omega)
      rw [hpow]
      omega
    obtain ⟨r, hr, hrv⟩ := stringToSymbolAux_upper cs (i + 1) _
      (fun c' h => hcs c' (List.mem_cons_of_mem _ h)) hlen' (hor ▸ hnext)
    refine ⟨r, ?_, ?_⟩
    · have hcheck : ('A' ≤ c && c ≤ 'Z') = true := by
        simp only [Bool.and_eq_true, decide_eq_true_eq]
        exact hc
      rw [stringToSymbolAux, eosAssert_bind, if_pos hcheck]
      exact hr
    · rw [hrv, hor, List.map_cons, Nat.ofDigits_cons, hpow]
      ring

/-- `string_to_symbol` packs a valid symbol's name above its precision back into its word. -/
theorem stringToSymbol_nameText {s : Symbol} (hs : s.valid) :
    stringToSymbol (UInt8.ofNat s.decimals) s.nameText = .ok s.value := by
  have hupper := s.upper_of_mem_nameText hs
  have hnul : s.nameText.takeWhile (· ≠ '\x00') = s.nameText := by
    refine List.takeWhile_eq_self_iff.2 fun c hc => ?_
    have := (hupper c hc).toNat
    have hne : c ≠ '\x00' := fun h => by rw [h] at this; simp at this
    simpa using hne
  have hlen : 0 + s.nameText.length ≤ 7 := by
    simpa [Symbol.nameText] using s.length_name_le
  obtain ⟨r, hr, hrv⟩ := stringToSymbolAux_upper s.nameText 0 0 hupper hlen (by decide)
  have hd : s.decimals < 2 ^ 8 := by have := Symbol.decimals_le_of_valid hs; omega
  have hprec : (UInt8.ofNat s.decimals).toUInt64.toNat = s.decimals := by
    rw [UInt8.toNat_toUInt64, UInt8.toNat_ofNat']
    omega
  rw [stringToSymbol, hnul, hr]
  show Except.ok (r ||| (UInt8.ofNat s.decimals).toUInt64) = .ok s.value
  congr 1
  apply UInt64.toNat_inj.1
  have hzero : (0 : UInt64).toNat = 0 := rfl
  rw [UInt64.toNat_or, hprec, hrv, hzero, Nat.zero_add, s.map_toNat_nameText hs,
    Symbol.value_eq s, Nat.mul_comm, Radix.mul_two_pow_or_eq_add hd]
  ring

/-- The precision's digits read back as the precision's byte. -/
theorem toUInt8_ofInt_decimals : ∀ d : Nat, d ≤ 18 → (Int64.ofInt d).toUInt64.toUInt8 = UInt8.ofNat d := by
  decide

/-- `symbol::from_string` reads a valid symbol with a name back from its text. -/
theorem Symbol.fromString_toString {s : Symbol} (hs : s.valid) (hname : s.name ≠ []) :
    Symbol.fromString s.toString = .ok s := by
  have hd := Symbol.decimals_le_of_valid hs
  have hupper := s.upper_of_mem_nameText hs
  have hdigits : Nat.toDigits 10 s.decimals ≠ [] := Nat.toDigits_ne_nil
  have hnameText : s.nameText ≠ [] := by simpa [Symbol.nameText] using hname
  have htrim : fcTrim s.toString = s.toString :=
    fcTrim_append_cons hdigits
      (fun c hc => fcIsSpace_eq_false (by
        have := toNat_of_isDigit (Decimal.isDigit_of_mem_toDigits (List.mem_of_mem_head? hc))
        omega))
      hnameText fun c hc => (hupper c hc).not_space
  have hcomma : stringFind s.toString ',' = some (Nat.toDigits 10 s.decimals).length :=
    stringFind_append_cons (Decimal.not_mem_toDigits (by decide) _)
  have hprec : fcToInt64 (Nat.toDigits 10 s.decimals) = .ok (Int64.ofInt s.decimals) := by
    refine fcToInt64_of_parse ?_ (by omega) (by omega)
    rw [Decimal.parse_of_digits hdigits fun c hc => Decimal.isDigit_of_mem_toDigits hc,
      Decimal.value_toDigits]
  have hmake : Symbol.make s.value = .ok s := by
    rw [Symbol.make, eosAssert_bind, if_pos hs]
    rfl
  have hp : (UInt8.ofNat s.decimals).toNat ≤ Symbol.maxPrecision := by
    rw [UInt8.toNat_ofNat']
    exact Nat.le_trans (Nat.mod_le _ _) hd
  simp only [Symbol.fromString, htrim, hcomma]
  rw [eosAssert_bind, if_pos (by simp [Symbol.toString])]
  simp only [Symbol.toString, List.take_left', hprec, ok_bind, toUInt8_ofInt_decimals _ hd,
    drop_succ_append_cons]
  rw [eosAssert_bind, if_pos (by simpa using hp), stringToSymbol_nameText hs, ok_bind, hmake]

/-! ## Printing an asset -/

/-- A valid asset's amount is within `2^62 - 1` of zero. -/
theorem Asset.amount_range_of_valid {a : Asset} (ha : a.isValid) :
    -(2 ^ 62 - 1) ≤ a.amount.toInt ∧ a.amount.toInt ≤ 2 ^ 62 - 1 := by
  simp only [Asset.isValid, Asset.isAmountWithinRange, Bool.and_eq_true, decide_eq_true_eq] at ha
  obtain ⟨⟨hlo, hhi⟩, -⟩ := ha
  rw [Int64.le_iff_toInt_le] at hlo hhi
  have hneg : (-Asset.maxAmount).toInt = -(2 ^ 62 - 1) := by decide
  have hmax : Asset.maxAmount.toInt = 2 ^ 62 - 1 := by decide
  rw [hneg] at hlo
  rw [hmax] at hhi
  exact ⟨hlo, hhi⟩

/-- A valid asset has a valid symbol. -/
theorem Asset.sym_valid_of_valid {a : Asset} (ha : a.isValid) : a.sym.valid := by
  simp only [Asset.isValid, Bool.and_eq_true] at ha
  exact ha.2

/-- `precision` of a valid symbol is ten to its decimals. -/
theorem Symbol.precision_of_valid {s : Symbol} (hs : s.valid) :
    s.precision = .ok (10 ^ s.decimals).toUInt64 := by
  have hle : s.decimals ≤ Symbol.maxPrecision := Symbol.decimals_le_of_valid hs
  rw [Symbol.precision, eosAssert_bind, if_pos (decide_eq_true hle)]
  rfl

/-- Ten to at most eighteen is the same signed word as unsigned. -/
theorem toInt_toInt64_pow {d : Nat} (hd : d ≤ 18) : ((10 ^ d).toUInt64.toInt64).toInt = 10 ^ d := by
  have hlt : 10 ^ d < 2 ^ 63 :=
    calc 10 ^ d ≤ 10 ^ 18 := Nat.pow_le_pow_right (by decide) hd
      _ < 2 ^ 63 := by decide
  rw [Nat.toUInt64, UInt64.toInt64_ofNat', Int64.toInt_ofNat_of_lt hlt]
  push_cast
  rfl

/-- What `asset::to_string` prints for a valid asset: the sign, the quotient by the precision
and, with decimals, a point and the remainder in as many digits, then the name. -/
theorem Asset.toString_of_valid {a : Asset} (ha : a.isValid) :
    a.toString = .ok ((if a.amount < 0 then ['-'] else []) ++
      Nat.toDigits 10 (a.amount.toInt.natAbs / 10 ^ a.sym.decimals) ++
      (if a.sym.decimals = 0 then []
        else '.' :: Decimal.padded a.sym.decimals (a.amount.toInt.natAbs % 10 ^ a.sym.decimals)) ++
      ' ' :: a.sym.nameText) := by
  obtain ⟨hlo, hhi⟩ := a.amount_range_of_valid ha
  have hs := a.sym_valid_of_valid ha
  have hd := Symbol.decimals_le_of_valid hs
  have hP := toInt_toInt64_pow hd
  have hpos : (0 : Int) < 10 ^ a.sym.decimals := by positivity
  have hprec : a.precision = .ok (10 ^ a.sym.decimals).toUInt64.toInt64 := by
    rw [Asset.precision, Symbol.precision_of_valid hs]
    rfl
  -- `std::abs` of an amount within range is its magnitude
  have habs : (if a.amount < 0 then -a.amount else a.amount).toInt = a.amount.toInt.natAbs := by
    split
    · rename_i hneg
      rw [Int64.lt_iff_toInt_lt, Int64.toInt_zero] at hneg
      rw [Int64.toInt_neg, bmod_of_range (by omega) (by omega)]
      omega
    · rename_i hnonneg
      rw [Int64.lt_iff_toInt_lt, Int64.toInt_zero] at hnonneg
      omega
  have hne : (if a.amount < 0 then -a.amount else a.amount) ≠ Int64.minValue := fun h => by
    have hmin := congrArg Int64.toInt h
    rw [habs, Int64.toInt_minValue] at hmin
    omega
  have hdiv : ((if a.amount < 0 then -a.amount else a.amount) /
      (10 ^ a.sym.decimals).toUInt64.toInt64).toInt =
      ((a.amount.toInt.natAbs / 10 ^ a.sym.decimals : Nat) : Int) := by
    rw [Int64.toInt_div_of_ne_left _ _ hne, habs, hP, Int.tdiv_eq_ediv_of_nonneg (by omega)]
    push_cast
    rfl
  have hmod_lt : a.amount.toInt.natAbs % 10 ^ a.sym.decimals < 10 ^ a.sym.decimals :=
    Nat.mod_lt _ (by positivity)
  have hfrac : ((10 ^ a.sym.decimals).toUInt64.toInt64 +
      (if a.amount < 0 then -a.amount else a.amount) % (10 ^ a.sym.decimals).toUInt64.toInt64).toInt =
      ((10 ^ a.sym.decimals + a.amount.toInt.natAbs % 10 ^ a.sym.decimals : Nat) : Int) := by
    have hmod : ((if a.amount < 0 then -a.amount else a.amount) %
        (10 ^ a.sym.decimals).toUInt64.toInt64).toInt =
        ((a.amount.toInt.natAbs % 10 ^ a.sym.decimals : Nat) : Int) := by
      rw [Int64.toInt_mod, habs, hP, Int.tmod_eq_emod_of_nonneg (by omega)]
      push_cast
      rfl
    have hten : (10 : Int) ^ a.sym.decimals ≤ 10 ^ 18 := pow_le_pow_right₀ (by norm_num) hd
    have hmod_lt' : ((a.amount.toInt.natAbs % 10 ^ a.sym.decimals : Nat) : Int) < 10 ^ a.sym.decimals := by
      exact_mod_cast hmod_lt
    rw [Int64.toInt_add, hP, hmod]
    rw [bmod_of_range (by omega) (by omega)]
    push_cast
    rfl
  simp only [Asset.toString, hprec, ok_bind]
  rw [fcToString_of_toInt hdiv, fcToString_of_toInt hfrac, Decimal.toDigits_pow_add hmod_lt]
  by_cases hd0 : a.sym.decimals = 0 <;> split <;> simp [hd0, pure, Except.pure]

/-! ## Reading an asset back -/

/-- The last steps of `asset::from_string`: the integer part times the precision, plus the
fraction, is the amount again when their sum is. -/
theorem Asset.make_of_parts {a : Asset} (ha : a.isValid) {int_part fract_part : Int64}
    (hprod : -2 ^ 63 ≤ int_part.toInt * 10 ^ a.sym.decimals ∧
      int_part.toInt * 10 ^ a.sym.decimals < 2 ^ 63)
    (hsum : int_part.toInt * 10 ^ a.sym.decimals + fract_part.toInt = a.amount.toInt) :
    (do
      let amount ← safeMul int_part (← a.sym.precision).toInt64
      let amount ← safeAdd amount fract_part
      Asset.make amount a.sym) = .ok a := by
  have hs := a.sym_valid_of_valid ha
  have hmul : safeMul int_part (10 ^ a.sym.decimals).toUInt64.toInt64 =
      .ok (Int64.ofInt (int_part.toInt * 10 ^ a.sym.decimals)) := by
    rw [safeMul, toInt_toInt64_pow (Symbol.decimals_le_of_valid hs)]
    exact fcSafe_of_range hprod.1 hprod.2
  have hadd : safeAdd (Int64.ofInt (int_part.toInt * 10 ^ a.sym.decimals)) fract_part =
      .ok a.amount := by
    have hlt := Int64.toInt_lt a.amount
    have hge := Int64.le_toInt a.amount
    rw [safeAdd, Int64.toInt_ofInt_of_le hprod.1 hprod.2, hsum,
      fcSafe_of_range hge hlt, Int64.ofInt_toInt]
  have hmake : Asset.make a.amount a.sym = .ok a := by
    have hrange : Asset.isAmountWithinRange ⟨a.amount, a.sym⟩ = true := by
      simp only [Asset.isValid, Bool.and_eq_true] at ha
      exact ha.1
    rw [Asset.make, eosAssert_bind, if_pos hrange, eosAssert_bind, if_pos hs]
    rfl
  rw [Symbol.precision_of_valid hs, ok_bind, hmul, ok_bind, hadd, ok_bind, hmake]

/-- The characters of a printed amount: a minus sign, digits and a point. -/
def IsAmountChar (c : Char) : Prop := 45 ≤ c.toNat ∧ c.toNat ≤ 57

instance : DecidablePred IsAmountChar := fun c =>
  inferInstanceAs (Decidable (45 ≤ c.toNat ∧ c.toNat ≤ 57))

/-- A digit may stand in an amount. -/
theorem IsAmountChar.of_isDigit {c : Char} (h : c.isDigit) : IsAmountChar c := by
  have := toNat_of_isDigit h
  exact ⟨by omega, this.2⟩

/-- `asset::from_string` reads a valid asset with a name back from the pieces that
`asset::to_string` prints, for the quotient `q` and the remainder `r` of the magnitude by the
precision. The text splits at the space after the amount; without decimals the amount is all
integer part, and with them the point is followed by as many digits as there are decimals, and
the fraction takes the sign of the text. -/
theorem Asset.fromString_printed {a : Asset} (ha : a.isValid) (hname : a.sym.name ≠ [])
    {q r : Nat} (hr : r < 10 ^ a.sym.decimals)
    (hqr : a.amount.toInt.natAbs = q * 10 ^ a.sym.decimals + r) :
    Asset.fromString ((if a.amount < 0 then ['-'] else []) ++ Nat.toDigits 10 q ++
      (if a.sym.decimals = 0 then [] else '.' :: Decimal.padded a.sym.decimals r) ++
      ' ' :: a.sym.nameText) = .ok a := by
  obtain ⟨hlo, hhi⟩ := a.amount_range_of_valid ha
  have hs := a.sym_valid_of_valid ha
  have hupper := a.sym.upper_of_mem_nameText hs
  have hnameText : a.sym.nameText ≠ [] := by simpa [Symbol.nameText] using hname
  have hneg : a.amount < 0 ↔ a.amount.toInt < 0 := by rw [Int64.lt_iff_toInt_lt, Int64.toInt_zero]
  -- the magnitude in the integers
  have hqr' : (a.amount.toInt.natAbs : Int) = (q : Int) * 10 ^ a.sym.decimals + r := by
    exact_mod_cast hqr
  have hq0 : 0 ≤ (q : Int) * 10 ^ a.sym.decimals := by positivity
  have hq : (q : Int) ≤ q * 10 ^ a.sym.decimals :=
    le_mul_of_one_le_right (by positivity) (one_le_pow₀ (by norm_num))
  -- the integer part reads back with the sign
  have hint : fcToInt64 ((if a.amount < 0 then ['-'] else []) ++ Nat.toDigits 10 q) =
      .ok (Int64.ofInt (if a.amount < 0 then -(q : Int) else q)) := by
    have h := Decimal.parse_sign_toDigits (decide (a.amount < 0)) q
    simp only [decide_eq_true_eq] at h
    exact fcToInt64_of_parse h (by split <;> omega) (by split <;> omega)
  have hint_toInt : (Int64.ofInt (if a.amount < 0 then -(q : Int) else q)).toInt =
      if a.amount < 0 then -(q : Int) else q :=
    Int64.toInt_ofInt_of_le (by split <;> omega) (by split <;> omega)
  -- every character of the amount is a sign, a digit or a point
  have hchars : ∀ c ∈ (if a.amount < 0 then ['-'] else []) ++ Nat.toDigits 10 q ++
      (if a.sym.decimals = 0 then [] else '.' :: Decimal.padded a.sym.decimals r),
      IsAmountChar c := by
    intro c hc
    simp only [List.mem_append] at hc
    rcases hc with (hc | hc) | hc
    · split at hc
      · rw [List.mem_singleton.1 hc]
        decide
      · simp at hc
    · exact IsAmountChar.of_isDigit (Decimal.isDigit_of_mem_toDigits hc)
    · split at hc
      · simp at hc
      · rcases List.mem_cons.1 hc with rfl | hc
        · decide
        · exact IsAmountChar.of_isDigit (Decimal.isDigit_of_mem_padded hc)
  have hnospace : ' ' ∉ (if a.amount < 0 then ['-'] else []) ++ Nat.toDigits 10 q ++
      (if a.sym.decimals = 0 then [] else '.' :: Decimal.padded a.sym.decimals r) :=
    fun h => absurd (hchars ' ' h).1 (by decide)
  have htrim := fcTrim_append_cons (c := ' ')
    (List.append_ne_nil_of_left_ne_nil (List.append_ne_nil_of_right_ne_nil _ Nat.toDigits_ne_nil) _)
    (fun x hx => fcIsSpace_eq_false (by have := (hchars x (List.mem_of_mem_head? hx)).1; omega))
    hnameText fun c hc => (hupper c hc).not_space
  simp only [Asset.fromString, htrim, stringFind_append_cons hnospace, List.take_left',
    drop_succ_append_cons, fcTrim_of_forall fun c hc => (hupper c hc).not_space]
  have hamount : a.amount.toInt =
      if a.amount < 0 then -((a.amount.toInt.natAbs : Nat) : Int) else a.amount.toInt.natAbs := by
    split
    · rename_i h
      have := hneg.1 h
      omega
    · rename_i h
      have : ¬a.amount.toInt < 0 := fun h' => h (hneg.2 h')
      omega
  -- the integer part times the precision is within the amount
  have hprod : -2 ^ 63 ≤ (Int64.ofInt (if a.amount < 0 then -(q : Int) else q)).toInt *
        10 ^ a.sym.decimals ∧
      (Int64.ofInt (if a.amount < 0 then -(q : Int) else q)).toInt * 10 ^ a.sym.decimals < 2 ^ 63 := by
    rw [hint_toInt]
    split
    · rw [neg_mul]
      omega
    · omega
  by_cases hd0 : a.sym.decimals = 0
  · -- no decimals: no point, and the whole amount is the integer part
    have hdot : stringFind ((if a.amount < 0 then ['-'] else []) ++ Nat.toDigits 10 q) '.' = none := by
      refine stringFind_eq_none fun h => ?_
      rcases List.mem_append.1 h with h | h
      · split at h <;> simp at h
      · exact Decimal.not_mem_toDigits (by decide) q h
    have hsym : Symbol.fromString (['0'] ++ ',' :: a.sym.nameText) = .ok a.sym := by
      have h := Symbol.fromString_toString hs hname
      rwa [Symbol.toString, hd0, Nat.toDigits_zero] at h
    have hsum : (Int64.ofInt (if a.amount < 0 then -(q : Int) else q)).toInt * 10 ^ a.sym.decimals +
        (0 : Int64).toInt = a.amount.toInt := by
      rw [hint_toInt, Int64.toInt_zero, Int.add_zero, hamount]
      simp only [hd0, pow_zero, mul_one] at hqr' hr ⊢
      split_ifs <;> omega
    simp only [hd0, if_true, List.append_nil, hdot, hsym, hint, ok_bind]
    exact Asset.make_of_parts ha hprod hsum
  · -- decimals: the point stands after the integer part, and the fraction takes the text's sign
    have hlen : ((if a.amount < 0 then ['-'] else []) ++ Nat.toDigits 10 q ++
        '.' :: Decimal.padded a.sym.decimals r).length = ((if a.amount < 0 then ['-'] else []) ++
        Nat.toDigits 10 q).length + 1 + a.sym.decimals := by
      simp only [List.length_append, List.length_cons, Decimal.length_padded]
      omega
    have hdot : stringFind ((if a.amount < 0 then ['-'] else []) ++ Nat.toDigits 10 q ++
        '.' :: Decimal.padded a.sym.decimals r) '.' =
        some ((if a.amount < 0 then ['-'] else []) ++ Nat.toDigits 10 q).length := by
      refine stringFind_append_cons fun h => ?_
      rcases List.mem_append.1 h with h | h
      · split at h <;> simp at h
      · exact Decimal.not_mem_toDigits (by decide) q h
    have hpadded : Decimal.padded a.sym.decimals r ≠ [] := by
      intro h
      have := congrArg List.length h
      simp only [Decimal.length_padded, List.length_nil] at this
      exact hd0 this
    have hfract : fcToInt64 (Decimal.padded a.sym.decimals r) = .ok (Int64.ofInt r) := by
      have hten : 10 ^ a.sym.decimals ≤ 10 ^ 18 :=
        Nat.pow_le_pow_right (by decide) (Symbol.decimals_le_of_valid hs)
      refine fcToInt64_of_parse ?_ (by omega) (by omega)
      rw [Decimal.parse_of_digits hpadded fun c hc => Decimal.isDigit_of_mem_padded hc,
        Decimal.value_padded hr]
    -- the text starts with a minus sign exactly when the amount is negative
    have hminus : ((if a.amount < 0 then ['-'] else []) ++ Nat.toDigits 10 q ++
        '.' :: Decimal.padded a.sym.decimals r).head? = some '-' ↔ a.amount < 0 := by
      obtain ⟨c, cs, hcs⟩ := List.exists_cons_of_ne_nil (Nat.toDigits_ne_nil : Nat.toDigits 10 q ≠ [])
      have hc : c ≠ '-' := fun h => by
        have := Decimal.isDigit_of_mem_toDigits (hcs ▸ List.mem_cons_self : c ∈ Nat.toDigits 10 q)
        rw [h] at this
        contradiction
      rw [hcs]
      split
      · rename_i h
        simp [h]
      · rename_i h
        simp [h, hc]
    have hassert : decide (((if a.amount < 0 then ['-'] else []) ++ Nat.toDigits 10 q).length ≠
        ((if a.amount < 0 then ['-'] else []) ++ Nat.toDigits 10 q ++
          '.' :: Decimal.padded a.sym.decimals r).length - 1) = true := by
      rw [hlen, decide_eq_true_eq]
      omega
    have hprecision : ((if a.amount < 0 then ['-'] else []) ++ Nat.toDigits 10 q ++
        '.' :: Decimal.padded a.sym.decimals r).length -
        ((if a.amount < 0 then ['-'] else []) ++ Nat.toDigits 10 q).length - 1 = a.sym.decimals := by
      rw [hlen]
      omega
    have hsym : Symbol.fromString (Nat.toDigits 10 a.sym.decimals ++ ',' :: a.sym.nameText) =
        .ok a.sym := Symbol.fromString_toString hs hname
    have hr64 : (r : Int) < 2 ^ 62 := by omega
    simp only [hd0, if_false, hdot, eosAssert_bind, hassert, if_true, hprecision, hsym, ok_bind,
      List.take_left', drop_succ_append_cons, hint, hfract]
    by_cases hneg' : a.amount < 0
    · -- a minus sign: the fraction is negated
      have hnegative := hneg.1 hneg'
      have hsafe : safeMul (Int64.ofInt r) (-1) = .ok (Int64.ofInt (-(r : Int))) := by
        rw [safeMul, Int64.toInt_ofInt_of_le (by omega) (by omega),
          show (-1 : Int64).toInt = -1 by decide, Int.mul_neg_one]
        exact fcSafe_of_range (by omega) (by omega)
      rw [if_pos (hminus.2 hneg'), hsafe, ok_bind]
      refine Asset.make_of_parts ha hprod ?_
      rw [hint_toInt, if_pos hneg', Int64.toInt_ofInt_of_le (by omega) (by omega), neg_mul]
      omega
    · -- no sign: the fraction is added as it is
      have hnonneg : ¬a.amount.toInt < 0 := fun h => hneg' (hneg.2 h)
      rw [if_neg fun h => hneg' (hminus.1 h), pure_bind]
      refine Asset.make_of_parts ha hprod ?_
      rw [hint_toInt, if_neg hneg',
        Int64.toInt_ofInt_of_le (by omega) (by omega)]
      omega

/-- `asset::from_string` reads back what `asset::to_string` prints, for every valid asset whose
symbol has a name. -/
theorem Asset.fromString_toString {a : Asset} (ha : a.isValid) (hname : a.sym.name ≠ []) :
    (a.toString >>= Asset.fromString) = .ok a := by
  rw [Asset.toString_of_valid ha, ok_bind]
  exact Asset.fromString_printed ha hname (Nat.mod_lt _ (by positivity)) (Nat.div_add_mod' _ _).symm

/-- The text round trip of assets and symbols: a valid asset whose symbol has a name, printed
by `asset::to_string`, reads back through `asset::from_string` as itself, negative amounts above
`-1` included; and a valid symbol with a name, printed, reads back through
`symbol::from_string` as itself. -/
theorem asset_text_round_trip :
    (∀ a : Asset, a.isValid → a.sym.name ≠ [] → (a.toString >>= Asset.fromString) = .ok a) ∧
    (∀ s : Symbol, s.valid → s.name ≠ [] → Symbol.fromString s.toString = .ok s) :=
  ⟨fun _ ha hname => Asset.fromString_toString ha hname,
    fun _ hs hname => Symbol.fromString_toString hs hname⟩

/-- `-0.0005 EOS`, an amount between `-1` and `0` at precision four, prints and reads back. -/
theorem negative_fraction_round_trip :
    Asset.isValid ⟨-5, ⟨1397703940⟩⟩ ∧ Symbol.name ⟨1397703940⟩ ≠ [] ∧
      (Asset.toString ⟨-5, ⟨1397703940⟩⟩ >>= Asset.fromString) = .ok ⟨-5, ⟨1397703940⟩⟩ := by
  have hvalid : Asset.isValid ⟨-5, ⟨1397703940⟩⟩ := by decide +kernel
  have hname : Symbol.name ⟨1397703940⟩ ≠ [] := by decide +kernel
  exact ⟨hvalid, hname, asset_text_round_trip.1 _ hvalid hname⟩

end InfraBlockchain
