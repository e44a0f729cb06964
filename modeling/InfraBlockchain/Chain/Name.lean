import Mathlib
import InfraBlockchain.Lib.Radix
import InfraBlockchain.Auth.Permissions

/-!
# The name codec

`name::set` (`name.cpp`) writes a text into a name's word with `string_to_uint64_t` and accepts it
only when the word prints back as the same text; `name::to_string` prints the thirteen symbols of
the word, five bits each from the top and four bits for the last, through the map
`.12345abcdefghijklmnopqrstuvwxyz`, and trims the trailing dots.

A word is a number written with twelve digits in base 32, times sixteen, plus a last digit below
sixteen; both directions are read through `Radix`. Printing a word and writing the text back gives
the word (`stringToUint64_toString`); the texts that print back from their word are exactly the
ones of at most thirteen characters of the map, whose thirteenth, if any, is one of the first
sixteen, and that do not end with a dot (`nameStringOk`).

The bytes of a C++ string are read as the characters of the same codes; no byte outside the map is
one of its characters, so which text is accepted does not depend on how the others are read.
-/

namespace InfraBlockchain.Chain

open Auth

/-- `name::set`, as `name(std::string_view)` and `from_variant` call it. -/
def Name.set (str : String) : Except Exception Name := do
  eosAssert (str.length ≤ 13) .name_type_exception "Name is longer than 13 characters (${name}) "
  let value := stringToUint64 str
  eosAssert (Name.toString ⟨value⟩ == str) .name_type_exception
    "Name not properly normalized (name: ${name}, normalized: ${normalized}) "
  pure ⟨value⟩

/-- The texts that are names in their normal form, the texts that `name::to_string` gives: at most
thirteen characters of the map, a thirteenth among its first sixteen, and no trailing dot. -/
def nameStringOk (s : String) : Bool :=
  decide (s.length ≤ 13) && s.toList.all (· ∈ nameCharmap) &&
    (s.toList.drop 12).all (· ∈ nameCharmap.take 16) && s.toList.getLast? != some '.'

/-! ## Symbols and characters -/

/-- `char_to_symbol`, as a number. -/
def symbolOf (c : Char) : Nat := (charToSymbol c).toNat

/-- The character of a symbol in the map of `to_string`. -/
def charOf (d : Nat) : Char := nameCharmap.getD d '.'

/-- `char_to_symbol` gives five bits. -/
theorem symbolOf_lt (c : Char) : symbolOf c < 32 := by
  unfold symbolOf charToSymbol
  split_ifs with hletter hdigit
  · have hz : c.toNat ≤ 122 := hletter.2
    have ha : 'a'.toNat = 97 := rfl
    simp only [Nat.toUInt64, UInt64.toNat_ofNat']
    omega
  · have h5 : c.toNat ≤ 53 := hdigit.2
    have h1 : '1'.toNat = 49 := rfl
    simp only [Nat.toUInt64, UInt64.toNat_ofNat']
    omega
  · simp

/-- `char_to_symbol` reads back every character of the map. -/
theorem symbolOf_charOf : ∀ d < 32, symbolOf (charOf d) = d := by decide

/-- The map has thirty-two characters. -/
theorem length_nameCharmap : nameCharmap.length = 32 := by decide

/-- Within the map, `charOf` is indexing. -/
theorem charOf_eq_getElem {d : Nat} (hd : d < nameCharmap.length) : charOf d = nameCharmap[d] :=
  List.getD_eq_getElem _ _ hd

/-- Every character of the map is the character of its symbol: it stands at that place. -/
theorem charOf_symbolOf {c : Char} (hc : c ∈ nameCharmap) : charOf (symbolOf c) = c := by
  obtain ⟨d, hd, rfl⟩ := List.mem_iff_getElem.1 hc
  rw [← charOf_eq_getElem hd, symbolOf_charOf d (length_nameCharmap ▸ hd)]

/-- `charOf` gives a character of the map. -/
theorem charOf_mem (d : Nat) : charOf d ∈ nameCharmap := by
  unfold charOf
  rw [List.getD_eq_getElem?_getD]
  cases h : nameCharmap[d]? with
  | none => decide
  | some c => exact List.mem_of_getElem? h

/-- The characters of the symbols below sixteen are the first sixteen of the map. -/
theorem charOf_mem_take : ∀ d < 16, charOf d ∈ nameCharmap.take 16 := by decide

/-- The first sixteen characters of the map have the symbols below sixteen. -/
theorem symbolOf_lt_of_mem_take {c : Char} (hc : c ∈ nameCharmap.take 16) : symbolOf c < 16 := by
  obtain ⟨d, hd, rfl⟩ := List.mem_iff_getElem.1 hc
  have hd16 : d < 16 := by simpa [length_nameCharmap] using hd
  rw [List.getElem_take, ← charOf_eq_getElem, symbolOf_charOf d (by omega)]
  exact hd16

/-- The dot is symbol zero. -/
theorem symbolOf_dot : symbolOf '.' = 0 := by decide

/-- The map has no NUL. -/
theorem nul_not_mem : '\x00' ∉ nameCharmap := by decide

/-! ## Writing a text into a word -/

/-- Dots add nothing to the word: each is the symbol `0`. -/
theorem stringToUint64Aux_dots : ∀ (m i : Nat) (n : UInt64),
    stringToUint64Aux i (List.replicate m '.') n = n
  | 0, _, _ => rfl
  | m + 1, i, n => by
    have hdot : charToSymbol '.' = 0 := by decide
    rw [List.replicate_succ, stringToUint64Aux, if_neg (by decide), hdot]
    split
    · rw [UInt64.zero_and, UInt64.zero_shiftLeft, UInt64.or_zero]
      exact stringToUint64Aux_dots m (i + 1) n
    · rw [UInt64.zero_and, UInt64.or_zero]

/-- Trailing dots do not change the word. -/
theorem stringToUint64Aux_append_dots : ∀ (cs : List Char) (m i : Nat) (n : UInt64),
    stringToUint64Aux i (cs ++ List.replicate m '.') n = stringToUint64Aux i cs n
  | [], m, i, n => stringToUint64Aux_dots m i n
  | c :: cs, m, i, n => by
    rw [List.cons_append, stringToUint64Aux, stringToUint64Aux]
    split
    · rfl
    · split
      · exact stringToUint64Aux_append_dots cs m (i + 1) _
      · rfl

/-- The loop from character `i` over the rest of thirteen characters of the map, the word holding
the number `A` of the characters before in its top `5 * i` bits: twelve five-bit digits in all,
then the last one below sixteen. By induction on the characters left. -/
theorem stringToUint64Aux_toNat : ∀ (cs : List Char) (i A : Nat) (n : UInt64),
    i ≤ 12 → i + cs.length = 13 → (∀ c ∈ cs, c ∈ nameCharmap) →
      n.toNat = A * 2 ^ (64 - 5 * i) →
      (stringToUint64Aux i cs n).toNat =
        (A * 32 ^ (12 - i) + Nat.ofDigits 32 ((cs.take (12 - i)).map symbolOf).reverse) * 16 +
          symbolOf (cs.getD (12 - i) '.') % 16
  | [], i, _, _, hi, hlen, _, _ => by simp at hlen; omega
  | c :: cs, i, A, n, hi, hlen, hcs, hn => by
    have hc : c ≠ '\x00' := fun h => nul_not_mem (h ▸ hcs c List.mem_cons_self)
    have hsym : (charToSymbol c).toNat = symbolOf c := rfl
    rw [stringToUint64Aux, if_neg hc]
    split
    · -- one of the first twelve: five bits below the ones already written
      rename_i hlt
      have hk : (64 - 5 * (i + 1)).toUInt64.toNat % 64 = 59 - 5 * i := by
        simp only [Nat.toUInt64, UInt64.toNat_ofNat']
        omega
      have hshift : ((charToSymbol c &&& 0x1f) <<< (64 - 5 * (i + 1)).toUInt64).toNat =
          symbolOf c * 2 ^ (59 - 5 * i) := by
        have hlow : (charToSymbol c &&& 0x1f).toNat = symbolOf c := by
          rw [UInt64.toNat_and, hsym, show (0x1f : UInt64).toNat = 2 ^ 5 - 1 from rfl,
            Nat.and_two_pow_sub_one_eq_mod, Nat.mod_eq_of_lt (symbolOf_lt c)]
        have hfit : symbolOf c * 2 ^ (59 - 5 * i) < 2 ^ 64 :=
          calc symbolOf c * 2 ^ (59 - 5 * i) < 2 ^ 5 * 2 ^ (59 - 5 * i) :=
                Nat.mul_lt_mul_of_pos_right (symbolOf_lt c) (Nat.two_pow_pos _)
            _ = 2 ^ (64 - 5 * i) := by rw [← pow_add]; congr 1; omega
            _ ≤ 2 ^ 64 := Nat.pow_le_pow_right (by decide) (by omega)
        rw [UInt64.toNat_shiftLeft, hk, hlow, Nat.shiftLeft_eq, Nat.mod_eq_of_lt hfit]
      have hn' : (n ||| (charToSymbol c &&& 0x1f) <<< (64 - 5 * (i + 1)).toUInt64).toNat =
          (A * 32 + symbolOf c) * 2 ^ (64 - 5 * (i + 1)) := by
        have hsplit : 64 - 5 * i = 5 + (59 - 5 * i) := by omega
        rw [UInt64.toNat_or, hn, hshift, hsplit,
          Radix.mul_two_pow_or_mul_two_pow (symbolOf_lt c), show 64 - 5 * (i + 1) = 59 - 5 * i by omega]
        rfl
      have ih := stringToUint64Aux_toNat cs (i + 1) (A * 32 + symbolOf c) _ (by omega)
        (by simp at hlen; omega) (fun c' hc' => hcs c' (List.mem_cons_of_mem _ hc')) hn'
      rw [ih]
      have hk12 : 12 - i = (12 - (i + 1)) + 1 := by omega
      have hrest : ((cs.take (12 - (i + 1))).map symbolOf).reverse.length = 12 - (i + 1) := by
        simp at hlen ⊢; omega
      rw [hk12, List.take_succ_cons, List.getD_cons_succ, List.map_cons, List.reverse_cons,
        Nat.ofDigits_append, hrest, Nat.ofDigits_singleton]
      ring
    · -- the thirteenth: its four low bits
      have hi12 : i = 12 := by omega
      subst hi12
      have hcs' : cs = [] := List.length_eq_zero_iff.1 (by simp at hlen; omega)
      subst hcs'
      have hlow : (charToSymbol c &&& 0x0F).toNat = symbolOf c % 16 := by
        rw [UInt64.toNat_and, hsym, show (0x0F : UInt64).toNat = 2 ^ 4 - 1 from rfl,
          Nat.and_two_pow_sub_one_eq_mod]
      rw [UInt64.toNat_or, hn, hlow, show 64 - 5 * 12 = 4 by rfl,
        Radix.mul_two_pow_or_eq_add (show symbolOf c % 16 < 2 ^ 4 from Nat.mod_lt _ (by decide))]
      simp

/-- The word of thirteen characters: the symbols of the first twelve as digits in base `32`, most
significant first, above the four low bits of the last. -/
def wordOf (cs : List Char) : Nat :=
  Nat.ofDigits 32 ((cs.take 12).map symbolOf).reverse * 16 + symbolOf (cs.getD 12 '.') % 16

/-- The word of thirteen characters of the map. -/
theorem stringToUint64Aux_thirteen {cs : List Char} (hlen : cs.length = 13)
    (hcs : ∀ c ∈ cs, c ∈ nameCharmap) : (stringToUint64Aux 0 cs 0).toNat = wordOf cs := by
  rw [stringToUint64Aux_toNat cs 0 0 0 (by omega) (by omega) hcs (by simp), wordOf]
  simp

/-! ## Printing a word -/

/-- Symbol `j` of a word from the left: five bits for the first twelve, four for the last. -/
def symbolAt (v : Nat) (j : Nat) : Nat := if j < 12 then v / 2 ^ (59 - 5 * j) % 32 else v % 16

/-- The thirteen characters that `to_string` prints before it trims the dots. -/
def printed (v : Nat) : List Char := (List.range 13).map fun j => charOf (symbolAt v j)

/-- Each symbol of a name has five bits. -/
theorem symbolAt_lt (v j : Nat) : symbolAt v j < 32 := by
  unfold symbolAt
  split
  · exact Nat.mod_lt _ (by decide)
  · exact lt_of_lt_of_le (Nat.mod_lt _ (by decide)) (by decide)

@[simp] theorem length_printed (v : Nat) : (printed v).length = 13 := by simp [printed]

/-- The characters printed are those of the name's symbols. -/
theorem getElem_printed (v : Nat) {j : Nat} (hj : j < (printed v).length) :
    (printed v)[j] = charOf (symbolAt v j) := by
  simp [printed]

/-- `to_string` reads symbol `12 - i` at step `i`: the four low bits first, then five bits at a
time. -/
theorem toString_symbol (v : UInt64) {i : Nat} (hi : i ≤ 12) :
    (if i = 0 then v &&& 0x0f else (v >>> (4 + 5 * (i - 1)).toUInt64) &&& 0x1f).toNat =
      symbolAt v.toNat (12 - i) := by
  unfold symbolAt
  split
  · rename_i h0
    subst h0
    rw [UInt64.toNat_and, show (0x0f : UInt64).toNat = 2 ^ 4 - 1 from rfl,
      Nat.and_two_pow_sub_one_eq_mod]
    simp
  · rename_i h0
    have hk : (4 + 5 * (i - 1)).toUInt64.toNat % 64 = 59 - 5 * (12 - i) := by
      simp only [Nat.toUInt64, UInt64.toNat_ofNat']
      omega
    rw [UInt64.toNat_and, UInt64.toNat_shiftRight, hk, show (0x1f : UInt64).toNat = 2 ^ 5 - 1 from rfl,
      Nat.and_two_pow_sub_one_eq_mod, Nat.shiftRight_eq_div_pow, if_pos (by omega)]

/-- `to_string` prints the thirteen symbols and trims the dots. -/
theorem toString_toList (n : Name) :
    (Name.toString n).toList = (printed n.value.toNat).rdropWhile (· = '.') := by
  unfold Name.toString
  rw [String.toList_ofList]
  unfold List.rdropWhile
  congr 3
  apply List.ext_getElem (by simp [printed])
  intro k hk _
  have hk13 : k < 13 := by simpa using hk
  rw [List.getElem_map, List.getElem_reverse, List.getElem_range, getElem_printed]
  simp only [List.length_range]
  unfold charOf
  rw [toString_symbol n.value (by omega), show 12 - (13 - 1 - k) = k by omega]


/-- A printed name holds only characters of the map. -/
theorem mem_printed {v : Nat} {c : Char} (hc : c ∈ printed v) : c ∈ nameCharmap := by
  obtain ⟨j, -, rfl⟩ := List.mem_map.1 hc
  exact charOf_mem _

/-- Printing a word and reading the symbols of the printed characters gives the word back. -/
theorem wordOf_printed {v : Nat} (hv : v < 2 ^ 64) : wordOf (printed v) = v := by
  have hdigits : (((printed v).take 12).map symbolOf).reverse = Radix.digitsLE 32 12 (v / 16) := by
    apply Radix.eq_digitsLE (by simp)
    intro k hk
    have hidx : 11 - k < ((printed v).take 12).length := by simp; omega
    rw [List.getD_eq_getElem _ 0 (by simpa using hk), List.getElem_reverse, List.getElem_map]
    simp only [List.length_map, List.getElem_take, List.length_take, length_printed]
    rw [getElem_printed, symbolOf_charOf _ (symbolAt_lt _ _), show min 12 13 - 1 - k = 11 - k by omega]
    unfold symbolAt
    rw [if_pos (by omega), Nat.div_div_eq_div_mul]
    congr 2
    rw [show (32 : Nat) = 2 ^ 5 by rfl, ← pow_mul, show (16 : Nat) = 2 ^ 4 by rfl, ← pow_add]
    congr 1
    omega
  have hlast : symbolOf ((printed v).getD 12 '.') % 16 = v % 16 := by
    rw [List.getD_eq_getElem _ _ (by simp), getElem_printed, symbolOf_charOf _ (symbolAt_lt _ _)]
    simp [symbolAt]
  rw [wordOf, hdigits, Radix.ofDigits_digitsLE (by omega), hlast]
  exact Nat.div_add_mod' v 16

/-- Symbol `j` of a word of twelve digits below `32` and a last one below `16`: digit `11 - j`
from the bottom, or the last. -/
theorem symbolAt_word {ds : List Nat} (hlen : ds.length = 12) (hds : ∀ d ∈ ds, d < 32) {r : Nat}
    (hr : r < 16) {j : Nat} (hj : j < 13) :
    symbolAt (Nat.ofDigits 32 ds.reverse * 16 + r) j = (ds ++ [r]).getD j 0 := by
  unfold symbolAt
  split
  · rename_i hj12
    -- the five bits of symbol `j` lie above the four low bits and `11 - j` digits
    have hpow : 2 ^ (59 - 5 * j) = 16 * 32 ^ (11 - j) := by
      rw [show (32 : Nat) = 2 ^ 5 by rfl, ← pow_mul, show (16 : Nat) = 2 ^ 4 by rfl, ← pow_add]
      congr 1
      omega
    have hdiv : (Nat.ofDigits 32 ds.reverse * 16 + r) / 16 = Nat.ofDigits 32 ds.reverse := by omega
    rw [hpow, ← Nat.div_div_eq_div_mul, hdiv,
      Radix.ofDigits_div_pow_mod (fun d hd => hds d (List.mem_reverse.1 hd)),
      List.getD_append _ _ _ _ (by omega), List.getD_eq_getElem _ _ (by simp; omega),
      List.getD_eq_getElem _ _ (by omega), List.getElem_reverse]
    congr 1
    omega
  · rw [List.getD_append_right _ _ _ _ (by omega), show j - ds.length = 0 by omega]
    simp
    omega

/-- Thirteen characters of the map, the last with a symbol below sixteen, print back from their
word. -/
theorem printed_wordOf {cs : List Char} (hlen : cs.length = 13) (hcs : ∀ c ∈ cs, c ∈ nameCharmap)
    (hlast : symbolOf (cs.getD 12 '.') < 16) : printed (wordOf cs) = cs := by
  have hds : ∀ d ∈ (cs.take 12).map symbolOf, d < 32 := by
    intro d hd
    obtain ⟨c, -, rfl⟩ := List.mem_map.1 hd
    exact symbolOf_lt c
  have hsplit : (cs.take 12).map symbolOf ++ [symbolOf (cs.getD 12 '.')] = cs.map symbolOf := by
    have hdrop : cs.drop 12 = [cs.getD 12 '.'] := by
      rw [List.drop_eq_getElem_cons (by omega), List.drop_of_length_le (by omega),
        List.getD_eq_getElem _ _ (by omega)]
    conv_rhs => rw [← List.take_append_drop 12 cs, List.map_append, hdrop]
    rfl
  apply List.ext_getElem (by simp [hlen])
  intro j hj hj'
  rw [getElem_printed, wordOf, Nat.mod_eq_of_lt hlast,
    symbolAt_word (by simp [hlen]) hds hlast (by simpa using hj), hsplit,
    List.getD_eq_getElem _ _ (by simpa using hj'), List.getElem_map,
    charOf_symbolOf (hcs _ (List.getElem_mem _))]

/-- The thirteenth character of a text whose characters from the thirteenth on have symbols below
sixteen, or the dot where there is none. -/
theorem symbolOf_getD_lt {l : List Char} (hl : ∀ c ∈ l.drop 12, symbolOf c < 16) :
    symbolOf (l.getD 12 '.') < 16 := by
  rw [List.getD_eq_getElem?_getD]
  cases h : l[12]? with
  | none => simp [symbolOf_dot]
  | some c =>
    have hc : (l.drop 12)[0]? = some c := by rw [List.getElem?_drop]; exact h
    exact hl c (List.mem_of_getElem? hc)

/-! ## Trimming the dots -/

/-- A list is its trimmed part followed by the dots trimmed. -/
theorem rdropWhile_append_dots_self (l : List Char) :
    l.rdropWhile (· = '.') ++ List.replicate (l.rtakeWhile (· = '.')).length '.' = l := by
  have hdots : l.rtakeWhile (· = '.') = List.replicate (l.rtakeWhile (· = '.')).length '.' :=
    List.eq_replicate_iff.2 ⟨rfl, fun c hc => by simpa using List.mem_rtakeWhile_imp hc⟩
  rw [← hdots, List.rdropWhile_append_rtakeWhile]

/-- Trimming the dots added to a text that does not end with one gives the text back. -/
theorem rdropWhile_append_dots {cs : List Char} (hcs : cs.getLast? ≠ some '.') :
    ∀ m, (cs ++ List.replicate m '.').rdropWhile (· = '.') = cs
  | 0 => by
    rw [List.replicate_zero, List.append_nil, List.rdropWhile_eq_self_iff]
    intro hne hdot
    apply hcs
    rw [List.getLast?_eq_some_getLast hne]
    simpa using hdot
  | m + 1 => by
    rw [List.replicate_succ', ← List.append_assoc, List.rdropWhile_concat_pos _ _ _ (by decide)]
    exact rdropWhile_append_dots hcs m

/-- A trimmed text does not end with a dot. -/
theorem getLast?_rdropWhile_dots (l : List Char) : (l.rdropWhile (· = '.')).getLast? ≠ some '.' := by
  intro h
  have hne : l.rdropWhile (· = '.') ≠ [] := by
    intro h0
    rw [h0] at h
    simp at h
  apply List.rdropWhile_last_not _ _ hne
  rw [List.getLast?_eq_some_getLast hne] at h
  simpa using h

/-! ## The codec -/

/-- Printing a word and writing the text back gives the word. -/
theorem stringToUint64_toString (n : Name) : stringToUint64 (Name.toString n) = n.value := by
  apply UInt64.toNat_inj.1
  let p := printed n.value.toNat
  calc (stringToUint64Aux 0 (Name.toString n).toList 0).toNat
      = (stringToUint64Aux 0 (p.rdropWhile (· = '.') ++
          List.replicate (p.rtakeWhile (· = '.')).length '.') 0).toNat := by
        rw [stringToUint64Aux_append_dots, toString_toList]
    _ = (stringToUint64Aux 0 p 0).toNat := by rw [rdropWhile_append_dots_self]
    _ = wordOf p := stringToUint64Aux_thirteen (length_printed _) (fun c hc => mem_printed hc)
    _ = n.value.toNat := wordOf_printed n.value.toNat_lt

/-- Every printed name is a text of the codec. -/
theorem nameStringOk_toString (n : Name) : nameStringOk (Name.toString n) = true := by
  have hpre : (printed n.value.toNat).rdropWhile (· = '.') <+: printed n.value.toNat :=
    List.rdropWhile_prefix _ _
  -- the thirteenth character is printed from the four low bits
  have hlast : ∀ c ∈ (printed n.value.toNat).drop 12, c ∈ nameCharmap.take 16 := by
    intro c hc
    obtain ⟨j, hj, rfl⟩ := List.mem_iff_getElem.1 hc
    have hj0 : j = 0 := by simp at hj; omega
    subst hj0
    rw [List.getElem_drop, getElem_printed]
    exact charOf_mem_take _ (Nat.mod_lt _ (by decide))
  simp only [nameStringOk, toString_toList, ← String.length_toList, Bool.and_eq_true,
    decide_eq_true_eq, List.all_eq_true, bne_iff_ne, ne_eq]
  refine ⟨⟨⟨?_, ?_⟩, ?_⟩, getLast?_rdropWhile_dots _⟩
  · simpa using hpre.length_le
  · intro c hc
    exact mem_printed (hpre.subset hc)
  · intro c hc
    exact hlast c ((hpre.drop 12).subset hc)

/-- A text of the codec prints back from its word. -/
theorem toString_stringToUint64 {s : String} (hs : nameStringOk s = true) :
    Name.toString ⟨stringToUint64 s⟩ = s := by
  simp only [nameStringOk, Bool.and_eq_true, decide_eq_true_eq, List.all_eq_true, bne_iff_ne,
    ne_eq] at hs
  obtain ⟨⟨⟨hlen, hmap⟩, htake⟩, hdot⟩ := hs
  -- the text padded with dots to the thirteen characters that are printed
  obtain ⟨cs, hcs⟩ : ∃ cs, cs = s.toList ++ List.replicate (13 - s.length) '.' := ⟨_, rfl⟩
  have hcslen : cs.length = 13 := by simp [hcs, String.length_toList]; omega
  have hcsmap : ∀ c ∈ cs, c ∈ nameCharmap := by
    intro c hc
    rw [hcs, List.mem_append] at hc
    rcases hc with hc | hc
    · exact hmap c hc
    · rw [List.eq_of_mem_replicate hc]
      decide
  have hcslast : symbolOf (cs.getD 12 '.') < 16 := by
    apply symbolOf_getD_lt
    intro c hc
    rw [hcs, List.drop_append, List.mem_append] at hc
    rcases hc with hc | hc
    · exact symbolOf_lt_of_mem_take (htake c hc)
    · rw [List.eq_of_mem_replicate (List.mem_of_mem_drop hc), symbolOf_dot]
      decide
  have hword : (stringToUint64 s).toNat = wordOf cs := by
    unfold stringToUint64
    rw [← stringToUint64Aux_append_dots _ (13 - s.length), ← hcs,
      stringToUint64Aux_thirteen hcslen hcsmap]
  apply String.toList_inj.1
  rw [toString_toList, hword, printed_wordOf hcslen hcsmap hcslast, hcs,
    rdropWhile_append_dots hdot]

/-- `name::set` accepts a text exactly when it has at most thirteen characters and prints back from
its word, and then gives that word. -/
theorem set_eq_ok {s : String} {n : Name} :
    Name.set s = .ok n ↔ s.length ≤ 13 ∧ Name.toString ⟨stringToUint64 s⟩ = s ∧
      n = ⟨stringToUint64 s⟩ := by
  simp only [Name.set, bind_eq_ok, eosAssert_eq_ok, decide_eq_true_eq, beq_iff_eq]
  constructor
  · rintro ⟨_, hlen, _, hstr, hn⟩
    exact ⟨hlen, hstr, (Except.ok.inj hn).symm⟩
  · rintro ⟨hlen, hstr, rfl⟩
    exact ⟨(), hlen, (), hstr, rfl⟩

/-- The name codec is a bijection between words and the texts of `nameStringOk`: every word prints
to a text that `name::set` reads back to it, and `name::set` accepts exactly those texts, each
printing back as itself. -/
theorem name_codec_bijection :
    (∀ v : UInt64, Name.set (Name.toString ⟨v⟩) = .ok ⟨v⟩) ∧
      ∀ s : String, ((∃ n, Name.set s = .ok n) ↔ nameStringOk s = true) ∧
        ∀ n, Name.set s = .ok n → Name.toString n = s := by
  refine ⟨fun v => ?_, fun s => ⟨⟨?_, ?_⟩, ?_⟩⟩
  · have hv : stringToUint64 (Name.toString ⟨v⟩) = v := stringToUint64_toString ⟨v⟩
    refine set_eq_ok.2 ⟨?_, by rw [hv], by rw [hv]⟩
    have hok := nameStringOk_toString ⟨v⟩
    simp only [nameStringOk, Bool.and_eq_true, decide_eq_true_eq] at hok
    exact hok.1.1.1
  · rintro ⟨n, hn⟩
    obtain ⟨-, hstr, -⟩ := set_eq_ok.1 hn
    rw [← hstr]
    exact nameStringOk_toString _
  · intro hs
    have hlen : s.length ≤ 13 := by
      simp only [nameStringOk, Bool.and_eq_true, decide_eq_true_eq] at hs
      exact hs.1.1.1
    exact ⟨_, set_eq_ok.2 ⟨hlen, toString_stringToUint64 hs, rfl⟩⟩
  · intro n hn
    obtain ⟨-, hstr, rfl⟩ := set_eq_ok.1 hn
    exact hstr

end InfraBlockchain.Chain
