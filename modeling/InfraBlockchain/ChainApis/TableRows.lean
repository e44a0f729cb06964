import Mathlib
import InfraBlockchain.Lib.OrderedMultiset
import InfraBlockchain.Chain.Name
import InfraBlockchain.Chain.Asset
import InfraBlockchain.Contract.Table

/-!
# Paging through contract tables

`read_only::get_table_rows` on a table's primary index (`get_table_rows_ex`) and
`read_only::get_table_by_scope` return the rows of a range of an index, at most `limit` of them
and as many as ten milliseconds allow, and, when rows are left, where the next call should start:
`next_key`, the primary key of the first row left, printed as a decimal number, and `more`, the
scope of the first table left, printed as a name. A bound is a text: for the key type `name` it is
read as a name, and otherwise by `convert_to_type<uint64_t>`, which tries a decimal number, then a
name, then a symbol.

The loops walk the index from the position of the lower bound to that of the upper bound
(`walkRows`, `walkTableRange`); `clock i` is the time that `fc::time_point::now()` reads before the
check of the loop's `i`-th step, so that the first step always passes the time check.

A client that starts each call at the previous call's `next_key` gets every row of a primary range
exactly once, in the index order, when the key type is not `name` (`pageForward_eq`): a decimal
number reads back as itself, and every call returns at least one row. For the key type `name`, the
decimal text is read as a name instead, which is another key or no name at all; and a scope that
holds several tables is resumed at its first table, so that `get_table_by_scope` returns the tables
before the cut again.

The rows' data, the ABI, the `json` and `show_payer` options and the secondary indices are left
out: a row is returned as the object it is.
-/

namespace InfraBlockchain.ChainApis

open Chain Contract Auth OrderedMultiset

/-! ## Bounds and keys as text -/

/-- `boost::lexical_cast<uint64_t>`: a decimal number with an optional sign, a minus sign taking
it modulo `2^64`; `none` for any other text, or a magnitude of `2^64` or more. -/
def lexicalCastUInt64 (str : List Char) : Option UInt64 :=
  match Decimal.parse str with
  | some v => if v.natAbs < 2 ^ 64 then some (UInt64.ofInt v) else none
  | none => none

/-- `convert_to_type<uint64_t>`: a number, else the name of the trimmed text, else a symbol with
its precision when the text has a comma, else a symbol name. -/
def convertToTypeUInt64 (str _desc : String) : Except Exception UInt64 :=
  match lexicalCastUInt64 str.toList with
  | some v => .ok v
  | none =>
    match Name.set (String.ofList (fcTrim str.toList)) with
    | .ok s => .ok s.value
    | .error _ =>
      let symb : Option Symbol :=
        if (stringFind str.toList ',').isSome then (Symbol.fromString str.toList).toOption
        else none
      match symb with
      | some s => .ok s.value
      | none =>
        match stringToSymbol 0 str.toList with
        | .ok v => .ok (v >>> 8)
        | .error _ => .error ⟨.chain_type_exception,
            "Could not convert ${desc} string \x27${str}\x27 to any of the following: uint64_t, valid name, or valid symbol (with or without the precision)"⟩

/-- `convert_to_string` of a `uint64_t`: `fc::variant(source).as<string>()`, its decimal text. -/
def convertToStringUInt64 (source : UInt64) : String :=
  String.ofList (Nat.toDigits 10 source.toNat)

/-! ## The indices -/

/-- The key of `by_scope_primary`: the table, then the primary key. -/
def primaryKey (r : KeyValueObject) : Lex (Nat × Nat) := toLex (r.t_id, r.primary_key.toNat)

/-- The key of `by_code_scope_table`: the code, the scope, then the table. -/
def scopeKey (t : TableIdObject) : Lex (Nat × Lex (Nat × Nat)) :=
  toLex (t.code.value.toNat, toLex (t.scope.value.toNat, t.table.value.toNat))

/-- The indices that the queries read, each in its order. -/
structure TableDb where
  /-- `table_id_multi_index`, in the order of `by_code_scope_table`. -/
  table_ids : List TableIdObject
  /-- `key_value_index`, in the order of `by_scope_primary`. -/
  key_values : List KeyValueObject
  /-- `by_code_scope_table` is an ordered unique index. -/
  table_ids_sorted : table_ids.Pairwise fun a b => scopeKey a < scopeKey b
  /-- `by_scope_primary` is an ordered unique index. -/
  key_values_sorted : key_values.Pairwise fun a b => primaryKey a < primaryKey b

/-- The entries of an index from the position of `lower_bound(lo)` to that of `upper_bound(hi)`. -/
def indexRange {α κ : Type} [LinearOrder κ] (key : α → κ) (l : List α) (lo hi : κ) : List α :=
  (l.drop (lowerBound key l lo)).take (upperBound key l hi - lowerBound key l lo)

/-! ## `get_table_rows` on the primary index -/

/-- The parameters of `get_table_rows` that the primary index's query reads. -/
structure GetTableRowsParams where
  /-- `code`. -/
  code : Name
  /-- `scope`, as text. -/
  scope : String
  /-- `table`. -/
  table : Name
  /-- `lower_bound`, as text. -/
  lower_bound : String
  /-- `upper_bound`, as text. -/
  upper_bound : String
  /-- `limit`. -/
  limit : UInt32
  /-- `key_type`. -/
  key_type : String
  /-- `reverse`. -/
  reverse : Option Bool

/-- `get_table_rows_result`. -/
structure GetTableRowsResult where
  /-- `rows`. -/
  rows : List KeyValueObject
  /-- `more`. -/
  more : Bool
  /-- `next_key`. -/
  next_key : String

/-- The loop of `walk_table_row_range` on the primary index, at its `count`-th step: the row at
the iterator is pushed while the time allows and fewer than `limit` rows are pushed. The pushed
rows and the rows left. -/
def walkRows {α : Type} (limit : Nat) (clock : Nat → Nat) : Nat → List α → List α × List α
  | _, [] => ([], [])
  | count, r :: rs =>
    if clock count ≤ clock 0 + 10000 ∧ count < limit then
      let w := walkRows limit clock (count + 1) rs
      (r :: w.1, w.2)
    else ([], r :: rs)

/-- `next_key`: the primary key of the first row left, when a row is left. -/
def nextKey : List KeyValueObject → String
  | r :: _ => convertToStringUInt64 r.primary_key
  | [] => ""

/-- A bound of `get_table_rows_ex`: the default for an empty text; the text read as a name for
the key type `name`, and by `convert_to_type<uint64_t>` for every other. -/
def primaryBound (key_type bound : String) (default : UInt64) (desc : String) :
    Except Exception UInt64 :=
  if bound.length = 0 then .ok default
  else if key_type = "name" then (Name.set bound).map (·.value)
  else convertToTypeUInt64 bound desc

/-- The table of `(code, scope, table)`. -/
def findTable (db : TableDb) (code scope table : Name) : Option TableIdObject :=
  db.table_ids.find? fun t => t.key = (code, scope, table)

/-- `read_only::get_table_rows_ex<key_value_index>`. -/
def getTableRowsEx (db : TableDb) (p : GetTableRowsParams) (clock : Nat → Nat) :
    Except Exception GetTableRowsResult := do
  let scope ← convertToTypeUInt64 p.scope "scope"
  match findTable db p.code ⟨scope⟩ p.table with
  | none => pure ⟨[], false, ""⟩
  | some t =>
    let lo ← primaryBound p.key_type p.lower_bound 0 "lower_bound"
    let hi ← primaryBound p.key_type p.upper_bound 18446744073709551615 "upper_bound"
    -- the bound tuples share the table, so they compare as the keys do
    if hi < lo then pure ⟨[], false, ""⟩
    else
      let range := indexRange primaryKey db.key_values (toLex (t.id, lo.toNat))
        (toLex (t.id, hi.toNat))
      let w := walkRows p.limit.toNat clock 0 (if p.reverse = some true then range.reverse else range)
      pure ⟨w.1, !w.2.isEmpty, nextKey w.2⟩

/-! ## Paging forward through the primary index -/

/-- The rows of table `t` with a primary key in `[lo, hi]`, in the index order. -/
def tableRows (db : TableDb) (t : TableIdObject) (lo hi : UInt64) : List KeyValueObject :=
  db.key_values.filter fun r => r.t_id = t.id ∧ lo ≤ r.primary_key ∧ r.primary_key ≤ hi

/-- The rows of `(code, scope, table)` with a primary key in `[lo, hi]`: none when there is no
such table. -/
def primaryRange (db : TableDb) (code : Name) (scope : UInt64) (table : Name) (lo hi : UInt64) :
    List KeyValueObject :=
  match findTable db code ⟨scope⟩ table with
  | none => []
  | some t => tableRows db t lo hi

/-- A client paging forward: each call starts at the `next_key` of the call before, while there
are `more` rows, with at most `calls` calls; `clocks c` is the clock of the call made with `c` calls
left. The rows of all the calls, in order. -/
def pageForward (db : TableDb) (clocks : Nat → Nat → Nat) :
    Nat → GetTableRowsParams → Except Exception (List KeyValueObject)
  | 0, _ => .ok []
  | calls + 1, p => do
    let r ← getTableRowsEx db p (clocks calls)
    if r.more then (r.rows ++ ·) <$> pageForward db clocks calls { p with lower_bound := r.next_key }
    else pure r.rows

/-- The loop pushes a prefix of the rows and leaves the rest; from its first step on, and with a
positive limit, it pushes one row at least, as the time check of that step reads the start. -/
theorem walkRows_eq {α : Type} (limit : Nat) (clock : Nat → Nat) :
    ∀ (count : Nat) (l : List α), ∃ n, walkRows limit clock count l = (l.take n, l.drop n) ∧
      (l ≠ [] → count < limit → clock count ≤ clock 0 + 10000 → 0 < n)
  | _, [] => ⟨0, rfl, fun h => absurd rfl h⟩
  | count, r :: rs => by
    by_cases hgo : clock count ≤ clock 0 + 10000 ∧ count < limit
    · obtain ⟨n, hw, -⟩ := walkRows_eq limit clock (count + 1) rs
      refine ⟨n + 1, ?_, fun _ _ _ => Nat.succ_pos n⟩
      rw [walkRows, if_pos hgo, hw]
      rfl
    · refine ⟨0, by rw [walkRows, if_neg hgo]; rfl, fun _ hlt hclock => absurd ⟨hclock, hlt⟩ hgo⟩

/-- A decimal number reads back as itself. -/
theorem lexicalCastUInt64_toDigits (k : UInt64) :
    lexicalCastUInt64 (Nat.toDigits 10 k.toNat) = some k := by
  have hparse : Decimal.parse (Nat.toDigits 10 k.toNat) = some (k.toNat : Int) := by
    have h := Decimal.parse_text (k.toNat : Int)
    rwa [Decimal.text, if_neg (by omega), Int.natAbs_natCast] at h
  have hlt : (k.toNat : Int).natAbs < 2 ^ 64 := by
    rw [Int.natAbs_natCast]
    exact UInt64.toNat_lt k
  simp only [lexicalCastUInt64, hparse, hlt, if_true, Option.some.injEq]
  rw [UInt64.ofInt, Int.emod_eq_of_lt (Int.natCast_nonneg _) (by omega), Int.toNat_natCast,
    UInt64.ofNat_toNat]

/-- A printed `next_key` reads back as the key, for every key type but `name`. -/
theorem primaryBound_nextKey {key_type : String} (hkey : key_type ≠ "name") (k default : UInt64)
    (desc : String) : primaryBound key_type (convertToStringUInt64 k) default desc = .ok k := by
  have hne : (convertToStringUInt64 k).length ≠ 0 := by
    simp [convertToStringUInt64, Nat.toDigits_ne_nil]
  rw [primaryBound, if_neg hne, if_neg hkey]
  simp only [convertToTypeUInt64, convertToStringUInt64, String.toList_ofList,
    lexicalCastUInt64_toDigits]

/-- The bounds of a table's range in `by_scope_primary`: the rows of the table with a key in
between. -/
theorem primaryKey_between {r : KeyValueObject} {t : Nat} {lo hi : UInt64} :
    (toLex (t, lo.toNat) ≤ primaryKey r ∧ primaryKey r ≤ toLex (t, hi.toNat)) ↔
      r.t_id = t ∧ lo ≤ r.primary_key ∧ r.primary_key ≤ hi := by
  simp only [primaryKey, Prod.Lex.toLex_le_toLex, UInt64.le_iff_toNat_le]
  omega

/-- From `lower_bound` to `upper_bound` of a table's range lie the rows of the table in it. -/
theorem indexRange_primary (db : TableDb) (t : TableIdObject) {lo hi : UInt64} (hlohi : lo ≤ hi) :
    indexRange primaryKey db.key_values (toLex (t.id, lo.toNat)) (toLex (t.id, hi.toNat)) =
      tableRows db t lo hi := by
  have hs : Sorted primaryKey db.key_values := db.key_values_sorted.imp le_of_lt
  have hle : (toLex (t.id, lo.toNat) : Lex (Nat × Nat)) ≤ toLex (t.id, hi.toNat) := by
    rw [Prod.Lex.toLex_le_toLex, UInt64.le_iff_toNat_le.symm]
    exact .inr ⟨rfl, hlohi⟩
  have hrange := range_lowerBound_upperBound hs hle
  -- the upper position is not before the lower one: a key above `hi` is at least `lo`
  have hbe : lowerBound primaryKey db.key_values (toLex (t.id, lo.toNat)) ≤
      upperBound primaryKey db.key_values (toLex (t.id, hi.toNat)) :=
    List.findIdx_le_findIdx fun a _ h =>
      decide_eq_true (le_trans hle (le_of_lt (of_decide_eq_true h)))
  rw [range_of_le hbe List.findIdx_le_length, Option.some.injEq] at hrange
  rw [indexRange, hrange, tableRows]
  refine List.filter_congr fun r _ => ?_
  simp only [← Bool.decide_and, primaryKey_between]

/-- One call forward on a table: the rows pushed are a prefix of the table's range, one at least
when there is one and the limit is positive, `more` says whether rows are left, and `next_key` is
the key of the first row left. -/
theorem getTableRowsEx_forward {db : TableDb} {p : GetTableRowsParams} (clock : Nat → Nat)
    {scope : UInt64} {t : TableIdObject} {lo hi : UInt64}
    (hscope : convertToTypeUInt64 p.scope "scope" = .ok scope)
    (ht : findTable db p.code ⟨scope⟩ p.table = some t)
    (hlo : primaryBound p.key_type p.lower_bound 0 "lower_bound" = .ok lo)
    (hhi : primaryBound p.key_type p.upper_bound 18446744073709551615 "upper_bound" = .ok hi)
    (hrev : p.reverse ≠ some true) :
    ∃ n, getTableRowsEx db p clock = .ok ⟨(tableRows db t lo hi).take n,
        !((tableRows db t lo hi).drop n).isEmpty, nextKey ((tableRows db t lo hi).drop n)⟩ ∧
      (tableRows db t lo hi ≠ [] → 0 < p.limit.toNat → 0 < n) := by
  by_cases hlt : hi < lo
  · -- an empty range: no row lies between the bounds
    have hnil : tableRows db t lo hi = [] :=
      List.filter_eq_nil_iff.2 fun r _ h => by
        simp only [decide_eq_true_eq, UInt64.le_iff_toNat_le] at h
        rw [UInt64.lt_iff_toNat_lt] at hlt
        omega
    refine ⟨0, ?_, fun h => absurd hnil h⟩
    simp [getTableRowsEx, hscope, ht, hlo, hhi, hlt, hnil, nextKey, ok_bind, Pure.pure,
      Except.pure]
  · obtain ⟨n, hw, hpos⟩ := walkRows_eq p.limit.toNat clock 0 (tableRows db t lo hi)
    refine ⟨n, ?_, fun hne hlim => hpos hne hlim (Nat.le_add_right _ _)⟩
    have hle : lo ≤ hi := by
      rw [UInt64.lt_iff_toNat_lt] at hlt
      rw [UInt64.le_iff_toNat_le]
      omega
    simp [getTableRowsEx, hscope, ht, hlo, hhi, hlt, hrev, indexRange_primary db t hle, hw, ok_bind,
      Pure.pure, Except.pure]

/-- The rows of a table are in strictly increasing key order. -/
theorem tableRows_sorted (db : TableDb) (t : TableIdObject) (lo hi : UInt64) :
    (tableRows db t lo hi).Pairwise fun a b => a.primary_key.toNat < b.primary_key.toNat := by
  refine (db.key_values_sorted.sublist List.filter_sublist).imp_of_mem fun ha hb hab => ?_
  -- both rows are of table `t`, so the order of their keys is that of their primary keys
  have hta := (of_decide_eq_true (List.mem_filter.1 ha).2).1
  have htb := (of_decide_eq_true (List.mem_filter.1 hb).2).1
  simp only [primaryKey, Prod.Lex.toLex_lt_toLex, hta, htb, lt_self_iff_false, true_and,
    false_or] at hab
  exact hab

/-- The next call starts at the first row left: the table's rows from its key on are those left. -/
theorem tableRows_resume {db : TableDb} {t : TableIdObject} {lo hi : UInt64} {n : Nat}
    {r : KeyValueObject} {rest : List KeyValueObject}
    (h : (tableRows db t lo hi).drop n = r :: rest) :
    tableRows db t r.primary_key hi = r :: rest := by
  have hr : r ∈ tableRows db t lo hi := List.mem_of_mem_drop (h ▸ List.mem_cons_self)
  have hlo : lo ≤ r.primary_key := (of_decide_eq_true (List.mem_filter.1 hr).2).2.1
  calc tableRows db t r.primary_key hi
      = (tableRows db t lo hi).filter fun a => decide (r.primary_key.toNat ≤ a.primary_key.toNat) := by
        rw [tableRows, tableRows, List.filter_filter]
        refine List.filter_congr fun a _ => ?_
        rw [Bool.eq_iff_iff]
        simp only [Bool.and_eq_true, decide_eq_true_eq, UInt64.le_iff_toNat_le] at hlo ⊢
        omega
    _ = r :: rest := filter_le_of_drop (tableRows_sorted db t lo hi) h

/-- Paging forward through the primary index with a key type other than `name`, with a positive
limit, and with calls to spare, returns every row of the range once, in the index order, whatever
the time each call takes. By induction on the calls: each call returns a prefix of the rows left,
one at least, and the next starts at the first row after it. -/
theorem pageForward_eq (db : TableDb) (clocks : Nat → Nat → Nat) :
    ∀ (calls : Nat) (p : GetTableRowsParams) {scope lo hi : UInt64}, p.key_type ≠ "name" →
      0 < p.limit.toNat → p.reverse ≠ some true →
      convertToTypeUInt64 p.scope "scope" = .ok scope →
      primaryBound p.key_type p.lower_bound 0 "lower_bound" = .ok lo →
      primaryBound p.key_type p.upper_bound 18446744073709551615 "upper_bound" = .ok hi →
      (primaryRange db p.code scope p.table lo hi).length < calls →
      pageForward db clocks calls p = .ok (primaryRange db p.code scope p.table lo hi)
  | 0, _, _, _, _, _, _, _, _, _, _, hcalls => absurd hcalls (Nat.not_lt_zero _)
  | calls + 1, p, scope, lo, hi, hkey, hlimit, hrev, hscope, hlo, hhi, hcalls => by
    cases ht : findTable db p.code ⟨scope⟩ p.table with
    | none =>
      simp [pageForward, getTableRowsEx, hscope, ht, primaryRange, ok_bind, Pure.pure, Except.pure]
    | some t =>
      simp only [primaryRange, ht] at hcalls ⊢
      obtain ⟨n, hcall, hpos⟩ := getTableRowsEx_forward (clocks calls) hscope ht hlo hhi hrev
      cases hrest : (tableRows db t lo hi).drop n with
      | nil =>
        -- nothing is left: the call returned the whole range
        have hall : (tableRows db t lo hi).take n = tableRows db t lo hi :=
          List.take_of_length_le (List.drop_eq_nil_iff.1 hrest)
        simp [pageForward, hcall, hrest, hall, ok_bind, Pure.pure, Except.pure]
      | cons r rest =>
        -- the next call starts at `r`, and its range is what is left
        have hnext := pageForward_eq db clocks calls { p with lower_bound := nextKey (r :: rest) }
          hkey hlimit hrev hscope (primaryBound_nextKey hkey r.primary_key 0 "lower_bound") hhi
          (by
            have hne : tableRows db t lo hi ≠ [] := fun h => by simp [h] at hrest
            have hn := hpos hne hlimit
            have hlen := congrArg List.length hrest
            simp only [List.length_drop, List.length_cons] at hlen
            simp only [primaryRange, ht, tableRows_resume hrest, List.length_cons]
            omega)
        simp only [primaryRange, ht, tableRows_resume hrest] at hnext
        have hsplit : (tableRows db t lo hi).take n ++ r :: rest = tableRows db t lo hi := by
          rw [← hrest, List.take_append_drop]
        simp [pageForward, hcall, hrest, hnext, hsplit, ok_bind, Functor.map, Except.map]

/-! ## `get_table_by_scope` -/

/-- The parameters of `get_table_by_scope`. -/
structure GetTableByScopeParams where
  /-- `code`. -/
  code : Name
  /-- `table`, or the empty name for every table. -/
  table : Name
  /-- `lower_bound`, a scope as text. -/
  lower_bound : String
  /-- `upper_bound`, a scope as text. -/
  upper_bound : String
  /-- `limit`. -/
  limit : UInt32
  /-- `reverse`. -/
  reverse : Option Bool

/-- `get_table_by_scope_result_row`. -/
structure GetTableByScopeResultRow where
  /-- `code`. -/
  code : Name
  /-- `scope`. -/
  scope : Name
  /-- `table`. -/
  table : Name
  /-- `payer`. -/
  payer : Name
  /-- `count`. -/
  count : UInt32
  deriving DecidableEq

/-- `get_table_by_scope_result`. -/
structure GetTableByScopeResult where
  /-- `rows`. -/
  rows : List GetTableByScopeResultRow
  /-- `more`: the scope to start the next call at, or empty. -/
  more : String

/-- The loop of `walk_table_range` at its `i`-th step, with `count` rows pushed: a table other
than `table`, when one is asked for, is skipped without being counted. The pushed rows and the
tables left. -/
def walkTableRange (table : Name) (limit : Nat) (clock : Nat → Nat) :
    Nat → Nat → List TableIdObject → List GetTableByScopeResultRow × List TableIdObject
  | _, _, [] => ([], [])
  | i, count, t :: ts =>
    if clock i ≤ clock 0 + 10000 ∧ count < limit then
      if table.good ∧ t.table ≠ table then walkTableRange table limit clock (i + 1) count ts
      else
        let w := walkTableRange table limit clock (i + 1) (count + 1) ts
        (⟨t.code, t.scope, t.table, t.payer, t.count⟩ :: w.1, w.2)
    else ([], t :: ts)

/-- `more`: the scope of the first table left, when a table is left. -/
def moreScope : List TableIdObject → String
  | t :: _ => Name.toString t.scope
  | [] => ""

/-- A scope bound of `get_table_by_scope`: the default for an empty text, and otherwise the text
read by `convert_to_type<uint64_t>`. -/
def scopeBound (bound : String) (default : UInt64) (desc : String) : Except Exception UInt64 :=
  if bound.length = 0 then .ok default else convertToTypeUInt64 bound desc

/-- `read_only::get_table_by_scope`. -/
def getTableByScope (db : TableDb) (p : GetTableByScopeParams) (clock : Nat → Nat) :
    Except Exception GetTableByScopeResult := do
  let lo ← scopeBound p.lower_bound 0 "lower_bound scope"
  let hi ← scopeBound p.upper_bound 18446744073709551615 "upper_bound scope"
  let lower : Lex (Nat × Lex (Nat × Nat)) :=
    toLex (p.code.value.toNat, toLex (lo.toNat, p.table.value.toNat))
  let upper : Lex (Nat × Lex (Nat × Nat)) :=
    toLex (p.code.value.toNat, toLex (hi.toNat,
      if p.table.empty then 18446744073709551615 else p.table.value.toNat))
  if upper < lower then pure ⟨[], ""⟩
  else
    let range := indexRange scopeKey db.table_ids lower upper
    let w := walkTableRange p.table p.limit.toNat clock 0 0
      (if p.reverse = some true then range.reverse else range)
    pure ⟨w.1, moreScope w.2⟩

/-- Resuming at `next_key` or `more` loses or repeats rows. A table with primary keys `1` and `2`,
read one row at a time with the key type `name`: the first call returns key `1` and `next_key`
`"2"`, which the second call reads as the name `2`, the key `2^60`, so that it returns nothing
and ends. And a scope `alice` holding the tables `a` and `b`, read one table at a time: the first
call returns `a` and `more` `"alice"`, and the second call, starting at the scope `alice`, returns
`a` again, as does every later call. -/
theorem table_rows_paging_breaks :
    let alice := Name.ofString "alice"
    let db : TableDb := ⟨[⟨0, ⟨1⟩, alice, Name.ofString "a", ⟨1⟩, 0⟩,
        ⟨1, ⟨1⟩, alice, Name.ofString "b", ⟨1⟩, 0⟩],
      [⟨0, 1, ⟨1⟩, []⟩, ⟨0, 2, ⟨1⟩, []⟩], by decide, by decide⟩
    let rows : GetTableRowsParams := ⟨⟨1⟩, "alice", Name.ofString "a", "", "", 1, "name", none⟩
    let scopes : GetTableByScopeParams := ⟨⟨1⟩, ⟨0⟩, "", "", 1, none⟩
    (getTableRowsEx db rows fun _ => 0).map (fun r => (r.rows.map (·.primary_key), r.more,
        r.next_key)) = .ok ([1], true, "2") ∧
      (getTableRowsEx db { rows with lower_bound := "2" } fun _ => 0).map (fun r =>
        (r.rows.map (·.primary_key), r.more)) = .ok ([], false) ∧
      (getTableByScope db scopes fun _ => 0).map (fun r => (r.rows.map (·.table), r.more)) =
        .ok ([Name.ofString "a"], "alice") ∧
      (getTableByScope db { scopes with lower_bound := "alice" } fun _ => 0).map (fun r =>
        (r.rows.map (·.table), r.more)) = .ok ([Name.ofString "a"], "alice") := by
  decide

end InfraBlockchain.ChainApis
