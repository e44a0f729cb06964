import Mathlib
import InfraBlockchain.Lib.SortedIndex
import InfraBlockchain.Contract.Table

/-!
# Iterating over a table's rows

`apply_context` hands out iterators to contracts as integers (`iterator_cache` of
`apply_context.hpp`): a row's iterator is its index in a vector of the rows handed out, and a
table's end iterator is `-(i + 2)` for its index `i` in a vector of the tables handed out; `-1`
stands for no table. `db_lowerbound_i64`, `db_upperbound_i64` and `db_end_i64` start an iteration
and `db_next_i64` and `db_previous_i64` step it (`apply_context.cpp`), all through
`by_scope_primary`, one index of the rows of every table ordered by table id and then primary key.
A step must stop at the boundary of its table, for the next row of the index may be the first row
of another table.

The index is a `SortedIndex` over the rank `t_id 2^64 + primary_key`, whose order is the order of
the pairs, so the rows of the table of id `t` are the ranks in `[t 2^64, (t + 1) 2^64)`
(`rank_lt_tableEnd_iff`). The cache keeps the key of each row and the id of each table handed out,
where the source keeps pointers that read them as the database holds them now, and the source's
inverse maps of its two vectors (`_table_cache`, `_object_to_iterator`) are searches of the vectors
here.
A contract's loops over the calls (`nextLoop`, `previousLoop`) simulate the index's walks
(`nextLoop_walkUp`, `previousLoop_walkDown`): from the lower bound or the upper bound of a key they
visit the table's rows from the key on in ascending order and end at the table's end iterator; from
the end iterator they visit all of its rows in descending order and end at `-1`.
-/

namespace InfraBlockchain.Contract

open SortedIndex

/-- The position of the key `(t_id, primary_key)` in `by_scope_primary`: by table id, then by
primary key, which is below `2^64`. -/
def rankOf (t_id : Nat) (primary_key : UInt64) : Nat := t_id * 2 ^ 64 + primary_key.toNat

/-- The position of a row in `by_scope_primary`. -/
def KeyValueObject.rank (o : KeyValueObject) : Nat := rankOf o.t_id o.primary_key

/-- `iterator_cache<key_value_object>`. -/
structure IteratorCache where
  /-- `_end_iterator_to_table`: the tables handed out, the `i`-th with the end iterator
  `-(i + 2)`. The source keeps pointers, through which a table reads as the database holds it
  now; the cache keeps the tables' ids. -/
  end_iterator_to_table : List Nat := []
  /-- `_iterator_to_object`: the keys of the rows handed out, by iterator, `none` once removed. -/
  iterator_to_object : List (Option (Nat × UInt64)) := []

/-- `index_to_end_iterator`. -/
def indexToEndIterator (indx : Nat) : Int := -((indx : Int) + 2)

/-- `end_iterator_to_index`. -/
def endIteratorToIndex (ei : Int) : Nat := (-ei - 2).toNat

namespace IteratorCache

/-- `cache_table`: the table's end iterator, the table handed out first when it is new. -/
def cacheTable (c : IteratorCache) (tobj : TableIdObject) : IteratorCache × Int :=
  match c.end_iterator_to_table.findIdx? (· == tobj.id) with
  | some indx => (c, indexToEndIterator indx)
  | none =>
    ({ c with end_iterator_to_table := c.end_iterator_to_table ++ [tobj.id] },
      indexToEndIterator c.end_iterator_to_table.length)

/-- `get_end_iterator_by_table_id`. -/
def getEndIteratorByTableId (c : IteratorCache) (i : Nat) : Except Exception Int :=
  match c.end_iterator_to_table.findIdx? (· == i) with
  | some indx => pure (indexToEndIterator indx)
  | none => throw ⟨.table_not_in_cache, "an invariant was broken, table should be in cache"⟩

/-- `find_table_by_end_iterator`: the table as the database holds it now; `none` for an end
iterator not handed out. -/
def findTableByEndIterator (c : IteratorCache) (s : DbState) (ei : Int) :
    Except Exception (Option TableIdObject) := do
  eosAssert (ei < -1) .invalid_table_iterator "not an end iterator"
  pure (c.end_iterator_to_table[endIteratorToIndex ei]?.bind (s.tables.lookup TableIdObject.id))

/-- `get`: the row that an iterator points to, as the database holds it now. -/
def get (c : IteratorCache) (s : DbState) (iterator : Int) : Except Exception KeyValueObject := do
  eosAssert (iterator != -1) .invalid_table_iterator "invalid iterator"
  eosAssert (iterator ≥ 0) .table_operation_not_permitted "dereference of end iterator"
  eosAssert (iterator.toNat < c.iterator_to_object.length) .invalid_table_iterator
    "iterator out of range"
  match c.iterator_to_object[iterator.toNat]? with
  | some (some k) =>
    liftDb .table_operation_not_permitted "dereference of deleted object"
      (s.key_values.lookup KeyValueObject.key k)
  | _ => throw ⟨.table_operation_not_permitted, "dereference of deleted object"⟩

/-- `add`: the row's iterator, the row handed out first when it is new. -/
def add (c : IteratorCache) (obj : KeyValueObject) : IteratorCache × Int :=
  match c.iterator_to_object.findIdx? (· == some obj.key) with
  | some i => (c, i)
  | none =>
    ({ c with iterator_to_object := c.iterator_to_object ++ [some obj.key] },
      c.iterator_to_object.length)

end IteratorCache

/-- `apply_context::db_next_i64`: the next row of the index, or the table's end iterator when there
is none or it is of another table; the primary key is written for a row only. -/
def dbNextI64 (s : DbState) (c : IteratorCache) (iterator : Int) :
    Except Exception (IteratorCache × Int × Option UInt64) :=
  -- cannot increment past end iterator of table
  if iterator < -1 then pure (c, -1, none)
  else do
    let obj ← c.get s iterator
    match (upperBound KeyValueObject.rank s.key_values.rows obj.rank).filter
        (·.t_id == obj.t_id) with
    | some itr =>
      let (c, i) := c.add itr
      pure (c, i, some itr.primary_key)
    | none =>
      let ei ← c.getEndIteratorByTableId obj.t_id
      pure (c, ei, none)

/-- `apply_context::db_previous_i64`: from an end iterator the last row of its table, from a row
the row before it in the index; `-1` when that row is of another table or there is none. -/
def dbPreviousI64 (s : DbState) (c : IteratorCache) (iterator : Int) :
    Except Exception (IteratorCache × Int × Option UInt64) :=
  if iterator < -1 then do
    let tab ← c.findTableByEndIterator s iterator
    let tab ← liftDb .invalid_table_iterator "not a valid end iterator" tab
    -- the row before `upper_bound(tab->id)`, the first row of a later table
    match (lastBelow KeyValueObject.rank s.key_values.rows ((tab.id + 1) * 2 ^ 64)).filter
        (·.t_id == tab.id) with
    | some itr =>
      let (c, i) := c.add itr
      pure (c, i, some itr.primary_key)
    | none => pure (c, -1, none)
  else do
    let obj ← c.get s iterator
    match (lastBelow KeyValueObject.rank s.key_values.rows obj.rank).filter
        (·.t_id == obj.t_id) with
    | some itr =>
      let (c, i) := c.add itr
      pure (c, i, some itr.primary_key)
    | none => pure (c, -1, none)

/-- `apply_context::db_lowerbound_i64`: the first row of the table at or after `id`, else the
table's end iterator; `-1` without the table. -/
def dbLowerboundI64 (s : DbState) (c : IteratorCache) (code scope table : Name) (id : UInt64) :
    IteratorCache × Int :=
  match findTable s code scope table with
  | none => (c, -1)
  | some tab =>
    let (c, table_end_itr) := c.cacheTable tab
    match (lowerBound KeyValueObject.rank s.key_values.rows (rankOf tab.id id)).filter
        (·.t_id == tab.id) with
    | some itr => c.add itr
    | none => (c, table_end_itr)

/-- `apply_context::db_upperbound_i64`: the first row of the table after `id`, else the table's end
iterator; `-1` without the table. -/
def dbUpperboundI64 (s : DbState) (c : IteratorCache) (code scope table : Name) (id : UInt64) :
    IteratorCache × Int :=
  match findTable s code scope table with
  | none => (c, -1)
  | some tab =>
    let (c, table_end_itr) := c.cacheTable tab
    match (upperBound KeyValueObject.rank s.key_values.rows (rankOf tab.id id)).filter
        (·.t_id == tab.id) with
    | some itr => c.add itr
    | none => (c, table_end_itr)

/-- `apply_context::db_end_i64`: the table's end iterator; `-1` without the table. -/
def dbEndI64 (s : DbState) (c : IteratorCache) (code scope table : Name) : IteratorCache × Int :=
  match findTable s code scope table with
  | none => (c, -1)
  | some tab => c.cacheTable tab

/-- A contract's loop forward over a table: the row that the iterator points to, read as
`db_get_i64` reads it, then `db_next_i64`, until an end iterator; `fuel` rows at most. It returns
the rows read and the iterator that ends the loop. -/
def nextLoop (s : DbState) :
    Nat → IteratorCache → Int → Except Exception (List KeyValueObject × IteratorCache × Int)
  | 0, c, iterator => pure ([], c, iterator)
  | fuel + 1, c, iterator =>
    if iterator < 0 then pure ([], c, iterator)
    else do
      let obj ← c.get s iterator
      let (c, iterator, _) ← dbNextI64 s c iterator
      let (objs, c, iterator) ← nextLoop s fuel c iterator
      pure (obj :: objs, c, iterator)

/-- A contract's loop backward over a table: `db_previous_i64`, then the row that the iterator
points to, until `-1`; `fuel` rows at most. -/
def previousLoop (s : DbState) :
    Nat → IteratorCache → Int → Except Exception (List KeyValueObject × IteratorCache × Int)
  | 0, c, iterator => pure ([], c, iterator)
  | fuel + 1, c, iterator => do
    let (c, iterator, _) ← dbPreviousI64 s c iterator
    if iterator < 0 then pure ([], c, iterator)
    else do
      let obj ← c.get s iterator
      let (objs, c, iterator) ← previousLoop s fuel c iterator
      pure (obj :: objs, c, iterator)

/-! ## Ranks -/

/-- Equal ranks are equal keys. -/
theorem KeyValueObject.key_eq_of_rank_eq {a b : KeyValueObject} (h : a.rank = b.rank) :
    a.key = b.key := by
  have ha := a.primary_key.toNat_lt
  have hb := b.primary_key.toNat_lt
  unfold KeyValueObject.rank rankOf at h
  have ht : a.t_id = b.t_id := by omega
  have hp : a.primary_key = b.primary_key := UInt64.toNat_inj.1 (by omega)
  simp [KeyValueObject.key, ht, hp]

/-- The rows of the database have distinct ranks. -/
theorem rows_rank_ne (s : DbState) : s.key_values.rows.Pairwise fun a b => a.rank ≠ b.rank :=
  s.key_values.no_clash.imp fun hne heq => hne (KeyValueObject.key_eq_of_rank_eq heq)

/-- From the first rank of table `t` on, a rank is below the first rank of the next table exactly
for the rows of `t`. -/
theorem rank_lt_tableEnd_iff {o : KeyValueObject} {t : Nat} (h : t * 2 ^ 64 ≤ o.rank) :
    o.rank < (t + 1) * 2 ^ 64 ↔ o.t_id = t := by
  have := o.primary_key.toNat_lt
  unfold KeyValueObject.rank rankOf at *
  omega

/-- Below the first rank of the next table, a rank is at least the first rank of table `t` exactly
for the rows of `t`. -/
theorem tableStart_le_rank_iff {o : KeyValueObject} {t : Nat} (h : o.rank < (t + 1) * 2 ^ 64) :
    t * 2 ^ 64 ≤ o.rank ↔ o.t_id = t := by
  have := o.primary_key.toNat_lt
  unfold KeyValueObject.rank rankOf at *
  omega

/-! ## The cache -/

namespace IteratorCache

/-- An end iterator is below `-1`. -/
theorem indexToEndIterator_lt (indx : Nat) : indexToEndIterator indx < -1 := by
  unfold indexToEndIterator
  omega

/-- The end iterator of a table found by its id. -/
theorem getEndIteratorByTableId_lt {c : IteratorCache} {i : Nat} {ei : Int}
    (h : c.getEndIteratorByTableId i = .ok ei) : ei < -1 := by
  unfold getEndIteratorByTableId at h
  split at h
  · cases h
    exact indexToEndIterator_lt _
  · cases h

/-- The end iterator of a table of the database found by its id gives the table back. -/
theorem findTableByEndIterator_of_getEnd {c : IteratorCache} {s : DbState} {tab : TableIdObject}
    {ei : Int} (htab : tab ∈ s.tables.rows) (h : c.getEndIteratorByTableId tab.id = .ok ei) :
    c.findTableByEndIterator s ei = .ok (some tab) := by
  unfold getEndIteratorByTableId at h
  split at h
  · rename_i indx hindx
    cases h
    obtain ⟨hlt, hid, -⟩ := List.findIdx?_eq_some_iff_getElem.1 hindx
    have hcached : c.end_iterator_to_table[indx] = tab.id := by simpa using hid
    -- the database has one table of each id
    have hlookup : s.tables.lookup TableIdObject.id tab.id = some tab :=
      IndexedTable.lookup_of_mem (fun a b (h : a.id = b.id) => TableIdObject.clash_of_id h) htab
    unfold findTableByEndIterator
    rw [eosAssert_bind, if_pos (decide_eq_true (indexToEndIterator_lt indx))]
    have hindex : endIteratorToIndex (indexToEndIterator indx) = indx := by
      unfold endIteratorToIndex indexToEndIterator
      omega
    rw [hindex, List.getElem?_eq_getElem hlt, hcached, Option.bind_some, hlookup]
    rfl
  · cases h

/-- `cache_table` keeps the rows handed out, and leaves the end iterator that it returns to be
found by the table's id. -/
theorem cacheTable_spec (c : IteratorCache) (tab : TableIdObject) :
    (c.cacheTable tab).1.iterator_to_object = c.iterator_to_object ∧
      (c.cacheTable tab).1.getEndIteratorByTableId tab.id = .ok (c.cacheTable tab).2 := by
  unfold cacheTable
  split
  · rename_i indx hindx
    refine ⟨rfl, ?_⟩
    simp only [getEndIteratorByTableId, hindx]
    rfl
  · rename_i hnone
    refine ⟨rfl, ?_⟩
    -- the new table is the first of its id
    simp only [getEndIteratorByTableId, List.findIdx?_append, hnone, Option.none_or]
    simp
    rfl

/-- The row of an entry that holds the key of a row of the database. -/
theorem get_of_entry {c : IteratorCache} {s : DbState} {i : Nat} {k : Nat × UInt64}
    {o : KeyValueObject} (hentry : c.iterator_to_object[i]? = some (some k))
    (hlookup : s.key_values.lookup KeyValueObject.key k = some o) :
    c.get s i = .ok o := by
  have hlt : i < c.iterator_to_object.length := (List.getElem?_eq_some_iff.1 hentry).1
  unfold get
  rw [eosAssert_bind, if_pos (by simp), eosAssert_bind, if_pos (by simp),
    eosAssert_bind, if_pos (by simpa using hlt)]
  simp only [Int.toNat_natCast, hentry]
  exact liftDb_eq_ok.2 hlookup

/-- `add` of a row of the database hands out an iterator that `get` reads back as the row, and
changes no table. -/
theorem add_spec (c : IteratorCache) {s : DbState} {o : KeyValueObject}
    (ho : o ∈ s.key_values.rows) :
    0 ≤ (c.add o).2 ∧ (c.add o).1.get s (c.add o).2 = .ok o ∧
      (c.add o).1.end_iterator_to_table = c.end_iterator_to_table := by
  have hlookup : s.key_values.lookup KeyValueObject.key o.key = some o :=
    IndexedTable.lookup_of_mem (fun a b (h : a.key = b.key) => KeyValueObject.clash_of_key h) ho
  -- the entry of the iterator holds the row's key
  obtain ⟨i, hi, hentry⟩ : ∃ i : Nat, (c.add o).2 = i ∧
      (c.add o).1.iterator_to_object[i]? = some (some o.key) := by
    unfold add
    split
    · rename_i i hfind
      obtain ⟨hlt, hkey, -⟩ := List.findIdx?_eq_some_iff_getElem.1 hfind
      exact ⟨i, rfl, by simpa [List.getElem?_eq_getElem hlt] using hkey⟩
    · exact ⟨_, rfl, by simp⟩
  refine ⟨by omega, ?_, by unfold add; split <;> rfl⟩
  rw [hi]
  exact get_of_entry hentry hlookup

end IteratorCache

/-! ## The steps -/

/-- What a step returns for the row `found` of the index: the row's iterator and primary key when
the row is of table `t`, else `other`. -/
def stepResult (c : IteratorCache) (t : Nat) (found : Option KeyValueObject) (other : Int) :
    IteratorCache × Int × Option UInt64 :=
  match found.filter (·.t_id == t) with
  | some itr => ((c.add itr).1, (c.add itr).2, some itr.primary_key)
  | none => (c, other, none)

/-- A step hands out the row found when it is of the table, and returns `other` when there is no
row or it is of another table. -/
theorem stepResult_cases (c : IteratorCache) (t : Nat) (found : Option KeyValueObject)
    (other : Int) :
    (∃ y, found = some y ∧ y.t_id = t ∧
        stepResult c t found other = ((c.add y).1, (c.add y).2, some y.primary_key)) ∨
      ((found = none ∨ ∃ y, found = some y ∧ y.t_id ≠ t) ∧
        stepResult c t found other = (c, other, none)) := by
  cases found with
  | none => exact .inr ⟨.inl rfl, rfl⟩
  | some y =>
    by_cases hy : y.t_id = t
    · exact .inl ⟨y, rfl, hy, by simp [stepResult, Option.filter, hy]⟩
    · exact .inr ⟨.inr ⟨y, rfl, hy⟩, by simp [stepResult, Option.filter, hy]⟩

section Steps

variable {s : DbState} {c : IteratorCache} {it : Int} {x : KeyValueObject} {t : Nat}

/-- `db_next_i64` from a row of table `t` steps to the first row after it in the index, or to the
table's end iterator `ei`. -/
theorem dbNextI64_of_get {ei : Int} (hit : 0 ≤ it) (hget : c.get s it = .ok x) (hxt : x.t_id = t)
    (hend : c.getEndIteratorByTableId t = .ok ei) :
    dbNextI64 s c it =
      .ok (stepResult c t (upperBound KeyValueObject.rank s.key_values.rows x.rank) ei) := by
  unfold dbNextI64 stepResult
  rw [if_neg (by omega), hget, ok_bind, hxt]
  split
  · rfl
  · rw [hend]
    rfl

/-- `db_previous_i64` from a row of table `t` steps to the last row before it in the index, or to
`-1`. -/
theorem dbPreviousI64_of_get (hit : 0 ≤ it) (hget : c.get s it = .ok x) (hxt : x.t_id = t) :
    dbPreviousI64 s c it =
      .ok (stepResult c t (lastBelow KeyValueObject.rank s.key_values.rows x.rank) (-1)) := by
  unfold dbPreviousI64 stepResult
  rw [if_neg (by omega), hget, ok_bind, hxt]
  split <;> rfl

/-- `db_previous_i64` from the end iterator of a table steps to the last row before the next
table, or to `-1`. -/
theorem dbPreviousI64_of_end {ei : Int} {tab : TableIdObject} (hei : ei < -1)
    (htab : c.findTableByEndIterator s ei = .ok (some tab)) :
    dbPreviousI64 s c ei = .ok (stepResult c tab.id
      (lastBelow KeyValueObject.rank s.key_values.rows ((tab.id + 1) * 2 ^ 64)) (-1)) := by
  unfold dbPreviousI64 stepResult
  rw [if_pos hei, htab, ok_bind]
  simp only [liftDb, ok_bind]
  split <;> rfl

end Steps

/-! ## The loops simulate the walks -/

section Loops

variable {s : DbState}

/-- A forward loop stops at once at an end iterator. -/
theorem nextLoop_of_neg {c : IteratorCache} {it : Int} (h : it < 0) (fuel : Nat) :
    nextLoop s fuel c it = .ok ([], c, it) := by
  cases fuel with
  | zero => rfl
  | succ fuel =>
    simp only [nextLoop, if_pos h]
    rfl

/-- From a row of table `t`, the forward loop reads the rows that the index's forward walk visits
below the next table, and ends at the table's end iterator unless it runs out of fuel. -/
theorem nextLoop_walkUp {t : Nat} {ei : Int} :
    ∀ (fuel : Nat) {c : IteratorCache} {it : Int} {x : KeyValueObject},
      c.getEndIteratorByTableId t = .ok ei → 0 ≤ it → c.get s it = .ok x → x.t_id = t →
      ∃ c' last, nextLoop s fuel c it = .ok (walkUp KeyValueObject.rank s.key_values.rows
          ((t + 1) * 2 ^ 64) fuel (some x), c', last) ∧
        c'.end_iterator_to_table = c.end_iterator_to_table ∧
        (last = ei ∨ (walkUp KeyValueObject.rank s.key_values.rows ((t + 1) * 2 ^ 64) fuel
          (some x)).length = fuel) := by
  intro fuel
  induction fuel with
  | zero =>
    intro c it x _ _ _ _
    exact ⟨c, it, rfl, rfl, .inr rfl⟩
  | succ fuel ih =>
    intro c it x hend hit hget hxt
    have hstart : t * 2 ^ 64 ≤ x.rank := by
      have := (rank_lt_tableEnd_iff (t := x.t_id) (by unfold KeyValueObject.rank rankOf; omega)).2 rfl
      unfold KeyValueObject.rank rankOf at *
      omega
    have hx : x.rank < (t + 1) * 2 ^ 64 := (rank_lt_tableEnd_iff hstart).2 hxt
    have hnext := dbNextI64_of_get hit hget hxt hend
    rw [walkUp_of_lt hx]
    rcases stepResult_cases c t (upperBound KeyValueObject.rank s.key_values.rows x.rank) ei with
      ⟨y, hy, hyt, hstep⟩ | ⟨hnone, hstep⟩
    · -- the next row is of the table: the loop goes on from its iterator
      obtain ⟨hymem, -, -⟩ := upperBound_spec hy
      obtain ⟨hit', hget', htables⟩ := c.add_spec hymem
      have hend' : (c.add y).1.getEndIteratorByTableId t = .ok ei := by
        simpa [IteratorCache.getEndIteratorByTableId, htables] using hend
      obtain ⟨c', last, hloop, htables', hlast⟩ := ih hend' hit' hget' hyt
      rw [hy] at hstep
      refine ⟨c', last, ?_, htables'.trans htables, ?_⟩
      · simp only [nextLoop, if_neg (show ¬ it < 0 by omega), hget, ok_bind, hnext, hy, hstep]
        rw [hloop]
        rfl
      · rw [hy, List.length_cons]
        omega
    · -- past the table: the loop ends at its end iterator
      have hwalk : walkUp KeyValueObject.rank s.key_values.rows ((t + 1) * 2 ^ 64) fuel
          (upperBound KeyValueObject.rank s.key_values.rows x.rank) = [] := by
        rcases hnone with hnone | ⟨y, hy, hyt⟩
        · rw [hnone, walkUp_none]
        · obtain ⟨-, hxy, -⟩ := upperBound_spec hy
          rw [hy, walkUp_of_le]
          exact Nat.not_lt.1 fun hlt => hyt ((rank_lt_tableEnd_iff (by omega)).1 hlt)
      refine ⟨c, ei, ?_, rfl, .inl rfl⟩
      simp only [nextLoop, if_neg (show ¬ it < 0 by omega), hget, ok_bind, hnext, hstep, hwalk]
      rw [nextLoop_of_neg (by have := IteratorCache.getEndIteratorByTableId_lt hend; omega)]
      rfl

/-- From a step to the last row below `b`, at most the first rank of the next table, the backward
loop reads the rows that the index's backward walk visits from table `t` on, and ends at `-1`
unless it runs out of fuel. -/
theorem previousLoop_walkDown {t : Nat} :
    ∀ (fuel : Nat) {c : IteratorCache} {it : Int} {b : Nat}, b ≤ (t + 1) * 2 ^ 64 →
      dbPreviousI64 s c it =
        .ok (stepResult c t (lastBelow KeyValueObject.rank s.key_values.rows b) (-1)) →
      ∃ c' last, previousLoop s fuel c it = .ok (walkDown KeyValueObject.rank s.key_values.rows
          (t * 2 ^ 64) fuel (lastBelow KeyValueObject.rank s.key_values.rows b), c', last) ∧
        (last = -1 ∨ (walkDown KeyValueObject.rank s.key_values.rows (t * 2 ^ 64) fuel
          (lastBelow KeyValueObject.rank s.key_values.rows b)).length = fuel) := by
  intro fuel
  induction fuel with
  | zero =>
    intro c it b _ _
    exact ⟨c, it, rfl, .inr rfl⟩
  | succ fuel ih =>
    intro c it b hb hprev
    rcases stepResult_cases c t (lastBelow KeyValueObject.rank s.key_values.rows b) (-1) with
      ⟨y, hy, hyt, hstep⟩ | ⟨hnone, hstep⟩
    · -- the row before is of the table: the loop reads it and goes on from its iterator
      obtain ⟨hymem, hyb, -⟩ := lastBelow_spec hy
      obtain ⟨hit', hget', -⟩ := c.add_spec hymem
      have hyrank : y.rank < (t + 1) * 2 ^ 64 := by omega
      have hystart : t * 2 ^ 64 ≤ y.rank := (tableStart_le_rank_iff hyrank).2 hyt
      obtain ⟨c', last, hloop, hlast⟩ :=
        ih (Nat.le_of_lt hyrank) (dbPreviousI64_of_get hit' hget' hyt)
      rw [hy] at hstep
      refine ⟨c', last, ?_, ?_⟩
      · simp only [previousLoop, hprev, hy, hstep, ok_bind,
          if_neg (show ¬ (c.add y).2 < 0 by omega), hget', walkDown_of_le hystart]
        rw [hloop]
        rfl
      · rw [hy, walkDown_of_le hystart, List.length_cons]
        omega
    · -- no row before in the table: the loop ends at `-1`
      have hwalk : walkDown KeyValueObject.rank s.key_values.rows (t * 2 ^ 64) (fuel + 1)
          (lastBelow KeyValueObject.rank s.key_values.rows b) = [] := by
        rcases hnone with hnone | ⟨y, hy, hyt⟩
        · rw [hnone, walkDown_none]
        · obtain ⟨-, hyb, -⟩ := lastBelow_spec hy
          rw [hy, walkDown_of_lt]
          exact Nat.not_le.1 fun hle => hyt ((tableStart_le_rank_iff (by omega)).1 hle)
      refine ⟨c, -1, ?_, .inl rfl⟩
      simp only [previousLoop, hprev, hstep, ok_bind, hwalk]
      rfl

end Loops

/-! ## Iterating over a table -/

section Table

variable {s : DbState} {c : IteratorCache} {tab : TableIdObject}

/-- The stretch of the index from `lo` to the next table, for a `lo` in table `t`: the rows of
`t` from the primary key `lo - t 2^64` on, in ascending order of primary key. -/
theorem stretch_spec {t lo : Nat} (hlo : t * 2 ^ 64 ≤ lo) :
    (∀ o, o ∈ (sorted KeyValueObject.rank s.key_values.rows).filter
        (fun r => lo ≤ r.rank ∧ r.rank < (t + 1) * 2 ^ 64) ↔
      o ∈ s.key_values.rows ∧ o.t_id = t ∧ lo - t * 2 ^ 64 ≤ o.primary_key.toNat) ∧
    ((sorted KeyValueObject.rank s.key_values.rows).filter
        (fun r => lo ≤ r.rank ∧ r.rank < (t + 1) * 2 ^ 64)).Pairwise
      (fun a b => a.primary_key < b.primary_key) := by
  -- a rank in the stretch is a row of `t` at or past the primary key
  have hrange : ∀ o : KeyValueObject, lo ≤ o.rank ∧ o.rank < (t + 1) * 2 ^ 64 ↔
      o.t_id = t ∧ lo - t * 2 ^ 64 ≤ o.primary_key.toNat := fun o => by
    have := o.primary_key.toNat_lt
    unfold KeyValueObject.rank rankOf
    omega
  refine ⟨fun o => ?_, ?_⟩
  · simp only [List.mem_filter, mem_sorted, decide_eq_true_eq, hrange]
  · refine ((sorted_lt (rows_rank_ne s)).filter _).imp_of_mem fun ha hb hab => ?_
    simp only [List.mem_filter, decide_eq_true_eq, hrange] at ha hb
    rw [UInt64.lt_iff_toNat_lt]
    unfold KeyValueObject.rank rankOf at hab
    rw [ha.2.1, hb.2.1] at hab
    omega

/-- The stretch of the index has no more rows than the table of rows. -/
theorem length_stretch_lt (p : KeyValueObject → Bool) :
    ((sorted KeyValueObject.rank s.key_values.rows).filter p).length <
      s.key_values.rows.length + 1 := by
  calc ((sorted KeyValueObject.rank s.key_values.rows).filter p).length
      ≤ (sorted KeyValueObject.rank s.key_values.rows).length := List.length_filter_le _ _
    _ = s.key_values.rows.length := List.length_mergeSort _
    _ < s.key_values.rows.length + 1 := Nat.lt_succ_self _

/-- The end iterator and the table of a cache are those of every cache with its tables. -/
theorem getEndIteratorByTableId_congr {c' : IteratorCache}
    (h : c'.end_iterator_to_table = c.end_iterator_to_table) (i : Nat) :
    c'.getEndIteratorByTableId i = c.getEndIteratorByTableId i := by
  simp only [IteratorCache.getEndIteratorByTableId, h]

/-- From a lower bound `lo` in table `tab`, whose end iterator `ei` is handed out, the forward loop
reads the stretch of the index from `lo` to the next table and ends at the end iterator. -/
theorem nextLoop_of_lowerBound {ei : Int} (htab : tab ∈ s.tables.rows)
    (hend : c.getEndIteratorByTableId tab.id = .ok ei) {lo : Nat} (hlo : tab.id * 2 ^ 64 ≤ lo) :
    ∃ c' last, nextLoop s (s.key_values.rows.length + 1)
        (stepResult c tab.id (lowerBound KeyValueObject.rank s.key_values.rows lo) ei).1
        (stepResult c tab.id (lowerBound KeyValueObject.rank s.key_values.rows lo) ei).2.1 =
      .ok ((sorted KeyValueObject.rank s.key_values.rows).filter
          (fun r => lo ≤ r.rank ∧ r.rank < (tab.id + 1) * 2 ^ 64), c', last) ∧
      c'.findTableByEndIterator s last = .ok (some tab) := by
  have hwalk := walkUp_lowerBound (rows_rank_ne s) ((tab.id + 1) * 2 ^ 64)
    (s.key_values.rows.length + 1) lo (Nat.le_of_lt (length_stretch_lt _))
  have hlen := length_stretch_lt (s := s)
    (fun r => decide (lo ≤ r.rank ∧ r.rank < (tab.id + 1) * 2 ^ 64))
  rcases stepResult_cases c tab.id (lowerBound KeyValueObject.rank s.key_values.rows lo) ei with
    ⟨x, hx, hxt, hstep⟩ | ⟨hnone, hstep⟩
  · -- the bound is a row of the table: the loop walks from it
    obtain ⟨hxmem, -, -⟩ := lowerBound_spec hx
    obtain ⟨hit, hget, htables⟩ := c.add_spec hxmem
    obtain ⟨c', last, hloop, htables', hlast⟩ := nextLoop_walkUp (s.key_values.rows.length + 1)
      ((getEndIteratorByTableId_congr htables _).trans hend) hit hget hxt
    rw [← hx, hwalk] at hloop hlast
    rw [hstep]
    refine ⟨c', last, hloop, ?_⟩
    -- the stretch is shorter than the fuel, so the loop ended at the end iterator
    rcases hlast with rfl | hlast
    · have htables'' := htables'.trans htables
      exact IteratorCache.findTableByEndIterator_of_getEnd htab
        ((getEndIteratorByTableId_congr htables'' _).trans hend)
    · omega
  · -- no row of the table from `lo` on: the loop ends at once at the end iterator
    have hempty : walkUp KeyValueObject.rank s.key_values.rows ((tab.id + 1) * 2 ^ 64)
        (s.key_values.rows.length + 1) (lowerBound KeyValueObject.rank s.key_values.rows lo) =
          [] := by
      rcases hnone with hnone | ⟨y, hy, hyt⟩
      · rw [hnone, walkUp_none]
      · obtain ⟨-, hly, -⟩ := lowerBound_spec hy
        rw [hy, walkUp_of_le]
        exact Nat.not_lt.1 fun hlt => hyt ((rank_lt_tableEnd_iff (by omega)).1 hlt)
    rw [hstep, ← hwalk, hempty]
    dsimp only
    exact ⟨c, ei, nextLoop_of_neg (by have := IteratorCache.getEndIteratorByTableId_lt hend; omega) _,
      IteratorCache.findTableByEndIterator_of_getEnd htab hend⟩

/-- From the end iterator of table `tab`, the backward loop reads the table's rows in the reverse
order of the index and ends at `-1`. -/
theorem previousLoop_of_end {ei : Int} (hei : ei < -1)
    (hend : c.findTableByEndIterator s ei = .ok (some tab)) :
    ∃ c', previousLoop s (s.key_values.rows.length + 1) c ei =
      .ok (((sorted KeyValueObject.rank s.key_values.rows).filter
          (fun r => tab.id * 2 ^ 64 ≤ r.rank ∧ r.rank < (tab.id + 1) * 2 ^ 64)).reverse, c', -1) := by
  have hwalk := walkDown_lastBelow (rows_rank_ne s) (tab.id * 2 ^ 64)
    (s.key_values.rows.length + 1) ((tab.id + 1) * 2 ^ 64) (Nat.le_of_lt (length_stretch_lt _))
  have hlen := length_stretch_lt (s := s)
    (fun r => decide (tab.id * 2 ^ 64 ≤ r.rank ∧ r.rank < (tab.id + 1) * 2 ^ 64))
  obtain ⟨c', last, hloop, hlast⟩ := previousLoop_walkDown (s.key_values.rows.length + 1)
    (Nat.le_refl _) (dbPreviousI64_of_end hei hend)
  rw [hwalk] at hloop hlast
  -- the table is shorter than the fuel, so the loop ended at `-1`
  rcases hlast with rfl | hlast
  · exact ⟨c', hloop⟩
  · rw [List.length_reverse] at hlast
    omega

/-- `db_lowerbound_i64` of a table caches it and hands out the lower bound of the key when it is a
row of the table, else the table's end iterator. -/
theorem dbLowerboundI64_of_findTable {code scope table : Name}
    (htab : findTable s code scope table = some tab) (id : UInt64) :
    dbLowerboundI64 s c code scope table id =
      ((stepResult (c.cacheTable tab).1 tab.id
          (lowerBound KeyValueObject.rank s.key_values.rows (rankOf tab.id id))
          (c.cacheTable tab).2).1,
        (stepResult (c.cacheTable tab).1 tab.id
          (lowerBound KeyValueObject.rank s.key_values.rows (rankOf tab.id id))
          (c.cacheTable tab).2).2.1) := by
  unfold dbLowerboundI64 stepResult
  rw [htab]
  dsimp only
  cases c.cacheTable tab
  dsimp only
  split <;> rfl

/-- `db_upperbound_i64` of a table caches it and hands out the upper bound of the key when it is a
row of the table, else the table's end iterator. -/
theorem dbUpperboundI64_of_findTable {code scope table : Name}
    (htab : findTable s code scope table = some tab) (id : UInt64) :
    dbUpperboundI64 s c code scope table id =
      ((stepResult (c.cacheTable tab).1 tab.id
          (lowerBound KeyValueObject.rank s.key_values.rows (rankOf tab.id id + 1))
          (c.cacheTable tab).2).1,
        (stepResult (c.cacheTable tab).1 tab.id
          (lowerBound KeyValueObject.rank s.key_values.rows (rankOf tab.id id + 1))
          (c.cacheTable tab).2).2.1) := by
  unfold dbUpperboundI64 stepResult
  rw [htab, ← upperBound_eq]
  dsimp only
  cases c.cacheTable tab
  dsimp only
  split <;> rfl

end Table

/-- From `lowerbound` (or `upperbound`) of a key, whatever the cache has handed out before in the
action, iterating the primary index of a table lists the rows of the table from the key on (past
it) in increasing order, and ends at the end iterator of the table. -/
theorem primary_index_iteration (s : DbState) (c : IteratorCache) (code scope table : Name) (tab : TableIdObject)
    (htab : findTable s code scope table = some tab) (k : UInt64) :
    (∃ rows c' last, nextLoop s (s.key_values.rows.length + 1)
          (dbLowerboundI64 s c code scope table k).1 (dbLowerboundI64 s c code scope table k).2 =
        .ok (rows, c', last) ∧
      (∀ o, o ∈ rows ↔ o ∈ s.key_values.rows ∧ o.t_id = tab.id ∧ k ≤ o.primary_key) ∧
      rows.Pairwise (fun a b => a.primary_key < b.primary_key) ∧
      c'.findTableByEndIterator s last = .ok (some tab)) ∧
    (∃ rows c' last, nextLoop s (s.key_values.rows.length + 1)
          (dbUpperboundI64 s c code scope table k).1 (dbUpperboundI64 s c code scope table k).2 =
        .ok (rows, c', last) ∧
      (∀ o, o ∈ rows ↔ o ∈ s.key_values.rows ∧ o.t_id = tab.id ∧ k < o.primary_key) ∧
      rows.Pairwise (fun a b => a.primary_key < b.primary_key) ∧
      c'.findTableByEndIterator s last = .ok (some tab)) ∧
    (∃ rows c', previousLoop s (s.key_values.rows.length + 1)
          (dbEndI64 s c code scope table).1 (dbEndI64 s c code scope table).2 =
        .ok (rows, c', -1) ∧
      (∀ o, o ∈ rows ↔ o ∈ s.key_values.rows ∧ o.t_id = tab.id) ∧
      rows.Pairwise (fun a b => b.primary_key < a.primary_key)) := by
  have hmem : tab ∈ s.tables.rows := (IndexedTable.mem_of_lookup htab).1
  -- the table is cached first, and its end iterator handed out
  obtain ⟨-, hend⟩ := IteratorCache.cacheTable_spec c tab
  have htab_id : ∀ k : UInt64, tab.id * 2 ^ 64 ≤ rankOf tab.id k := fun _ => by
    unfold rankOf
    omega
  refine ⟨?_, ?_, ?_⟩
  · -- from the lower bound: the rows from `k` on
    obtain ⟨c', last, hloop, hlast⟩ := nextLoop_of_lowerBound hmem hend (htab_id k)
    obtain ⟨hrows, hsorted⟩ := stretch_spec (s := s) (htab_id k)
    have hfrom : rankOf tab.id k - tab.id * 2 ^ 64 = k.toNat := by
      unfold rankOf
      omega
    rw [dbLowerboundI64_of_findTable htab]
    refine ⟨_, c', last, hloop, fun o => ?_, hsorted, hlast⟩
    rw [hrows, hfrom, UInt64.le_iff_toNat_le]
  · -- from the upper bound: the rows after `k`
    have hafter : tab.id * 2 ^ 64 ≤ rankOf tab.id k + 1 := Nat.le_succ_of_le (htab_id k)
    have hfrom : rankOf tab.id k + 1 - tab.id * 2 ^ 64 = k.toNat + 1 := by
      unfold rankOf
      omega
    obtain ⟨c', last, hloop, hlast⟩ := nextLoop_of_lowerBound hmem hend hafter
    obtain ⟨hrows, hsorted⟩ := stretch_spec (s := s) hafter
    rw [dbUpperboundI64_of_findTable htab]
    refine ⟨_, c', last, hloop, fun o => ?_, hsorted, hlast⟩
    rw [hrows, hfrom, UInt64.lt_iff_toNat_lt, Nat.lt_iff_add_one_le]
  · -- from the end iterator, backward: all the rows, descending
    have hei := IteratorCache.getEndIteratorByTableId_lt hend
    obtain ⟨c', hloop⟩ := previousLoop_of_end (s := s) hei
      (IteratorCache.findTableByEndIterator_of_getEnd hmem hend)
    obtain ⟨hrows, hsorted⟩ := stretch_spec (s := s) (Nat.le_refl (tab.id * 2 ^ 64))
    have hend_eq : dbEndI64 s c code scope table = c.cacheTable tab := by
      unfold dbEndI64
      rw [htab]
    rw [hend_eq]
    refine ⟨_, c', hloop, fun o => ?_, List.pairwise_reverse.2 hsorted⟩
    rw [List.mem_reverse, hrows]
    simp

/-- Two tables of one contract and scope: the primary keys `5` and `3` in the first and `4` in the
second. -/
def twoTables : DbState where
  tables := ⟨[⟨0, ⟨1⟩, ⟨1⟩, ⟨1⟩, ⟨1⟩, 2⟩, ⟨1, ⟨1⟩, ⟨1⟩, ⟨2⟩, ⟨1⟩, 1⟩], by decide⟩
  next_table_id := 2
  key_values := ⟨[⟨0, 5, ⟨1⟩, []⟩, ⟨1, 4, ⟨1⟩, []⟩, ⟨0, 3, ⟨1⟩, []⟩], by decide⟩
  secondaries := fun _ => .empty
  ram := fun _ => 0

/-- On two tables, iterating the first from `lowerbound` of 4 lists its rows from 4 on and ends at
its end iterator. -/
theorem first_table_from_four :
    ∃ rows c' last, nextLoop twoTables (twoTables.key_values.rows.length + 1)
          (dbLowerboundI64 twoTables {} ⟨1⟩ ⟨1⟩ ⟨1⟩ 4).1
          (dbLowerboundI64 twoTables {} ⟨1⟩ ⟨1⟩ ⟨1⟩ 4).2 =
        .ok (rows, c', last) ∧
      (∀ o, o ∈ rows ↔ o ∈ twoTables.key_values.rows ∧ o.t_id = 0 ∧ 4 ≤ o.primary_key) ∧
      rows.Pairwise (fun a b => a.primary_key < b.primary_key) ∧
      c'.findTableByEndIterator twoTables last = .ok (some ⟨0, ⟨1⟩, ⟨1⟩, ⟨1⟩, ⟨1⟩, 2⟩) :=
  (primary_index_iteration twoTables {} ⟨1⟩ ⟨1⟩ ⟨1⟩
    ⟨0, ⟨1⟩, ⟨1⟩, ⟨1⟩, ⟨1⟩, 2⟩ rfl 4).1

end InfraBlockchain.Contract
