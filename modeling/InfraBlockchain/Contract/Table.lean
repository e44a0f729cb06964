import Mathlib
import InfraBlockchain.Lib.Machine
import InfraBlockchain.Lib.IndexedTable
import InfraBlockchain.Token.Ram

/-!
# Contract tables and the RAM that their rows take

A contract's rows live in tables named by `code`, `scope` and `table` (`table_id_object`). A row
is a `key_value_object` of the primary index or an object of one of the five secondary indices,
each of which points to its table by the table's id (`t_id`); the table counts its rows in a 32-bit
`count`. `db_store_i64` and `generic_index::store` create the table with its first row
(`find_or_create_table`) and increment the count; `db_remove_i64` and `generic_index::remove`
decrement it and remove the table with its last row (`remove_table`); the updates change a row's
value or secondary key and its payer. Each of them charges or refunds RAM through
`update_db_usage`: the row's value size and the billable size of its type to its payer, and the
billable size of a `table_id_object` to the payer of the table.

Two things hold over every run of actions, each committed or rolled back. What `update_db_usage`
has charged each account is what the rows and tables that it pays for bill (`billed`), whatever the
payer changes (`RamInv`). And as long as the count cannot wrap, each table counts its rows and is
there exactly when it has one (`TableInv`): the run's stores must stay below `2^32`, for the count
is a `uint32_t` and wraps at the `2^32`-th row of a table (`rowsIn`).

Iterators are modelled by what they point to: a call on a row names the table by `code`, `scope`
and `table` and the row by its primary key, as `db_find_i64` and `find_primary` would; the
iterator is invalid without the table and an end iterator without the row. The secondary keys are
kept as their bits. The read-only calls and the iterator cache are not modelled.
-/

namespace InfraBlockchain.Contract

open IndexedTable
open Token (ApplyContext requireAuthorization addRamUsage)

/-! ## Billable sizes -/

/-- `config::overhead_per_row_per_index_ram_bytes`. -/
def overheadPerRowPerIndexRamBytes : Nat := 32

/-- `config::billable_alignment`. -/
def billableAlignment : Nat := 16

/-- `config::billable_size_v`: a size rounded up to the alignment. -/
def billableSizeV (value : Nat) : Int :=
  ((value + billableAlignment - 1) / billableAlignment * billableAlignment : Nat)

/-- `billable_size_v<table_id_object>`: 44 bytes and two index overheads. -/
def billableSizeTableIdObject : Int := billableSizeV (44 + overheadPerRowPerIndexRamBytes * 2)

/-- `billable_size_v<key_value_object>`: 44 bytes and two index overheads. -/
def billableSizeKeyValueObject : Int :=
  billableSizeV (32 + 8 + 4 + overheadPerRowPerIndexRamBytes * 2)

/-! ## Objects -/

/-- `table_id_object`. -/
structure TableIdObject where
  /-- The object's id, which the rows point to. -/
  id : Nat
  /-- `code`. -/
  code : Name
  /-- `scope`. -/
  scope : Name
  /-- `table`. -/
  table : Name
  /-- `payer`. -/
  payer : Name
  /-- `count`: the number of rows in the table. -/
  count : UInt32

/-- The key of the `by_code_scope_table` index. -/
def TableIdObject.key (t : TableIdObject) : Name × Name × Name := (t.code, t.scope, t.table)

/-- Two tables clash in the id index or in `by_code_scope_table`. -/
def TableIdObject.clash (a b : TableIdObject) : Prop := a.id = b.id ∨ a.key = b.key

instance : DecidableRel TableIdObject.clash := fun a b =>
  inferInstanceAs (Decidable (a.id = b.id ∨ a.key = b.key))

/-- `key_value_object`. -/
structure KeyValueObject where
  /-- `t_id`: the id of the table. -/
  t_id : Nat
  /-- `primary_key`. -/
  primary_key : UInt64
  /-- `payer`. -/
  payer : Name
  /-- `value`. -/
  value : List UInt8

/-- The key of the `by_scope_primary` index. -/
def KeyValueObject.key (o : KeyValueObject) : Nat × UInt64 := (o.t_id, o.primary_key)

/-- Two rows clash in `by_scope_primary`. -/
def KeyValueObject.clash (a b : KeyValueObject) : Prop := a.key = b.key

instance : DecidableRel KeyValueObject.clash := fun a b =>
  inferInstanceAs (Decidable (a.key = b.key))

/-- The five secondary indices. -/
inductive SecondaryKind where
  | index64
  | index128
  | index256
  | index_double
  | index_long_double
  deriving DecidableEq, Repr

/-- The secondary key of each index, as its bits: `uint64_t`, `uint128_t`, `key256_t`,
`float64_t` and `float128_t`. -/
def SecondaryKind.Key : SecondaryKind → Type
  | .index64 => UInt64
  | .index128 => BitVec 128
  | .index256 => BitVec 256
  | .index_double => UInt64
  | .index_long_double => BitVec 128

/-- `billable_size_v` of each index's object: 24 bytes, the key, and three index overheads. -/
def SecondaryKind.billableSize : SecondaryKind → Int
  | .index64 => billableSizeV (24 + 8 + overheadPerRowPerIndexRamBytes * 3)
  | .index128 => billableSizeV (24 + 16 + overheadPerRowPerIndexRamBytes * 3)
  | .index256 => billableSizeV (24 + 32 + overheadPerRowPerIndexRamBytes * 3)
  | .index_double => billableSizeV (24 + 8 + overheadPerRowPerIndexRamBytes * 3)
  | .index_long_double => billableSizeV (24 + 16 + overheadPerRowPerIndexRamBytes * 3)

/-- The indices, in the order of `contract_table_objects.hpp`. -/
def SecondaryKind.all : List SecondaryKind :=
  [.index64, .index128, .index256, .index_double, .index_long_double]

/-- An object of a secondary index. -/
structure SecondaryObject (k : SecondaryKind) where
  /-- `t_id`: the id of the table. -/
  t_id : Nat
  /-- `primary_key`. -/
  primary_key : UInt64
  /-- `payer`. -/
  payer : Name
  /-- `secondary_key`. -/
  secondary_key : k.Key

/-- The key of the `by_primary` index. -/
def SecondaryObject.key {k : SecondaryKind} (o : SecondaryObject k) : Nat × UInt64 :=
  (o.t_id, o.primary_key)

/-- Two objects clash in `by_primary`; `by_secondary` adds the primary key to the secondary one,
so it never clashes where `by_primary` does not. -/
def SecondaryObject.clash {k : SecondaryKind} (a b : SecondaryObject k) : Prop := a.key = b.key

instance {k : SecondaryKind} : DecidableRel (@SecondaryObject.clash k) := fun a b =>
  inferInstanceAs (Decidable (a.key = b.key))

/-- The contract tables, the id that the next table gets, and the RAM charged to each account. -/
structure DbState where
  /-- The `table_id_object`s. -/
  tables : IndexedTable TableIdObject TableIdObject.clash
  /-- The id of the next table. -/
  next_table_id : Nat
  /-- The `key_value_object`s. -/
  key_values : IndexedTable KeyValueObject KeyValueObject.clash
  /-- The objects of each secondary index. -/
  secondaries : (k : SecondaryKind) → IndexedTable (SecondaryObject k) SecondaryObject.clash
  /-- The RAM charged to each account. -/
  ram : Name → Int

/-- No table and no charge. -/
def DbState.empty : DbState := ⟨.empty, 0, .empty, fun _ => .empty, fun _ => 0⟩

/-- What `update_db_usage` reads of the `apply_context` besides the action. -/
structure DbContext extends ApplyContext where
  /-- `privileged`. -/
  privileged : Bool
  /-- `is_builtin_activated( builtin_protocol_feature_t::ram_restrictions )`. -/
  ram_restrictions : Bool
  /-- `is_ram_billing_in_notify_allowed()`. -/
  ram_billing_in_notify_allowed : Bool

/-! ## The functions of `apply_context` -/

/-- `apply_context::update_db_usage`: a charge to another account than the receiver needs its
authorization, unless the receiver is privileged or `ram_restrictions` is active. -/
def updateDbUsage (ctx : DbContext) (s : DbState) (payer : Name) (delta : Int) :
    Except Exception DbState := do
  (if delta > 0 then
    (if !(ctx.privileged || payer == ctx.receiver || ctx.ram_restrictions) then do
      eosAssert (ctx.ram_billing_in_notify_allowed || ctx.receiver == ctx.act_account)
        .subjective_block_production_exception "Cannot charge RAM to other accounts during notify."
      requireAuthorization ctx.toApplyContext payer
    else pure ())
  else pure ())
  pure { s with ram := addRamUsage s.ram payer delta }

/-- `apply_context::find_table`. -/
def findTable (s : DbState) (code scope table : Name) : Option TableIdObject :=
  s.tables.lookup TableIdObject.key (code, scope, table)

/-- `apply_context::find_or_create_table`: a new table is charged to the payer. -/
def findOrCreateTable (ctx : DbContext) (s : DbState) (code scope table payer : Name) :
    Except Exception (DbState × TableIdObject) :=
  match findTable s code scope table with
  | some existing_tid => pure (s, existing_tid)
  | none => do
    let s ← updateDbUsage ctx s payer billableSizeTableIdObject
    let t_id : TableIdObject := ⟨s.next_table_id, code, scope, table, payer, 0⟩
    let tables ← liftDb .unique_index_violation "could not insert object" (s.tables.create t_id)
    pure ({ s with tables, next_table_id := s.next_table_id + 1 }, t_id)

/-- `apply_context::remove_table`: the table's payer is refunded. -/
def removeTable (ctx : DbContext) (s : DbState) (tid : TableIdObject) : Except Exception DbState := do
  let s ← updateDbUsage ctx s tid.payer (-billableSizeTableIdObject)
  pure { s with tables := s.tables.remove (·.id == tid.id) }

/-- The `db.modify` of a table's count. -/
def modifyCount (tables : IndexedTable TableIdObject TableIdObject.clash) (tid : TableIdObject)
    (f : UInt32 → UInt32) : Except Exception (IndexedTable TableIdObject TableIdObject.clash) :=
  liftDb .unique_index_violation "could not modify object"
    (tables.modify (·.id == tid.id) fun t => { t with count := f t.count })

/-- The row that an iterator points to, with its table (`iterator_cache::get` and `get_table`):
the iterator is invalid without the table and the end iterator without the row. -/
def findRow {α : Type} {clash : α → α → Prop} (s : DbState) (index : IndexedTable α clash)
    (key : α → Nat × UInt64) (code scope table : Name) (id : UInt64) :
    Except Exception (TableIdObject × α) := do
  let tab ← match findTable s code scope table with
    | some tab => pure tab
    | none => throw ⟨.invalid_table_iterator, "invalid iterator"⟩
  match index.lookup key (tab.id, id) with
  | some obj => pure (tab, obj)
  | none => throw ⟨.table_operation_not_permitted, "dereference of end iterator"⟩

/-- `db_find_i64` and the dereference of its iterator. -/
def dbFindI64 (s : DbState) (code scope table : Name) (id : UInt64) :
    Except Exception (TableIdObject × KeyValueObject) :=
  findRow s s.key_values KeyValueObject.key code scope table id

/-- `apply_context::db_store_i64`. -/
def dbStoreI64 (ctx : DbContext) (s : DbState) (code scope table payer : Name) (id : UInt64)
    (buffer : List UInt8) : Except Exception DbState := do
  let (s, tab) ← findOrCreateTable ctx s code scope table payer
  eosAssert (payer != ⟨0⟩) .invalid_table_payer "must specify a valid account to pay for new record"
  let key_values ← liftDb .unique_index_violation "could not insert object"
    (s.key_values.create ⟨tab.id, id, payer, buffer⟩)
  let tables ← modifyCount s.tables tab (· + 1)
  let billable_size : Int := buffer.length + billableSizeKeyValueObject
  updateDbUsage ctx { s with key_values, tables } payer billable_size

/-- `apply_context::db_update_i64`: a new payer is charged the new size and the old one refunded
the old size; the same payer is charged the difference. -/
def dbUpdateI64 (ctx : DbContext) (s : DbState) (code scope table : Name) (id : UInt64)
    (payer : Name) (buffer : List UInt8) : Except Exception DbState := do
  let (table_obj, obj) ← dbFindI64 s code scope table id
  eosAssert (table_obj.code == ctx.receiver) .table_access_violation "db access violation"
  let overhead := billableSizeKeyValueObject
  let old_size : Int := obj.value.length + overhead
  let new_size : Int := buffer.length + overhead
  let payer := if payer == ⟨0⟩ then obj.payer else payer
  let s ← (if obj.payer != payer then do
      let s ← updateDbUsage ctx s obj.payer (-old_size)
      updateDbUsage ctx s payer new_size
    else if old_size != new_size then updateDbUsage ctx s obj.payer (new_size - old_size)
    else pure s)
  let key_values ← liftDb .unique_index_violation "could not modify object"
    (s.key_values.modify (·.key == obj.key) fun o => { o with value := buffer, payer })
  pure { s with key_values }

/-- `apply_context::db_remove_i64`: the table goes with its last row. -/
def dbRemoveI64 (ctx : DbContext) (s : DbState) (code scope table : Name) (id : UInt64) :
    Except Exception DbState := do
  let (table_obj, obj) ← dbFindI64 s code scope table id
  eosAssert (table_obj.code == ctx.receiver) .table_access_violation "db access violation"
  let s ← updateDbUsage ctx s obj.payer (-(obj.value.length + billableSizeKeyValueObject))
  let tables ← modifyCount s.tables table_obj (· - 1)
  let s := { s with tables, key_values := s.key_values.remove (·.key == obj.key) }
  if table_obj.count - 1 == 0 then removeTable ctx s table_obj else pure s

namespace GenericIndex

/-- `generic_index::find_primary` and the dereference of its iterator. -/
def findPrimary (s : DbState) (k : SecondaryKind) (code scope table : Name) (id : UInt64) :
    Except Exception (TableIdObject × SecondaryObject k) :=
  findRow s (s.secondaries k) SecondaryObject.key code scope table id

/-- The state with the objects of index `k` replaced. -/
def setIndex (s : DbState) (k : SecondaryKind)
    (index : IndexedTable (SecondaryObject k) SecondaryObject.clash) : DbState :=
  { s with secondaries := Function.update s.secondaries k index }

/-- `generic_index::store`. -/
def store (ctx : DbContext) (s : DbState) (k : SecondaryKind) (scope table payer : Name)
    (id : UInt64) (secondary : k.Key) : Except Exception DbState := do
  eosAssert (payer != ⟨0⟩) .invalid_table_payer "must specify a valid account to pay for new record"
  let (s, tab) ← findOrCreateTable ctx s ctx.receiver scope table payer
  let index ← liftDb .unique_index_violation "could not insert object"
    ((s.secondaries k).create ⟨tab.id, id, payer, secondary⟩)
  let tables ← modifyCount s.tables tab (· + 1)
  updateDbUsage ctx { setIndex s k index with tables } payer k.billableSize

/-- `generic_index::remove`: the table goes with its last row. -/
def remove (ctx : DbContext) (s : DbState) (k : SecondaryKind) (code scope table : Name)
    (id : UInt64) : Except Exception DbState := do
  let (table_obj, obj) ← findPrimary s k code scope table id
  let s ← updateDbUsage ctx s obj.payer (-k.billableSize)
  eosAssert (table_obj.code == ctx.receiver) .table_access_violation "db access violation"
  let tables ← modifyCount s.tables table_obj (· - 1)
  let s := { setIndex s k ((s.secondaries k).remove (·.key == obj.key)) with tables }
  if table_obj.count - 1 == 0 then removeTable ctx s table_obj else pure s

/-- `generic_index::update`: a new payer is charged the object's size and the old one refunded. -/
def update (ctx : DbContext) (s : DbState) (k : SecondaryKind) (code scope table : Name)
    (id : UInt64) (payer : Name) (secondary : k.Key) : Except Exception DbState := do
  let (table_obj, obj) ← findPrimary s k code scope table id
  eosAssert (table_obj.code == ctx.receiver) .table_access_violation "db access violation"
  let payer := if payer == ⟨0⟩ then obj.payer else payer
  let billing_size := k.billableSize
  let s ← (if obj.payer != payer then do
      let s ← updateDbUsage ctx s obj.payer (-billing_size)
      updateDbUsage ctx s payer billing_size
    else pure s)
  let index ← liftDb .unique_index_violation "could not modify object"
    ((s.secondaries k).modify (·.key == obj.key) fun o => { o with secondary_key := secondary, payer })
  pure (setIndex s k index)

end GenericIndex

/-! ## Actions -/

/-- A call of a contract on its tables. -/
inductive DbCall where
  | db_store_i64 (scope table payer : Name) (id : UInt64) (buffer : List UInt8)
  | db_update_i64 (code scope table : Name) (id : UInt64) (payer : Name) (buffer : List UInt8)
  | db_remove_i64 (code scope table : Name) (id : UInt64)
  | idx_store (k : SecondaryKind) (scope table payer : Name) (id : UInt64) (secondary : k.Key)
  | idx_update (k : SecondaryKind) (code scope table : Name) (id : UInt64) (payer : Name)
      (secondary : k.Key)
  | idx_remove (k : SecondaryKind) (code scope table : Name) (id : UInt64)

/-- One call; the stores write to the receiver's tables. -/
def dbCall (ctx : DbContext) (s : DbState) : DbCall → Except Exception DbState
  | .db_store_i64 scope table payer id buffer =>
    dbStoreI64 ctx s ctx.receiver scope table payer id buffer
  | .db_update_i64 code scope table id payer buffer => dbUpdateI64 ctx s code scope table id payer buffer
  | .db_remove_i64 code scope table id => dbRemoveI64 ctx s code scope table id
  | .idx_store k scope table payer id secondary => GenericIndex.store ctx s k scope table payer id secondary
  | .idx_update k code scope table id payer secondary =>
    GenericIndex.update ctx s k code scope table id payer secondary
  | .idx_remove k code scope table id => GenericIndex.remove ctx s k code scope table id

/-- An action: its context and the calls that it makes on the tables. -/
structure DbAction where
  /-- The context of the action. -/
  ctx : DbContext
  /-- The calls, in order. -/
  calls : List DbCall

/-- An action, whose calls all succeed or whose failure rolls it back. -/
def dbStep (s : DbState) (a : DbAction) : Except Exception DbState :=
  a.calls.foldlM (dbCall a.ctx) s

/-! ## What each function does -/

/-- `update_db_usage` changes the RAM of the payer and nothing else. -/
theorem updateDbUsage_ok {ctx : DbContext} {s s' : DbState} {payer : Name} {delta : Int}
    (h : updateDbUsage ctx s payer delta = .ok s') :
    s' = { s with ram := addRamUsage s.ram payer delta } := by
  unfold updateDbUsage at h
  rw [bind_eq_ok] at h
  obtain ⟨-, -, h⟩ := h
  exact (Except.ok.inj h).symm

/-- Equal ids clash in the table index. -/
theorem TableIdObject.clash_of_id {a b : TableIdObject} (h : a.id = b.id) : TableIdObject.clash a b :=
  Or.inl h

/-- Equal keys clash in the table index. -/
theorem TableIdObject.clash_of_key {a b : TableIdObject} (h : a.key = b.key) :
    TableIdObject.clash a b :=
  Or.inr h

/-- Equal keys clash in the primary index. -/
theorem KeyValueObject.clash_of_key {a b : KeyValueObject} (h : a.key = b.key) :
    KeyValueObject.clash a b :=
  h

/-- Equal keys clash in a secondary index. -/
theorem SecondaryObject.clash_of_key {k : SecondaryKind} {a b : SecondaryObject k}
    (h : a.key = b.key) : SecondaryObject.clash a b :=
  h

/-- `find_or_create_table` finds the table, or creates it with the next id, no rows counted, and
charges its payer. -/
theorem findOrCreateTable_ok {ctx : DbContext} {s s' : DbState} {code scope table payer : Name}
    {tab : TableIdObject} (h : findOrCreateTable ctx s code scope table payer = .ok (s', tab)) :
    s'.key_values = s.key_values ∧ s'.secondaries = s.secondaries ∧
      (findTable s code scope table = some tab ∧ s' = s ∨
        findTable s code scope table = none ∧ tab = ⟨s.next_table_id, code, scope, table, payer, 0⟩ ∧
          s.tables.create tab = some s'.tables ∧ s'.next_table_id = s.next_table_id + 1 ∧
          s'.ram = addRamUsage s.ram payer billableSizeTableIdObject) := by
  unfold findOrCreateTable at h
  rcases hfind : findTable s code scope table with _ | t
  · -- no table: it is created
    rw [hfind] at h
    simp only [bind_eq_ok, liftDb_eq_ok] at h
    obtain ⟨s₁, hs₁, tables, htables, hres⟩ := h
    have hs₁' := updateDbUsage_ok hs₁
    subst hs₁'
    simp only [pure, Except.pure, Except.ok.injEq, Prod.mk.injEq] at hres
    obtain ⟨rfl, rfl⟩ := hres
    exact ⟨rfl, rfl, Or.inr ⟨rfl, rfl, htables, rfl, rfl⟩⟩
  · rw [hfind] at h
    simp only [pure, Except.pure, Except.ok.injEq, Prod.mk.injEq] at h
    obtain ⟨rfl, rfl⟩ := h
    exact ⟨rfl, rfl, Or.inl ⟨rfl, rfl⟩⟩

/-- The row that an iterator points to is in its table, which the lookup finds. -/
theorem findRow_ok {α : Type} {clash : α → α → Prop} {s : DbState} {index : IndexedTable α clash}
    {key : α → Nat × UInt64} {code scope table : Name} {id : UInt64} {tab : TableIdObject} {obj : α}
    (h : findRow s index key code scope table id = .ok (tab, obj)) :
    findTable s code scope table = some tab ∧ index.lookup key (tab.id, id) = some obj := by
  unfold findRow at h
  rcases hfind : findTable s code scope table with _ | t
  · rw [hfind] at h
    cases h
  · rw [hfind] at h
    simp only [bind, Except.bind, pure, Except.pure] at h
    rcases hrow : index.lookup key (t.id, id) with _ | o
    · rw [hrow] at h
      cases h
    · rw [hrow] at h
      cases h
      exact ⟨rfl, hrow⟩

/-- The table that `find_table` finds is the one of its id. -/
theorem findTable_lookup_id {s : DbState} {code scope table : Name} {tab : TableIdObject}
    (h : findTable s code scope table = some tab) : s.tables.lookup TableIdObject.id tab.id = some tab :=
  lookup_of_mem (fun a b (e : a.id = b.id) => TableIdObject.clash_of_id e) (mem_of_lookup h).1

/-- A table's count is changed in its place, and the lookups by id and by key follow. -/
theorem modifyCount_ok {s : DbState} {tab : TableIdObject} {f : UInt32 → UInt32}
    {tables : IndexedTable TableIdObject TableIdObject.clash}
    (htab : s.tables.lookup TableIdObject.id tab.id = some tab)
    (h : modifyCount s.tables tab f = .ok tables) :
    (∃ l₁ l₂, s.tables.rows = l₁ ++ tab :: l₂ ∧
      tables.rows = l₁ ++ { tab with count := f tab.count } :: l₂) ∧
    ∀ i, tables.lookup TableIdObject.id i =
      if i = tab.id then some { tab with count := f tab.count } else s.tables.lookup TableIdObject.id i := by
  unfold modifyCount at h
  rw [liftDb_eq_ok] at h
  have hrows := rows_of_modify_lookup
    (fun a b (e : a.id = b.id) => TableIdObject.clash_of_id e) htab h
  refine ⟨hrows, fun i => ?_⟩
  rw [lookup_of_modify h (fun _ => rfl), htab]
  rfl

/-! ## Counts and charges over the rows -/

/-- A sum of weights over the rows of the primary index and of the secondary ones. -/
def rowSum {β : Type} [AddCommMonoid β] (s : DbState) (wkv : KeyValueObject → β)
    (wsec : (k : SecondaryKind) → SecondaryObject k → β) : β :=
  s.key_values.sumBy wkv + (SecondaryKind.all.map fun k => (s.secondaries k).sumBy (wsec k)).sum

/-- The rows of the table with id `i`: what its `count` should be. -/
def rowsIn (s : DbState) (i : Nat) : Nat :=
  rowSum s (fun o => if o.t_id = i then 1 else 0) (fun _ o => if o.t_id = i then 1 else 0)

/-- The rows of all tables. -/
def totalRows (s : DbState) : Nat := rowSum s (fun _ => 1) (fun _ _ => 1)

/-- What a row of the primary index bills account `a`: its value and its type, to its payer. -/
def kvCharge (a : Name) (o : KeyValueObject) : Int :=
  if o.payer = a then o.value.length + billableSizeKeyValueObject else 0

/-- What an object of secondary index `k` bills account `a`: its type, to its payer. -/
def secCharge (a : Name) (k : SecondaryKind) (o : SecondaryObject k) : Int :=
  if o.payer = a then k.billableSize else 0

/-- What a table bills account `a`: a `table_id_object`, to its payer. -/
def tableCharge (a : Name) (t : TableIdObject) : Int :=
  if t.payer = a then billableSizeTableIdObject else 0

/-- What the rows and the tables that account `a` pays for bill it. -/
def billed (s : DbState) (a : Name) : Int :=
  rowSum s (kvCharge a) (secCharge a) + s.tables.sumBy (tableCharge a)

section Sums

variable {β : Type} [AddCommMonoid β]

/-- Replacing the value at one index moves a sum over all indices by that index's change. -/
theorem sum_all_update {δ : SecondaryKind → Type} (F : (j : SecondaryKind) → δ j → β)
    (g : (j : SecondaryKind) → δ j) (k : SecondaryKind) (x : δ k) :
    (SecondaryKind.all.map fun j => F j (Function.update g k x j)).sum + F k (g k) =
      (SecondaryKind.all.map fun j => F j (g j)).sum + F k x := by
  cases k <;> simp [SecondaryKind.all, Function.update_of_ne] <;> ac_rfl

/-- New objects of index `k` move a sum over the rows by the change of that index. -/
theorem rowSum_setIndex (s : DbState) (k : SecondaryKind)
    (index : IndexedTable (SecondaryObject k) SecondaryObject.clash) (wkv : KeyValueObject → β)
    (wsec : (k : SecondaryKind) → SecondaryObject k → β) :
    rowSum (GenericIndex.setIndex s k index) wkv wsec + (s.secondaries k).sumBy (wsec k) =
      rowSum s wkv wsec + index.sumBy (wsec k) := by
  have h := sum_all_update (fun j (t : IndexedTable (SecondaryObject j) SecondaryObject.clash) =>
    t.sumBy (wsec j)) s.secondaries k index
  simp only [rowSum, GenericIndex.setIndex]
  rw [add_assoc, h, add_assoc]

/-- New rows of the primary index move a sum over the rows by their change. -/
theorem rowSum_key_values (s : DbState) (key_values : IndexedTable KeyValueObject KeyValueObject.clash)
    (wkv : KeyValueObject → β) (wsec : (k : SecondaryKind) → SecondaryObject k → β) :
    rowSum { s with key_values } wkv wsec + s.key_values.sumBy wkv =
      rowSum s wkv wsec + key_values.sumBy wkv := by
  simp only [rowSum]
  ac_rfl

end Sums

/-- `find_or_create_table` returns a table that is in the new state. -/
theorem findOrCreateTable_mem {ctx : DbContext} {s s' : DbState} {code scope table payer : Name}
    {tab : TableIdObject} (h : findOrCreateTable ctx s code scope table payer = .ok (s', tab)) :
    s'.tables.lookup TableIdObject.id tab.id = some tab := by
  apply lookup_of_mem (fun a b (e : a.id = b.id) => TableIdObject.clash_of_id e)
  obtain ⟨-, -, ⟨hfind, rfl⟩ | ⟨-, -, hcreate, -⟩⟩ := findOrCreateTable_ok h
  · exact (mem_of_lookup hfind).1
  · rw [rows_of_create hcreate]
    exact List.mem_append_right _ (List.mem_singleton_self _)

/-! ## The RAM charged for the rows

What the RAM charged to an account exceeds what its rows and tables bill (`ramBalance`) is the
same after every call: each charge or refund of `update_db_usage` goes with the row or the table
that it is for. -/

/-- What the RAM charged to account `a` exceeds what its rows and tables bill. -/
def ramBalance (s : DbState) (a : Name) : Int := s.ram a - billed s a

section Ram

variable {ctx : DbContext} {s s' : DbState} {a : Name}

/-- A charge of `update_db_usage` raises the balance of its payer. -/
theorem ramBalance_of_updateDbUsage {payer : Name} {delta : Int}
    (h : updateDbUsage ctx s payer delta = .ok s') (a : Name) :
    ramBalance s' a = ramBalance s a + if payer = a then delta else 0 := by
  rw [updateDbUsage_ok h]
  show addRamUsage s.ram payer delta a - billed s a = ramBalance s a + _
  rw [Token.addRamUsage_apply, ramBalance]
  rcases eq_or_ne payer a with rfl | ha
  · simp
    ring
  · simp [ha, Ne.symm ha]

/-- A new table is charged to its payer. -/
theorem ramBalance_of_findOrCreateTable {code scope table payer : Name} {tab : TableIdObject}
    (h : findOrCreateTable ctx s code scope table payer = .ok (s', tab)) (a : Name) :
    ramBalance s' a = ramBalance s a := by
  obtain ⟨hkv, hsec, ⟨-, rfl⟩ | ⟨-, rfl, hcreate, -, hram⟩⟩ := findOrCreateTable_ok h
  · rfl
  · have hsum := sumBy_of_create hcreate (tableCharge a)
    have hrow : rowSum s' (kvCharge a) (secCharge a) = rowSum s (kvCharge a) (secCharge a) := by
      simp only [rowSum, hkv, hsec]
    rw [ramBalance, ramBalance, billed, billed, hram, Token.addRamUsage_apply, hsum, hrow]
    rcases eq_or_ne a payer with rfl | ha
    · simp only [tableCharge]
      ring
    · simp [tableCharge, ha, Ne.symm ha]

/-- A change of a table's count changes no charge. -/
theorem ramBalance_of_modifyCount {tab : TableIdObject} {f : UInt32 → UInt32}
    {tables : IndexedTable TableIdObject TableIdObject.clash}
    (htab : s.tables.lookup TableIdObject.id tab.id = some tab)
    (h : modifyCount s.tables tab f = .ok tables) (a : Name) :
    ramBalance { s with tables } a = ramBalance s a := by
  obtain ⟨⟨l₁, l₂, hrows, hrows'⟩, -⟩ := modifyCount_ok htab h
  have hsum := sumBy_of_replace hrows hrows' (tableCharge a)
  have hsame : tableCharge a { tab with count := f tab.count } = tableCharge a tab := rfl
  simp only [ramBalance, billed, rowSum] at hsum ⊢
  linarith

/-- A removed table refunds its payer's charge. -/
theorem ramBalance_of_remove_table {i : Nat} {t : TableIdObject}
    (htab : s.tables.lookup TableIdObject.id i = some t) (a : Name) :
    ramBalance { s with tables := s.tables.remove (·.id == i) } a =
      ramBalance s a + tableCharge a t := by
  obtain ⟨l₁, l₂, hrows, hrows'⟩ :=
    rows_of_remove_lookup (fun a b (e : a.id = b.id) => TableIdObject.clash_of_id e) htab
  have hsum := sumBy_of_drop hrows hrows' (tableCharge a)
  simp only [ramBalance, billed, rowSum] at hsum ⊢
  linarith

/-- A new row of the primary index bills its payer. -/
theorem ramBalance_of_create_kv {x : KeyValueObject}
    {key_values : IndexedTable KeyValueObject KeyValueObject.clash}
    (h : s.key_values.create x = some key_values) (a : Name) :
    ramBalance { s with key_values } a + kvCharge a x = ramBalance s a := by
  have hrow := rowSum_key_values s key_values (kvCharge a) (secCharge a)
  rw [sumBy_of_create h] at hrow
  simp only [ramBalance, billed] at hrow ⊢
  linarith

/-- A row of the primary index replaced in its place bills for its new self. -/
theorem ramBalance_of_modify_kv {k : Nat × UInt64} {r : KeyValueObject}
    {f : KeyValueObject → KeyValueObject}
    {key_values : IndexedTable KeyValueObject KeyValueObject.clash}
    (hr : s.key_values.lookup KeyValueObject.key k = some r)
    (h : s.key_values.modify (·.key == k) f = some key_values) (a : Name) :
    ramBalance { s with key_values } a + kvCharge a (f r) = ramBalance s a + kvCharge a r := by
  obtain ⟨l₁, l₂, hrows, hrows'⟩ :=
    rows_of_modify_lookup (fun a b (e : a.key = b.key) => KeyValueObject.clash_of_key e) hr h
  have hsum := sumBy_of_replace hrows hrows' (kvCharge a)
  have hrow := rowSum_key_values s key_values (kvCharge a) (secCharge a)
  simp only [ramBalance, billed] at hrow ⊢
  linarith

/-- A removed row of the primary index refunds its payer. -/
theorem ramBalance_of_remove_kv {k : Nat × UInt64} {r : KeyValueObject}
    (hr : s.key_values.lookup KeyValueObject.key k = some r) (a : Name) :
    ramBalance { s with key_values := s.key_values.remove (·.key == k) } a =
      ramBalance s a + kvCharge a r := by
  obtain ⟨l₁, l₂, hrows, hrows'⟩ :=
    rows_of_remove_lookup (fun a b (e : a.key = b.key) => KeyValueObject.clash_of_key e) hr
  have hsum := sumBy_of_drop hrows hrows' (kvCharge a)
  have hrow := rowSum_key_values s (s.key_values.remove (·.key == k)) (kvCharge a) (secCharge a)
  simp only [ramBalance, billed] at hrow ⊢
  linarith

/-- The removal of a row of the primary index with the decrement of its table's count refunds the
row's payer. -/
theorem ramBalance_of_remove_row_kv {tab : TableIdObject} {f : UInt32 → UInt32}
    {tables : IndexedTable TableIdObject TableIdObject.clash} {k : Nat × UInt64} {r : KeyValueObject}
    (htab : s.tables.lookup TableIdObject.id tab.id = some tab)
    (htables : modifyCount s.tables tab f = .ok tables)
    (hr : s.key_values.lookup KeyValueObject.key k = some r) (a : Name) :
    ramBalance { s with tables, key_values := s.key_values.remove (·.key == k) } a =
      ramBalance s a + kvCharge a r := by
  have h₁ := ramBalance_of_modifyCount htab htables a
  have h₂ := ramBalance_of_remove_kv (s := { s with tables }) (hr :) a
  rw [← h₁]
  exact h₂

/-- New objects of index `k` move the balance by what they bill. -/
theorem ramBalance_setIndex {k : SecondaryKind}
    (index : IndexedTable (SecondaryObject k) SecondaryObject.clash) (a : Name) :
    ramBalance (GenericIndex.setIndex s k index) a + index.sumBy (secCharge a k) =
      ramBalance s a + (s.secondaries k).sumBy (secCharge a k) := by
  have hrow := rowSum_setIndex s k index (kvCharge a) (secCharge a)
  have htables : (GenericIndex.setIndex s k index).tables = s.tables := rfl
  have hram : (GenericIndex.setIndex s k index).ram = s.ram := rfl
  simp only [ramBalance, billed, htables, hram] at hrow ⊢
  linarith

/-- A new object of index `k` bills its payer. -/
theorem ramBalance_of_create_sec {k : SecondaryKind} {x : SecondaryObject k}
    {index : IndexedTable (SecondaryObject k) SecondaryObject.clash}
    (h : (s.secondaries k).create x = some index) (a : Name) :
    ramBalance (GenericIndex.setIndex s k index) a + secCharge a k x = ramBalance s a := by
  have h₁ := ramBalance_setIndex (s := s) index a
  rw [sumBy_of_create h] at h₁
  linarith

/-- An object of index `k` replaced in its place bills for its new self. -/
theorem ramBalance_of_modify_sec {k : SecondaryKind} {key : Nat × UInt64} {r : SecondaryObject k}
    {f : SecondaryObject k → SecondaryObject k}
    {index : IndexedTable (SecondaryObject k) SecondaryObject.clash}
    (hr : (s.secondaries k).lookup SecondaryObject.key key = some r)
    (h : (s.secondaries k).modify (·.key == key) f = some index) (a : Name) :
    ramBalance (GenericIndex.setIndex s k index) a + secCharge a k (f r) =
      ramBalance s a + secCharge a k r := by
  obtain ⟨l₁, l₂, hrows, hrows'⟩ :=
    rows_of_modify_lookup (fun a b (e : a.key = b.key) => SecondaryObject.clash_of_key e) hr h
  have hsum := sumBy_of_replace hrows hrows' (secCharge a k)
  have h₁ := ramBalance_setIndex (s := s) index a
  linarith

/-- A removed object of index `k` refunds its payer. -/
theorem ramBalance_of_remove_sec {k : SecondaryKind} {key : Nat × UInt64} {r : SecondaryObject k}
    (hr : (s.secondaries k).lookup SecondaryObject.key key = some r) (a : Name) :
    ramBalance (GenericIndex.setIndex s k ((s.secondaries k).remove (·.key == key))) a =
      ramBalance s a + secCharge a k r := by
  obtain ⟨l₁, l₂, hrows, hrows'⟩ :=
    rows_of_remove_lookup (fun a b (e : a.key = b.key) => SecondaryObject.clash_of_key e) hr
  have hsum := sumBy_of_drop hrows hrows' (secCharge a k)
  have h₁ := ramBalance_setIndex (s := s) ((s.secondaries k).remove (·.key == key)) a
  linarith

/-- The removal of an object of index `k` with the decrement of its table's count refunds the
object's payer. -/
theorem ramBalance_of_remove_row_sec {tab : TableIdObject} {f : UInt32 → UInt32}
    {tables : IndexedTable TableIdObject TableIdObject.clash} {k : SecondaryKind}
    {key : Nat × UInt64} {r : SecondaryObject k}
    (htab : s.tables.lookup TableIdObject.id tab.id = some tab)
    (htables : modifyCount s.tables tab f = .ok tables)
    (hr : (s.secondaries k).lookup SecondaryObject.key key = some r) (a : Name) :
    ramBalance { GenericIndex.setIndex s k ((s.secondaries k).remove (·.key == key)) with tables } a =
      ramBalance s a + secCharge a k r := by
  have h₁ := ramBalance_of_modifyCount
    (s := GenericIndex.setIndex s k ((s.secondaries k).remove (·.key == key))) (htab :) htables a
  rw [h₁, ramBalance_of_remove_sec hr a]

/-- `update_db_usage` changes the RAM only. -/
theorem updateDbUsage_rows {payer : Name} {delta : Int} (h : updateDbUsage ctx s payer delta = .ok s') :
    ∃ ram, s' = { s with ram } :=
  ⟨_, updateDbUsage_ok h⟩

/-- The charges of `db_update_i64` for a row that moves from `old_payer` and `old_size` to `payer`
and `new_size`: a refund and a charge, or the difference. -/
theorem ramBalance_of_recharge {old_payer payer : Name} {old_size new_size : Int}
    (h : (if old_payer != payer then do
        let s ← updateDbUsage ctx s old_payer (-old_size)
        updateDbUsage ctx s payer new_size
      else if old_size != new_size then updateDbUsage ctx s old_payer (new_size - old_size)
      else pure s) = .ok s') :
    (∃ ram, s' = { s with ram }) ∧ ∀ a, ramBalance s' a + (if old_payer = a then old_size else 0) =
      ramBalance s a + if payer = a then new_size else 0 := by
  split_ifs at h with hne hsize
  · -- a refund to the old payer and a charge to the new one
    rw [bind_eq_ok] at h
    obtain ⟨s₁, h₁, h₂⟩ := h
    obtain ⟨ram₁, rfl⟩ := updateDbUsage_rows h₁
    refine ⟨by obtain ⟨ram, rfl⟩ := updateDbUsage_rows h₂; exact ⟨ram, rfl⟩, fun a => ?_⟩
    rw [ramBalance_of_updateDbUsage h₂, ramBalance_of_updateDbUsage h₁]
    split_ifs <;> ring
  · -- the same payer: the difference
    have hp : old_payer = payer := by simpa using hne
    subst hp
    refine ⟨updateDbUsage_rows h, fun a => ?_⟩
    rw [ramBalance_of_updateDbUsage h]
    split_ifs <;> ring
  · have hp : old_payer = payer := by simpa using hne
    have hs : old_size = new_size := by simpa using hsize
    subst hp hs
    cases h
    exact ⟨⟨s.ram, rfl⟩, fun a => rfl⟩

/-- The charges of `generic_index::update` for an object that moves from `old_payer` to `payer`. -/
theorem ramBalance_of_repay {old_payer payer : Name} {billing_size : Int}
    (h : (if old_payer != payer then do
        let s ← updateDbUsage ctx s old_payer (-billing_size)
        updateDbUsage ctx s payer billing_size
      else pure s) = .ok s') :
    (∃ ram, s' = { s with ram }) ∧ ∀ a, ramBalance s' a + (if old_payer = a then billing_size else 0) =
      ramBalance s a + if payer = a then billing_size else 0 := by
  split_ifs at h with hne
  · rw [bind_eq_ok] at h
    obtain ⟨s₁, h₁, h₂⟩ := h
    obtain ⟨ram₁, rfl⟩ := updateDbUsage_rows h₁
    refine ⟨by obtain ⟨ram, rfl⟩ := updateDbUsage_rows h₂; exact ⟨ram, rfl⟩, fun a => ?_⟩
    rw [ramBalance_of_updateDbUsage h₂, ramBalance_of_updateDbUsage h₁]
    split_ifs <;> ring
  · have hp : old_payer = payer := by simpa using hne
    subst hp
    cases h
    exact ⟨⟨s.ram, rfl⟩, fun a => rfl⟩

/-- `db_store_i64` charges the new row, and the new table if there is one, to the payer. -/
theorem dbStoreI64_ramBalance {code scope table payer : Name} {id : UInt64} {buffer : List UInt8}
    (h : dbStoreI64 ctx s code scope table payer id buffer = .ok s') (a : Name) :
    ramBalance s' a = ramBalance s a := by
  simp only [dbStoreI64, bind_eq_ok, eosAssert_eq_ok, liftDb_eq_ok] at h
  obtain ⟨⟨s₁, tab⟩, hft, -, -, key_values, hkv, tables, htables, hfin⟩ := h
  have h₁ := ramBalance_of_findOrCreateTable hft a
  have h₂ := ramBalance_of_create_kv hkv a
  have h₃ : ramBalance
      { tables := tables, next_table_id := s₁.next_table_id, key_values := key_values,
        secondaries := s₁.secondaries, ram := s₁.ram } a = ramBalance { s₁ with key_values } a :=
    ramBalance_of_modifyCount (s := { s₁ with key_values }) (findOrCreateTable_mem hft :) htables a
  have h₄ := ramBalance_of_updateDbUsage hfin a
  simp only [kvCharge] at h₂
  linarith

/-- `remove_table` refunds the table's payer for the row that it removes. -/
theorem ramBalance_of_removeTable {tid t : TableIdObject}
    (htab : s.tables.lookup TableIdObject.id tid.id = some t) (hpayer : t.payer = tid.payer)
    (h : removeTable ctx s tid = .ok s') (a : Name) : ramBalance s' a = ramBalance s a := by
  simp only [removeTable, bind_eq_ok] at h
  obtain ⟨s₁, h₁, hfin⟩ := h
  cases hfin
  have hbal := ramBalance_of_updateDbUsage h₁ a
  have htab₁ : s₁.tables.lookup TableIdObject.id tid.id = some t := by
    rw [updateDbUsage_ok h₁]
    exact htab
  rw [ramBalance_of_remove_table htab₁ a, hbal]
  simp only [tableCharge, hpayer]
  split_ifs <;> ring

/-- `db_update_i64` charges the row's new size to its new payer and refunds the old one. -/
theorem dbUpdateI64_ramBalance {code scope table payer : Name} {id : UInt64} {buffer : List UInt8}
    (h : dbUpdateI64 ctx s code scope table id payer buffer = .ok s') (a : Name) :
    ramBalance s' a = ramBalance s a := by
  simp only [dbUpdateI64, bind_eq_ok, eosAssert_eq_ok, liftDb_eq_ok] at h
  obtain ⟨⟨tab, obj⟩, hfind, -, -, s₁, hs₁, key_values, hkv, hfin⟩ := h
  cases hfin
  obtain ⟨-, hobj⟩ := findRow_ok hfind
  have hkey : obj.key = (tab.id, id) := (mem_of_lookup hobj).2
  rw [← hkey] at hobj
  obtain ⟨⟨ram, rfl⟩, hbal⟩ := ramBalance_of_recharge hs₁
  have h₂ := ramBalance_of_modify_kv (s := { s with ram }) (hobj :) hkv a
  have h₃ := hbal a
  simp only [kvCharge] at h₂
  linarith

/-- `db_remove_i64` refunds the row's payer, and the table's payer when the table goes. -/
theorem dbRemoveI64_ramBalance {code scope table : Name} {id : UInt64}
    (h : dbRemoveI64 ctx s code scope table id = .ok s') (a : Name) :
    ramBalance s' a = ramBalance s a := by
  simp only [dbRemoveI64, bind_eq_ok, eosAssert_eq_ok] at h
  obtain ⟨⟨tab, obj⟩, hfind, -, -, s₁, hs₁, tables, htables, hfin⟩ := h
  obtain ⟨htab, hobj⟩ := findRow_ok hfind
  have hkey : obj.key = (tab.id, id) := (mem_of_lookup hobj).2
  rw [← hkey] at hobj
  have hs₁' := updateDbUsage_ok hs₁
  have htab₁ : s₁.tables.lookup TableIdObject.id tab.id = some tab := by
    rw [hs₁']
    exact findTable_lookup_id htab
  have hobj₁ : s₁.key_values.lookup KeyValueObject.key obj.key = some obj := by
    rw [hs₁']
    exact hobj
  -- the row goes, with its refund
  have hrow : ramBalance { s₁ with tables, key_values := s₁.key_values.remove (·.key == obj.key) } a =
      ramBalance s a := by
    rw [ramBalance_of_remove_row_kv htab₁ htables hobj₁ a, ramBalance_of_updateDbUsage hs₁ a]
    simp only [kvCharge]
    split_ifs <;> ring
  split_ifs at hfin
  · -- the last row: the table goes too
    obtain ⟨-, hlook⟩ := modifyCount_ok htab₁ htables
    have htab₂ : tables.lookup TableIdObject.id tab.id = some { tab with count := tab.count - 1 } := by
      rw [hlook, if_pos rfl]
    have hpayer : ({ tab with count := tab.count - 1 } : TableIdObject).payer = tab.payer := rfl
    rw [ramBalance_of_removeTable (htab₂ :) hpayer hfin, hrow]
  · cases hfin
    exact hrow

namespace GenericIndex

/-- `generic_index::store` charges the new object, and the new table if there is one, to the
payer. -/
theorem store_ramBalance {k : SecondaryKind} {scope table payer : Name} {id : UInt64}
    {secondary : k.Key} (h : store ctx s k scope table payer id secondary = .ok s') (a : Name) :
    ramBalance s' a = ramBalance s a := by
  simp only [store, bind_eq_ok, eosAssert_eq_ok, liftDb_eq_ok] at h
  obtain ⟨-, -, ⟨s₁, tab⟩, hft, index, hidx, tables, htables, hfin⟩ := h
  have h₁ := ramBalance_of_findOrCreateTable hft a
  have h₂ := ramBalance_of_create_sec hidx a
  have h₃ := ramBalance_of_modifyCount (s := setIndex s₁ k index) (findOrCreateTable_mem hft :)
    htables a
  have h₄ := ramBalance_of_updateDbUsage hfin a
  simp only [secCharge] at h₂
  linarith

/-- `generic_index::remove` refunds the object's payer, and the table's payer when the table
goes. -/
theorem remove_ramBalance {k : SecondaryKind} {code scope table : Name} {id : UInt64}
    (h : remove ctx s k code scope table id = .ok s') (a : Name) : ramBalance s' a = ramBalance s a := by
  simp only [remove, bind_eq_ok, eosAssert_eq_ok] at h
  obtain ⟨⟨tab, obj⟩, hfind, s₁, hs₁, -, -, tables, htables, hfin⟩ := h
  obtain ⟨htab, hobj⟩ := findRow_ok hfind
  have hkey : obj.key = (tab.id, id) := (mem_of_lookup hobj).2
  rw [← hkey] at hobj
  have hs₁' := updateDbUsage_ok hs₁
  have htab₁ : s₁.tables.lookup TableIdObject.id tab.id = some tab := by
    rw [hs₁']
    exact findTable_lookup_id htab
  have hobj₁ : (s₁.secondaries k).lookup SecondaryObject.key obj.key = some obj := by
    rw [hs₁']
    exact hobj
  -- the object goes, with its refund
  have hrow : ramBalance { setIndex s₁ k ((s₁.secondaries k).remove (·.key == obj.key)) with tables } a =
      ramBalance s a := by
    rw [ramBalance_of_remove_row_sec htab₁ htables hobj₁ a, ramBalance_of_updateDbUsage hs₁ a]
    simp only [secCharge]
    split_ifs <;> ring
  split_ifs at hfin
  · -- the last row: the table goes too
    obtain ⟨-, hlook⟩ := modifyCount_ok htab₁ htables
    have htab₂ : tables.lookup TableIdObject.id tab.id = some { tab with count := tab.count - 1 } := by
      rw [hlook, if_pos rfl]
    have hpayer : ({ tab with count := tab.count - 1 } : TableIdObject).payer = tab.payer := rfl
    rw [ramBalance_of_removeTable (htab₂ :) hpayer hfin, hrow]
  · cases hfin
    exact hrow

/-- `generic_index::update` charges the object to its new payer and refunds the old one. -/
theorem update_ramBalance {k : SecondaryKind} {code scope table payer : Name} {id : UInt64}
    {secondary : k.Key} (h : update ctx s k code scope table id payer secondary = .ok s')
    (a : Name) : ramBalance s' a = ramBalance s a := by
  simp only [update, bind_eq_ok, eosAssert_eq_ok, liftDb_eq_ok] at h
  obtain ⟨⟨tab, obj⟩, hfind, -, -, s₁, hs₁, index, hidx, hfin⟩ := h
  cases hfin
  obtain ⟨-, hobj⟩ := findRow_ok hfind
  have hkey : obj.key = (tab.id, id) := (mem_of_lookup hobj).2
  rw [← hkey] at hobj
  obtain ⟨⟨ram, rfl⟩, hbal⟩ := ramBalance_of_repay hs₁
  have h₂ := ramBalance_of_modify_sec (s := { s with ram }) (hobj :) hidx a
  have h₃ := hbal a
  simp only [secCharge] at h₂
  linarith

end GenericIndex

/-- Every call keeps the balance. -/
theorem dbCall_ramBalance {c : DbCall} (h : dbCall ctx s c = .ok s') (a : Name) :
    ramBalance s' a = ramBalance s a := by
  cases c with
  | db_store_i64 => exact dbStoreI64_ramBalance h a
  | db_update_i64 => exact dbUpdateI64_ramBalance h a
  | db_remove_i64 => exact dbRemoveI64_ramBalance h a
  | idx_store => exact GenericIndex.store_ramBalance h a
  | idx_update => exact GenericIndex.update_ramBalance h a
  | idx_remove => exact GenericIndex.remove_ramBalance h a

/-- A committed action keeps the balance: each of its calls does. -/
theorem dbStep_ramBalance {act : DbAction} (h : dbStep s act = .ok s') (a : Name) :
    ramBalance s' a = ramBalance s a :=
  Machine.foldlM_invariant (fun _ t => ramBalance t a = ramBalance s a) (fun _ => 0)
    (fun _ _ _ _ ht hc => (dbCall_ramBalance hc a).trans ht) act.calls 0 rfl h

/-- Every run keeps the balance. -/
theorem run_ramBalance (acts : List DbAction) (a : Name) :
    ramBalance (Machine.run dbStep s acts) a = ramBalance s a :=
  Machine.run_invariant (fun t => ramBalance t a = ramBalance s a)
    (fun _ _ _ ht h => (dbStep_ramBalance h a).trans ht) acts rfl

end Ram

/-! ## The counts of the tables

A store adds a row to one table, whose count it increments; a remove takes a row from one table,
whose count it decrements, and removes the table with its last row; an update keeps each row in
its table. So each table counts its rows (`rowsIn`) as long as no count wraps, which the rows of
all tables staying below `2^32` ensures: each store of a run spends one of a budget of rows
(`TableInv`). -/

/-- `remove_table` refunds the payer and removes the table of the id. -/
theorem removeTable_ok {ctx : DbContext} {s s' : DbState} {tid : TableIdObject}
    (h : removeTable ctx s tid = .ok s') :
    ∃ ram, s' = { s with ram, tables := s.tables.remove (·.id == tid.id) } := by
  simp only [removeTable, bind_eq_ok] at h
  obtain ⟨s₁, h₁, hfin⟩ := h
  cases hfin
  rw [updateDbUsage_ok h₁]
  exact ⟨_, rfl⟩

section RowCounts

variable {s : DbState} (wkv : KeyValueObject → Nat)
  (wsec : (k : SecondaryKind) → SecondaryObject k → Nat)

/-- A new row of the primary index adds its weight. -/
theorem rowSum_create_kv {x : KeyValueObject}
    {key_values : IndexedTable KeyValueObject KeyValueObject.clash}
    (h : s.key_values.create x = some key_values) :
    rowSum { s with key_values } wkv wsec = rowSum s wkv wsec + wkv x := by
  have h₁ := rowSum_key_values s key_values wkv wsec
  rw [sumBy_of_create h] at h₁
  omega

/-- A row of the primary index replaced in its place by one of the same weight keeps the sum. -/
theorem rowSum_modify_kv {k : Nat × UInt64} {r : KeyValueObject}
    {f : KeyValueObject → KeyValueObject}
    {key_values : IndexedTable KeyValueObject KeyValueObject.clash}
    (hr : s.key_values.lookup KeyValueObject.key k = some r)
    (h : s.key_values.modify (·.key == k) f = some key_values) (hw : wkv (f r) = wkv r) :
    rowSum { s with key_values } wkv wsec = rowSum s wkv wsec := by
  obtain ⟨l₁, l₂, hrows, hrows'⟩ :=
    rows_of_modify_lookup (fun a b (e : a.key = b.key) => KeyValueObject.clash_of_key e) hr h
  have hsum := sumBy_of_replace hrows hrows' wkv
  have h₁ := rowSum_key_values s key_values wkv wsec
  omega

/-- A removed row of the primary index takes away its weight. -/
theorem rowSum_remove_kv {k : Nat × UInt64} {r : KeyValueObject}
    (hr : s.key_values.lookup KeyValueObject.key k = some r) :
    rowSum { s with key_values := s.key_values.remove (·.key == k) } wkv wsec + wkv r =
      rowSum s wkv wsec := by
  obtain ⟨l₁, l₂, hrows, hrows'⟩ :=
    rows_of_remove_lookup (fun a b (e : a.key = b.key) => KeyValueObject.clash_of_key e) hr
  have hsum := sumBy_of_drop hrows hrows' wkv
  have h₁ := rowSum_key_values s (s.key_values.remove (·.key == k)) wkv wsec
  omega

/-- A new object of index `k` adds its weight. -/
theorem rowSum_create_sec {k : SecondaryKind} {x : SecondaryObject k}
    {index : IndexedTable (SecondaryObject k) SecondaryObject.clash}
    (h : (s.secondaries k).create x = some index) :
    rowSum (GenericIndex.setIndex s k index) wkv wsec = rowSum s wkv wsec + wsec k x := by
  have h₁ := rowSum_setIndex s k index wkv wsec
  rw [sumBy_of_create h] at h₁
  omega

/-- An object of index `k` replaced in its place by one of the same weight keeps the sum. -/
theorem rowSum_modify_sec {k : SecondaryKind} {key : Nat × UInt64} {r : SecondaryObject k}
    {f : SecondaryObject k → SecondaryObject k}
    {index : IndexedTable (SecondaryObject k) SecondaryObject.clash}
    (hr : (s.secondaries k).lookup SecondaryObject.key key = some r)
    (h : (s.secondaries k).modify (·.key == key) f = some index) (hw : wsec k (f r) = wsec k r) :
    rowSum (GenericIndex.setIndex s k index) wkv wsec = rowSum s wkv wsec := by
  obtain ⟨l₁, l₂, hrows, hrows'⟩ :=
    rows_of_modify_lookup (fun a b (e : a.key = b.key) => SecondaryObject.clash_of_key e) hr h
  have hsum := sumBy_of_replace hrows hrows' (wsec k)
  have h₁ := rowSum_setIndex s k index wkv wsec
  omega

/-- A removed object of index `k` takes away its weight. -/
theorem rowSum_remove_sec {k : SecondaryKind} {key : Nat × UInt64} {r : SecondaryObject k}
    (hr : (s.secondaries k).lookup SecondaryObject.key key = some r) :
    rowSum (GenericIndex.setIndex s k ((s.secondaries k).remove (·.key == key))) wkv wsec +
      wsec k r = rowSum s wkv wsec := by
  obtain ⟨l₁, l₂, hrows, hrows'⟩ :=
    rows_of_remove_lookup (fun a b (e : a.key = b.key) => SecondaryObject.clash_of_key e) hr
  have hsum := sumBy_of_drop hrows hrows' (wsec k)
  have h₁ := rowSum_setIndex s k ((s.secondaries k).remove (·.key == key)) wkv wsec
  omega

end RowCounts

/-- The rows of one table are among the rows of all tables. -/
theorem rowsIn_le_totalRows (s : DbState) (i : Nat) : rowsIn s i ≤ totalRows s := by
  have hkv : ∀ o : KeyValueObject, (if o.t_id = i then 1 else 0) ≤ 1 := fun o => by split <;> omega
  have hsec : ∀ k (o : SecondaryObject k), (if o.t_id = i then 1 else 0) ≤ 1 := fun _ o => by
    split <;> omega
  unfold rowsIn totalRows rowSum sumBy
  exact Nat.add_le_add (List.sum_le_sum fun o _ => hkv o)
    (List.sum_le_sum fun k _ => List.sum_le_sum fun o _ => hsec k o)

/-- The invariant of the tables with a budget of `n` more rows: each table has an id below the next
one, counts its rows and is there exactly when it has one, and the rows of all tables and the
budget stay below `2^32`. -/
structure TableInv (n : Nat) (s : DbState) : Prop where
  /-- The tables' ids are below the next id. -/
  fresh : ∀ t ∈ s.tables.rows, t.id < s.next_table_id
  /-- The table of each id counts its rows, and is there exactly when it has one. -/
  counts : ∀ i, (s.tables.lookup TableIdObject.id i).map (·.count.toNat) =
    if rowsIn s i = 0 then none else some (rowsIn s i)
  /-- No count can wrap with the budget spent. -/
  budget : totalRows s + n < 2 ^ 32

section Invariant

variable {ctx : DbContext} {s s₁ s' t : DbState} {n : Nat}

/-- A smaller budget keeps the invariant. -/
theorem TableInv.mono {m : Nat} (hmn : m ≤ n) (h : TableInv n s) : TableInv m s :=
  ⟨h.fresh, h.counts, by have := h.budget; omega⟩

/-- A state with the same tables and the same rows in each keeps the invariant. -/
theorem TableInv.of_same (hinv : TableInv n s) (htables : t.tables = s.tables)
    (hnext : t.next_table_id = s.next_table_id) (hrows : rowsIn t = rowsIn s)
    (htotal : totalRows t = totalRows s) : TableInv n t := by
  refine ⟨?_, fun i => ?_, ?_⟩
  · rw [htables, hnext]
    exact hinv.fresh
  · rw [htables, hrows]
    exact hinv.counts i
  · rw [htotal]
    exact hinv.budget

/-- A change of counts keeps the tables' ids. -/
theorem modifyCount_fresh {tables tables' : IndexedTable TableIdObject TableIdObject.clash}
    {tab : TableIdObject} {f : UInt32 → UInt32} {N : Nat} (hfresh : ∀ t ∈ tables.rows, t.id < N)
    (htab : tables.lookup TableIdObject.id tab.id = some tab)
    (h : modifyCount tables tab f = .ok tables') : ∀ t ∈ tables'.rows, t.id < N := by
  obtain ⟨⟨l₁, l₂, hr₁, hr₂⟩, -⟩ := modifyCount_ok (s := ⟨tables, 0, .empty, fun _ => .empty, fun _ => 0⟩)
    htab h
  intro r hr
  rw [hr₂] at hr
  simp only [List.mem_append, List.mem_cons] at hr
  rcases hr with hr | rfl | hr
  · exact hfresh r (by rw [hr₁]; simp [hr])
  · exact hfresh tab (by rw [hr₁]; simp)
  · exact hfresh r (by rw [hr₁]; simp [hr])

/-- A table with rows has a count. -/
theorem TableInv.count_eq (hinv : TableInv n s) {tab : TableIdObject}
    (htab : s.tables.lookup TableIdObject.id tab.id = some tab) :
    tab.count.toNat = rowsIn s tab.id ∧ rowsIn s tab.id ≠ 0 := by
  have h := hinv.counts tab.id
  rw [htab] at h
  split_ifs at h with h0
  · cases h
  · exact ⟨Option.some.inj h, h0⟩

/-- The table that `find_or_create_table` returns: the lookups by id have it, the rows are those of
the start, and its count is its rows. -/
theorem TableInv.of_findOrCreateTable {m : Nat} (hinv : TableInv m s) {code scope table payer : Name}
    {tab : TableIdObject} (hft : findOrCreateTable ctx s code scope table payer = .ok (s₁, tab)) :
    (∀ i, s₁.tables.lookup TableIdObject.id i =
      if i = tab.id then some tab else s.tables.lookup TableIdObject.id i) ∧
    rowsIn s₁ = rowsIn s ∧ totalRows s₁ = totalRows s ∧ tab.count.toNat = rowsIn s tab.id ∧
    ∀ t ∈ s₁.tables.rows, t.id < s₁.next_table_id := by
  obtain ⟨hkv, hsec, ⟨hfind, rfl⟩ | ⟨-, rfl, hcreate, hnext, -⟩⟩ := findOrCreateTable_ok hft
  · -- the table was there
    have hid := findTable_lookup_id hfind
    refine ⟨fun i => ?_, rfl, rfl, (hinv.count_eq hid).1, hinv.fresh⟩
    split_ifs with hi
    · rw [hi, hid]
    · rfl
  · -- a new table, with the next id, which no table had
    have hcreated := lookup_of_create (fun a b (e : a.id = b.id) => TableIdObject.clash_of_id e)
      hcreate
    have hnone := (hcreated 0).1
    have hlook := fun i => (hcreated i).2
    have hzero : rowsIn s s.next_table_id = 0 := by
      have h := hinv.counts s.next_table_id
      rw [show s.tables.lookup TableIdObject.id s.next_table_id = none from hnone] at h
      split_ifs at h with h0
      · exact h0
      · cases h
    have hrows : rowsIn s₁ = rowsIn s := by
      funext i
      simp only [rowsIn, rowSum, hkv, hsec]
    have htotal : totalRows s₁ = totalRows s := by
      simp only [totalRows, rowSum, hkv, hsec]
    refine ⟨hlook, hrows, htotal, by rw [hzero]; rfl, fun t ht => ?_⟩
    rw [rows_of_create hcreate, List.mem_append, List.mem_singleton] at ht
    rw [hnext]
    rcases ht with ht | rfl
    · exact Nat.lt_succ_of_lt (hinv.fresh t ht)
    · exact Nat.lt_succ_self _

/-- A store of one row, in the table that `find_or_create_table` returns and whose count it
increments, spends one row of the budget. -/
theorem TableInv.store (hinv : TableInv (1 + n) s) {code scope table payer : Name}
    {tab : TableIdObject} {tables : IndexedTable TableIdObject TableIdObject.clash}
    (hft : findOrCreateTable ctx s code scope table payer = .ok (s₁, tab))
    (htables : modifyCount s₁.tables tab (· + 1) = .ok tables) (ht : t.tables = tables)
    (hnext : t.next_table_id = s₁.next_table_id)
    (hrows : ∀ i, rowsIn t i = rowsIn s₁ i + if tab.id = i then 1 else 0)
    (htotal : totalRows t = totalRows s₁ + 1) : TableInv n t := by
  obtain ⟨hlook₁, hrows₁, htotal₁, hcount, hfresh₁⟩ := hinv.of_findOrCreateTable hft
  have htab₁ : s₁.tables.lookup TableIdObject.id tab.id = some tab := by rw [hlook₁, if_pos rfl]
  obtain ⟨⟨l₁, l₂, hr₁, hr₂⟩, hlook⟩ := modifyCount_ok htab₁ htables
  have hbound : rowsIn s tab.id + 1 < 2 ^ 32 := by
    have := rowsIn_le_totalRows s tab.id
    have := hinv.budget
    omega
  refine ⟨fun r hr => ?_, fun i => ?_, ?_⟩
  · rw [hnext]
    exact modifyCount_fresh hfresh₁ htab₁ htables r (ht ▸ hr)
  · rw [ht, hlook i, hrows i, hrows₁]
    by_cases hi : i = tab.id
    · -- the table of the store: one row more, and a count that does not wrap
      subst hi
      rw [if_pos rfl, if_pos rfl, Option.map_some, UInt32.toNat_add, UInt32.toNat_one, hcount,
        Nat.mod_eq_of_lt (by simpa using hbound), if_neg (by omega)]
    · rw [if_neg hi, hlook₁ i, if_neg hi, if_neg (Ne.symm hi), Nat.add_zero]
      exact hinv.counts i
  · have := hinv.budget
    omega

/-- A remove of one row, from a table whose count it decrements and which goes with its last row,
keeps the invariant. -/
theorem TableInv.remove (hinv : TableInv n s) {tab : TableIdObject}
    {tables : IndexedTable TableIdObject TableIdObject.clash}
    (htab : s.tables.lookup TableIdObject.id tab.id = some tab)
    (htables : modifyCount s.tables tab (· - 1) = .ok tables) (ht : t.tables = tables)
    (hnext : t.next_table_id = s.next_table_id)
    (hrows : ∀ i, rowsIn t i + (if tab.id = i then 1 else 0) = rowsIn s i)
    (htotal : totalRows t + 1 = totalRows s)
    (h : (if tab.count - 1 == 0 then removeTable ctx t tab else pure t) = .ok s') :
    TableInv n s' := by
  obtain ⟨hcount, hpos⟩ := hinv.count_eq htab
  obtain ⟨⟨l₁, l₂, hr₁, hr₂⟩, hlook⟩ := modifyCount_ok htab htables
  have hone : 1 ≤ tab.count := by
    rw [UInt32.le_iff_toNat_le, UInt32.toNat_one]
    omega
  -- the table's count, one lower, is its rows
  have hdec : (tab.count - 1).toNat = rowsIn t tab.id := by
    have := hrows tab.id
    rw [if_pos rfl] at this
    rw [UInt32.toNat_sub_of_le _ _ hone, UInt32.toNat_one]
    omega
  have hother : ∀ i, i ≠ tab.id → rowsIn t i = rowsIn s i := fun i hi => by
    have := hrows i
    rw [if_neg (Ne.symm hi)] at this
    omega
  have hfresh : ∀ r ∈ t.tables.rows, r.id < t.next_table_id := fun r hr => by
    rw [hnext]
    exact modifyCount_fresh hinv.fresh htab htables r (ht ▸ hr)
  have hbudget : totalRows t + n < 2 ^ 32 := by
    have := hinv.budget
    omega
  split_ifs at h with hzero
  · -- the last row: the table goes
    obtain ⟨ram, rfl⟩ := removeTable_ok h
    have hzero' : rowsIn t tab.id = 0 := by
      have h0 : tab.count - 1 = 0 := by simpa using hzero
      rw [← hdec, h0]
      rfl
    refine ⟨fun r hr => hfresh r (List.mem_of_mem_filter hr), fun i => ?_, hbudget⟩
    show ((t.tables.remove (·.id == tab.id)).lookup TableIdObject.id i).map _ = _
    rw [lookup_remove]
    by_cases hi : i = tab.id
    · subst hi
      rw [if_pos rfl]
      show none = if rowsIn t tab.id = 0 then none else some (rowsIn t tab.id)
      rw [if_pos hzero']
    · rw [if_neg hi, ht, hlook i, if_neg hi, hinv.counts i]
      show _ = if rowsIn t i = 0 then none else some (rowsIn t i)
      rw [hother i hi]
  · -- rows remain: the table stays with its count one lower
    cases h
    refine ⟨hfresh, fun i => ?_, hbudget⟩
    rw [ht, hlook i]
    by_cases hi : i = tab.id
    · subst hi
      have hne : rowsIn s' tab.id ≠ 0 := by
        rw [← hdec]
        intro h0
        apply hzero
        have h1 : tab.count - 1 = 0 := UInt32.toNat_inj.1 (by simpa using h0)
        simp [h1]
      rw [if_pos rfl, Option.map_some, hdec, if_neg hne]
    · rw [if_neg hi, hinv.counts i, hother i hi]

/-- `db_store_i64` adds a row to the table that it finds or creates. -/
theorem dbStoreI64_tableInv (hinv : TableInv (1 + n) s) {code scope table payer : Name}
    {id : UInt64} {buffer : List UInt8}
    (h : dbStoreI64 ctx s code scope table payer id buffer = .ok s') : TableInv n s' := by
  simp only [dbStoreI64, bind_eq_ok, eosAssert_eq_ok, liftDb_eq_ok] at h
  obtain ⟨⟨s₁, tab⟩, hft, -, -, key_values, hkv, tables, htables, hfin⟩ := h
  have hT := hinv.store (t := { s₁ with key_values, tables }) hft htables rfl rfl
    (fun i => rowSum_create_kv _ _ hkv) (rowSum_create_kv _ _ hkv)
  obtain ⟨ram, rfl⟩ := updateDbUsage_rows hfin
  exact hT.of_same rfl rfl rfl rfl

/-- `db_update_i64` keeps each row in its table. -/
theorem dbUpdateI64_tableInv (hinv : TableInv n s) {code scope table payer : Name} {id : UInt64}
    {buffer : List UInt8} (h : dbUpdateI64 ctx s code scope table id payer buffer = .ok s') :
    TableInv n s' := by
  simp only [dbUpdateI64, bind_eq_ok, eosAssert_eq_ok, liftDb_eq_ok] at h
  obtain ⟨⟨tab, obj⟩, hfind, -, -, s₁, hs₁, key_values, hkv, hfin⟩ := h
  cases hfin
  obtain ⟨-, hobj⟩ := findRow_ok hfind
  rw [← (mem_of_lookup hobj).2] at hobj
  obtain ⟨⟨ram, rfl⟩, -⟩ := ramBalance_of_recharge hs₁
  exact hinv.of_same rfl rfl (funext fun i => rowSum_modify_kv _ _ (hobj :) hkv rfl)
    (rowSum_modify_kv _ _ (hobj :) hkv rfl)

/-- `db_remove_i64` takes a row from its table, which goes with its last row. -/
theorem dbRemoveI64_tableInv (hinv : TableInv n s) {code scope table : Name} {id : UInt64}
    (h : dbRemoveI64 ctx s code scope table id = .ok s') : TableInv n s' := by
  simp only [dbRemoveI64, bind_eq_ok, eosAssert_eq_ok] at h
  obtain ⟨⟨tab, obj⟩, hfind, -, -, s₁, hs₁, tables, htables, hfin⟩ := h
  obtain ⟨htab, hobj⟩ := findRow_ok hfind
  have hkey := (mem_of_lookup hobj).2
  rw [← hkey] at hobj
  obtain ⟨ram, rfl⟩ := updateDbUsage_rows hs₁
  have hinv₁ : TableInv n { s with ram } := hinv.of_same rfl rfl rfl rfl
  have ht_id : obj.t_id = tab.id := congrArg Prod.fst hkey
  refine hinv₁.remove (findTable_lookup_id htab :) htables ?_ ?_ (fun i => ?_) ?_ hfin
  · rfl
  · rfl
  · have := rowSum_remove_kv (s := { s with ram }) (fun o => if o.t_id = i then 1 else 0)
      (fun _ o => if o.t_id = i then 1 else 0) (hobj :)
    simp only [ht_id] at this
    exact this
  · exact rowSum_remove_kv (s := { s with ram }) (fun _ => 1) (fun _ _ => 1) (hobj :)

namespace GenericIndex

/-- `generic_index::store` adds an object to the table that it finds or creates. -/
theorem store_tableInv (hinv : TableInv (1 + n) s) {k : SecondaryKind} {scope table payer : Name}
    {id : UInt64} {secondary : k.Key} (h : store ctx s k scope table payer id secondary = .ok s') :
    TableInv n s' := by
  simp only [store, bind_eq_ok, eosAssert_eq_ok, liftDb_eq_ok] at h
  obtain ⟨-, -, ⟨s₁, tab⟩, hft, index, hidx, tables, htables, hfin⟩ := h
  have hT := hinv.store (t := { setIndex s₁ k index with tables }) hft htables rfl rfl
    (fun i => rowSum_create_sec _ _ hidx) (rowSum_create_sec _ _ hidx)
  obtain ⟨ram, rfl⟩ := updateDbUsage_rows hfin
  exact hT.of_same rfl rfl rfl rfl

/-- `generic_index::update` keeps each object in its table. -/
theorem update_tableInv (hinv : TableInv n s) {k : SecondaryKind} {code scope table payer : Name}
    {id : UInt64} {secondary : k.Key}
    (h : update ctx s k code scope table id payer secondary = .ok s') : TableInv n s' := by
  simp only [update, bind_eq_ok, eosAssert_eq_ok, liftDb_eq_ok] at h
  obtain ⟨⟨tab, obj⟩, hfind, -, -, s₁, hs₁, index, hidx, hfin⟩ := h
  cases hfin
  obtain ⟨-, hobj⟩ := findRow_ok hfind
  rw [← (mem_of_lookup hobj).2] at hobj
  obtain ⟨⟨ram, rfl⟩, -⟩ := ramBalance_of_repay hs₁
  exact hinv.of_same rfl rfl (funext fun i => rowSum_modify_sec _ _ (hobj :) hidx rfl)
    (rowSum_modify_sec _ _ (hobj :) hidx rfl)

/-- `generic_index::remove` takes an object from its table, which goes with its last row. -/
theorem remove_tableInv (hinv : TableInv n s) {k : SecondaryKind} {code scope table : Name}
    {id : UInt64} (h : remove ctx s k code scope table id = .ok s') : TableInv n s' := by
  simp only [remove, bind_eq_ok, eosAssert_eq_ok] at h
  obtain ⟨⟨tab, obj⟩, hfind, s₁, hs₁, -, -, tables, htables, hfin⟩ := h
  obtain ⟨htab, hobj⟩ := findRow_ok hfind
  have hkey := (mem_of_lookup hobj).2
  rw [← hkey] at hobj
  obtain ⟨ram, rfl⟩ := updateDbUsage_rows hs₁
  have hinv₁ : TableInv n { s with ram } := hinv.of_same rfl rfl rfl rfl
  have ht_id : obj.t_id = tab.id := congrArg Prod.fst hkey
  refine hinv₁.remove (findTable_lookup_id htab :) htables ?_ ?_ (fun i => ?_) ?_ hfin
  · rfl
  · rfl
  · have := rowSum_remove_sec (s := { s with ram }) (fun o => if o.t_id = i then 1 else 0)
      (fun _ o => if o.t_id = i then 1 else 0) (hobj :)
    simp only [ht_id] at this
    exact this
  · exact rowSum_remove_sec (s := { s with ram }) (fun _ => 1) (fun _ _ => 1) (hobj :)

end GenericIndex

/-- The rows that a call may add: one for a store. -/
def DbCall.stores : DbCall → Nat
  | .db_store_i64 .. => 1
  | .idx_store .. => 1
  | _ => 0

/-- The rows that an action may add. -/
def DbAction.stores (act : DbAction) : Nat := (act.calls.map DbCall.stores).sum

/-- Each call spends its stores from the budget. -/
theorem dbCall_tableInv {c : DbCall} (hinv : TableInv (c.stores + n) s)
    (h : dbCall ctx s c = .ok s') : TableInv n s' := by
  cases c with
  | db_store_i64 => exact dbStoreI64_tableInv (by simpa [DbCall.stores, Nat.add_comm] using hinv) h
  | db_update_i64 => exact dbUpdateI64_tableInv (by simpa [DbCall.stores] using hinv) h
  | db_remove_i64 => exact dbRemoveI64_tableInv (by simpa [DbCall.stores] using hinv) h
  | idx_store =>
    exact GenericIndex.store_tableInv (by simpa [DbCall.stores, Nat.add_comm] using hinv) h
  | idx_update => exact GenericIndex.update_tableInv (by simpa [DbCall.stores] using hinv) h
  | idx_remove => exact GenericIndex.remove_tableInv (by simpa [DbCall.stores] using hinv) h

/-- A committed action spends its stores from the budget. -/
theorem dbStep_tableInv {act : DbAction} (hinv : TableInv (act.stores + n) s)
    (h : dbStep s act = .ok s') : TableInv n s' :=
  Machine.foldlM_invariant TableInv DbCall.stores (fun _ _ _ _ ht hc => dbCall_tableInv ht hc)
    act.calls n hinv h

/-- A run whose stores the budget covers keeps the invariant. -/
theorem run_tableInv (acts : List DbAction) (hinv : TableInv ((acts.map DbAction.stores).sum + n) s) :
    TableInv n (Machine.run dbStep s acts) :=
  Machine.run_invariant_budget TableInv DbAction.stores (fun _ _ _ hmn h => h.mono hmn)
    (fun _ _ _ _ ht h => dbStep_tableInv ht h) acts n hinv

end Invariant

/-! ## A table whose count wraps

`eosio` storing rows with empty values in its own table `eosio`, one action each: every store
succeeds, and after `2^32` of them the table's count is zero while it has `2^32` rows. -/

section Wrap

/-- The context of an action of `eosio` on its own tables. -/
def eosioContext : DbContext := ⟨⟨systemAccountName, systemAccountName, []⟩, false, false, false⟩

/-- `eosio` storing row `n`, with an empty value, in its table `eosio`. -/
def storeNth (n : Nat) : DbAction :=
  ⟨eosioContext, [.db_store_i64 systemAccountName systemAccountName systemAccountName n.toUInt64 []]⟩

/-- The table `eosio` with `n` rows and its count. -/
def StoredRows (n : Nat) (s : DbState) : Prop :=
  s.tables.rows = [⟨0, systemAccountName, systemAccountName, systemAccountName, systemAccountName,
    n.toUInt32⟩] ∧
  s.key_values.rows = (List.range n).map (fun j => ⟨0, j.toUInt64, systemAccountName, []⟩) ∧
  ∀ k, (s.secondaries k).rows = []

/-- A charge to the receiver needs no authorization. -/
theorem updateDbUsage_receiver {ctx : DbContext} {s : DbState} {payer : Name} {delta : Int}
    (h : payer = ctx.receiver) :
    updateDbUsage ctx s payer delta = .ok { s with ram := addRamUsage s.ram payer delta } := by
  subst h
  simp [updateDbUsage]
  rfl

/-- The one store of `storeNth`, as the action's step. -/
theorem dbStep_storeNth (s : DbState) (n : Nat) :
    dbStep s (storeNth n) = dbStoreI64 eosioContext s systemAccountName systemAccountName
      systemAccountName systemAccountName n.toUInt64 [] := by
  simp only [dbStep, storeNth, List.foldlM_cons, List.foldlM_nil, dbCall, eosioContext]
  cases dbStoreI64 _ s _ _ _ _ _ _ <;> rfl

/-- A store of a row of the receiver's, into a table that `find_or_create_table` returns, whose
key is free. -/
theorem dbStoreI64_receiver {ctx : DbContext} {s s₁ : DbState} {scope table : Name} {id : UInt64}
    {buffer : List UInt8} {tab : TableIdObject}
    {key_values : IndexedTable KeyValueObject KeyValueObject.clash}
    {tables : IndexedTable TableIdObject TableIdObject.clash}
    (hft : findOrCreateTable ctx s ctx.receiver scope table ctx.receiver = .ok (s₁, tab))
    (hne : ctx.receiver ≠ ⟨0⟩)
    (hkv : s₁.key_values.create ⟨tab.id, id, ctx.receiver, buffer⟩ = some key_values)
    (htables : modifyCount s₁.tables tab (· + 1) = .ok tables) :
    dbStoreI64 ctx s ctx.receiver scope table ctx.receiver id buffer = .ok
      { s₁ with
        key_values, tables
        ram := addRamUsage s₁.ram ctx.receiver (buffer.length + billableSizeKeyValueObject) } := by
  simp only [dbStoreI64, bind, Except.bind, hft, eosAssert, bne_iff_ne, ne_eq, hne, not_false_eq_true,
    if_true, liftDb, hkv, htables]
  exact updateDbUsage_receiver rfl

/-- The rows `0, …, n - 1` of `eosio`'s table. -/
def eosioRow (j : Nat) : KeyValueObject := ⟨0, j.toUInt64, systemAccountName, []⟩

/-- `eosio`'s store of row `n` into its one table, which holds rows `0, …, n - 1`, succeeds: the
row is new, and the count goes up. -/
theorem storeNth_into {s s₁ : DbState} {tab : TableIdObject} {n : Nat} (hn : n < 2 ^ 64)
    (hft : findOrCreateTable eosioContext s systemAccountName systemAccountName systemAccountName
      systemAccountName = .ok (s₁, tab))
    (hid : tab.id = 0) (htab : s₁.tables.rows = [tab])
    (hkv : s₁.key_values.rows = (List.range n).map eosioRow) :
    ∃ s', dbStep s (storeNth n) = .ok s' ∧ s'.tables.rows = [{ tab with count := tab.count + 1 }] ∧
      s'.key_values.rows = (List.range (n + 1)).map eosioRow ∧ s'.secondaries = s₁.secondaries := by
  -- the new row's key is free: the rows so far have smaller primary keys
  have hfresh : ∀ r ∈ s₁.key_values.rows, ¬ KeyValueObject.clash r ⟨tab.id, n.toUInt64,
      systemAccountName, []⟩ := by
    rw [hkv, hid]
    intro r hr hclash
    obtain ⟨j, hj, rfl⟩ := List.mem_map.1 hr
    rw [List.mem_range] at hj
    have hkey : j.toUInt64 = n.toUInt64 := congrArg Prod.snd hclash
    have := congrArg UInt64.toNat hkey
    simp at this
    omega
  obtain ⟨key_values, hcreate, hkvrows⟩ := create_of_fresh hfresh
  -- the count of the one table goes up
  have hsplit : SplitAt (fun t : TableIdObject => t.id == tab.id) s₁.tables.rows [] tab [] :=
    ⟨by rw [htab]; rfl, by simp, by simp, by simp⟩
  obtain ⟨tables, hmod, htrows⟩ := modify_split (fun t => { t with count := t.count + 1 }) hsplit
    (by simp) (by simp)
  have hmod' : modifyCount s₁.tables tab (· + 1) = .ok tables := by
    simp only [modifyCount, hmod, liftDb]
  refine ⟨_, (dbStep_storeNth s n).trans (dbStoreI64_receiver hft (by decide) hcreate hmod'),
    htrows, ?_, rfl⟩
  show key_values.rows = _
  rw [hkvrows, hkv, List.range_succ, List.map_append, hid]
  rfl

/-- After the first store, `eosio`'s table has its first row. -/
theorem storeNth_first : ∃ s, dbStep DbState.empty (storeNth 0) = .ok s ∧ StoredRows 1 s := by
  let tab : TableIdObject := ⟨0, systemAccountName, systemAccountName, systemAccountName,
    systemAccountName, 0⟩
  -- the table is created, charged to `eosio` itself
  have hft : findOrCreateTable eosioContext DbState.empty systemAccountName systemAccountName
      systemAccountName systemAccountName = .ok ({ DbState.empty with
        ram := addRamUsage DbState.empty.ram systemAccountName billableSizeTableIdObject,
        tables := ⟨[tab], List.pairwise_singleton _ _⟩, next_table_id := 1 }, tab) := by
    rfl
  obtain ⟨s', hstep, htab, hkv, hsec⟩ := storeNth_into (n := 0) (by norm_num) hft rfl rfl rfl
  exact ⟨s', hstep, by rw [htab]; rfl, hkv, fun k => by rw [hsec]; rfl⟩

/-- After a further store, `eosio`'s table has one row more. -/
theorem storeNth_next {s : DbState} {n : Nat} (hs : StoredRows n s) (hn : n < 2 ^ 64) :
    ∃ s', dbStep s (storeNth n) = .ok s' ∧ StoredRows (n + 1) s' := by
  obtain ⟨htab, hkv, hsec⟩ := hs
  have hfind : findTable s systemAccountName systemAccountName systemAccountName =
      some ⟨0, systemAccountName, systemAccountName, systemAccountName, systemAccountName,
        n.toUInt32⟩ := by
    simp [findTable, lookup, find?, htab, TableIdObject.key]
  have hft : findOrCreateTable eosioContext s systemAccountName systemAccountName systemAccountName
      systemAccountName = .ok (s, ⟨0, systemAccountName, systemAccountName, systemAccountName,
        systemAccountName, n.toUInt32⟩) := by
    simp only [findOrCreateTable, hfind]
    rfl
  obtain ⟨s', hstep, htab', hkv', hsec'⟩ := storeNth_into hn hft rfl htab hkv
  refine ⟨s', hstep, ?_, hkv', fun k => by rw [hsec']; exact hsec k⟩
  rw [htab']
  simp

/-- The run of the first `n` stores. -/
theorem run_storeNth (n : Nat) (h1 : 1 ≤ n) (hn : n ≤ 2 ^ 64) :
    StoredRows n (Machine.run dbStep DbState.empty ((List.range n).map storeNth)) := by
  induction n with
  | zero => omega
  | succ n ih =>
    rw [List.range_succ, List.map_append, Machine.run_append]
    rcases Nat.eq_zero_or_pos n with rfl | hpos
    · obtain ⟨s, hstep, hs⟩ := storeNth_first
      simpa [Machine.commit_of_ok hstep] using hs
    · obtain ⟨s, hstep, hs⟩ := storeNth_next (ih hpos (by omega)) (by omega)
      simpa [Machine.commit_of_ok hstep] using hs

/-- What the table of `n` stored rows counts, and how many rows point to it. -/
theorem StoredRows.count_rows {n : Nat} {s : DbState} (hs : StoredRows n s) :
    (findTable s systemAccountName systemAccountName systemAccountName).map (·.count) =
      some n.toUInt32 ∧ rowsIn s 0 = n := by
  obtain ⟨htab, hkv, hsec⟩ := hs
  constructor
  · simp [findTable, lookup, find?, htab, TableIdObject.key]
  · simp [rowsIn, rowSum, sumBy, hkv, hsec, SecondaryKind.all, Function.comp_def]

end Wrap

/-- After `2^32` stores into `eosio`'s table, its count has wrapped to zero while it has `2^32`
rows. -/
theorem table_count_wraps :
    let s := Machine.run dbStep DbState.empty ((List.range (2 ^ 32)).map storeNth)
    (findTable s systemAccountName systemAccountName systemAccountName).map (·.count) = some 0 ∧
      rowsIn s 0 = 2 ^ 32 := by
  obtain ⟨hcount, hrows⟩ := (run_storeNth (2 ^ 32) (by norm_num) (by norm_num)).count_rows
  exact ⟨hcount.trans rfl, hrows⟩

/-! ## Over every run -/

/-- Over every run of actions from no table, each committed or rolled back: what
`update_db_usage` has charged each account is what the rows and the tables that it pays for bill,
and when the run stores fewer than `2^32` rows, each table counts the rows that point to it and is
there exactly when it has one. -/
theorem contract_table_bookkeeping (acts : List DbAction) :
    let s := Machine.run dbStep DbState.empty acts
    (∀ a, s.ram a = billed s a) ∧
      ((acts.map DbAction.stores).sum < 2 ^ 32 →
        ∀ i, (s.tables.lookup TableIdObject.id i).map (·.count.toNat) =
          if rowsIn s i = 0 then none else some (rowsIn s i)) := by
  intro s
  refine ⟨fun a => ?_, fun hstores => ?_⟩
  · -- nothing is charged or billed at the start
    have h := run_ramBalance (s := DbState.empty) acts a
    have h0 : ramBalance DbState.empty a = 0 := by
      simp [ramBalance, billed, rowSum, DbState.empty, SecondaryKind.all]
    rw [h0] at h
    simp only [ramBalance] at h
    linarith
  · -- no table and no row at the start, with the run's stores as the budget
    have hinv₀ : TableInv ((acts.map DbAction.stores).sum + 0) DbState.empty := by
      refine ⟨fun t ht => by simp [DbState.empty] at ht, fun i => ?_, ?_⟩
      · simp [rowsIn, rowSum, DbState.empty, SecondaryKind.all, lookup, find?]
      · simpa [totalRows, rowSum, DbState.empty, SecondaryKind.all] using hstores
    exact (run_tableInv acts hinv₀).counts

/-- The table of id `0` after one store from no table. -/
theorem contract_table_counts_one_store :
    ((Machine.run dbStep DbState.empty [storeNth 0]).tables.lookup TableIdObject.id 0).map
        (·.count.toNat) =
      if rowsIn (Machine.run dbStep DbState.empty [storeNth 0]) 0 = 0 then none
      else some (rowsIn (Machine.run dbStep DbState.empty [storeNth 0]) 0) :=
  (contract_table_bookkeeping [storeNth 0]).2 (by decide) 0

end InfraBlockchain.Contract
