import InfraBlockchain.Chain.ForkDatabase
import InfraBlockchain.Lib.Worklist
import Mathlib.Data.List.MinMax
import Mathlib.Data.Prod.Lex

/-!
# The fork database as a state machine

`fork_database_impl` keeps the blocks that are not yet irreversible in a multi-index container,
above a `root` that is not in it, and a `head`. Besides the unique `by_block_id` index that the
branch walks use (`ForkDatabase`), it has two more: `by_prev`, ordered by `header.previous`, which
`remove` walks to find the blocks built on a block, and `by_lib_block_num`, whose first block is
the candidate head: validated blocks first, then the greater `dpos_irreversible_blocknum`, the
greater `block_num` and the smaller id (`libKey`).

The calls are `reset`, `add`, `mark_valid`, `remove`, `advance_root` and
`rollback_head_to_root`. `remove(id)` drains a queue from `id`, each block replaced by the blocks
built on it, raising if the queue reaches the head, and then erases every block of the queue
(`Worklist.drain`). `advance_root(id)` walks from the new root down to the old root, erases the
new root on its own, and removes every block of that walk with the blocks built on it. These loops
are `while` loops over the index: each has a fuel of one round more than the index has blocks,
and `none` is a loop that has not ended within it, which on the databases that the calls reach it
never does.

Blocks come from `block_header_state::next`: `block_header::id` stores a block's number in its
id, and `block_num()` is one more than the number stored in `header.previous` (`WellFormed`,
over `num_from_id`). On such blocks every call keeps the database a tree below its root whose
head is the root or a validated block that no validated block is preferred to (`Invariant`).
-/

namespace InfraBlockchain.Chain

open ParentLinks Worklist

variable {I : Type} [LinearOrder I]

/-- A `block_state` of the fork database: the header fields that the branch walks read, the
`dpos_irreversible_blocknum` that orders the heads, and `validated`. -/
structure ForkBlockState (I : Type) extends BlockState I where
  /-- `dpos_irreversible_blocknum`. -/
  dpos_irreversible_blocknum : UInt32
  /-- `validated`, which `block_state_is_valid` reads. -/
  validated : Bool
  deriving DecidableEq, Repr

/-- Two blocks with one id in the unique `by_block_id` index. -/
def ForkBlockState.clash (a b : ForkBlockState I) : Prop := a.id = b.id

instance : DecidableRel (ForkBlockState.clash (I := I)) := fun a b =>
  inferInstanceAs (Decidable (a.id = b.id))

/-- `first_preferred(lhs, rhs)`: `std::tie(lhs.dpos_irreversible_blocknum, lhs.block_num) >
std::tie(rhs.dpos_irreversible_blocknum, rhs.block_num)`. -/
def firstPreferred (lhs rhs : ForkBlockState I) : Bool :=
  rhs.dpos_irreversible_blocknum < lhs.dpos_irreversible_blocknum ||
    (lhs.dpos_irreversible_blocknum == rhs.dpos_irreversible_blocknum &&
      rhs.block_num < lhs.block_num)

/-- The key of `by_lib_block_num` in an order whose least block is the first of the index:
`composite_key_compare<greater<bool>, greater<uint32_t>, greater<uint32_t>, sha256_less>` over
`block_state_is_valid`, `dpos_irreversible_blocknum`, `block_num` and `id`. -/
def libKey (b : ForkBlockState I) : Lex (Bool × Lex (ℕᵒᵈ × Lex (ℕᵒᵈ × I))) :=
  toLex (!b.validated, toLex (OrderDual.toDual b.dpos_irreversible_blocknum.toNat,
    toLex (OrderDual.toDual b.block_num.toNat, b.id)))

/-- The fields of `fork_database_impl`: the blocks by their unique `by_block_id` index, the root,
which is not in the index, and the head. -/
structure ForkDatabaseImpl (I : Type) where
  /-- `index`. -/
  index : IndexedTable (ForkBlockState I) ForkBlockState.clash
  /-- `root`. -/
  root : ForkBlockState I
  /-- `head`. -/
  head : ForkBlockState I

/-- A loop-free computation as a step of a computation whose loops may not end. -/
def terminating {α : Type} (x : Except Exception α) : ExceptT Exception Option α :=
  ExceptT.mk (some x)

namespace ForkDatabaseImpl

/-- `fork_database::get_block`: the block of the index with the id. -/
def getBlock (db : ForkDatabaseImpl I) (id : I) : Option (ForkBlockState I) :=
  db.index.find? fun b => b.id = id

/-- `fork_database::get_block_header`: the root, or the block of the index with the id. -/
def getBlockHeader (db : ForkDatabaseImpl I) (id : I) : Option (ForkBlockState I) :=
  if db.root.id = id then some db.root else db.getBlock id

/-- `index.get<by_lib_block_num>().begin()`, when the index has a block. -/
def libBegin (db : ForkDatabaseImpl I) : Option (ForkBlockState I) :=
  db.index.rows.argmin libKey

/-- The index with `validated` set to `v` on the blocks that `p` selects, as `modify` through
`by_block_id` sets it; no id changes. -/
def setValidated (index : IndexedTable (ForkBlockState I) ForkBlockState.clash)
    (p : ForkBlockState I → Bool) (v : Bool) :
    IndexedTable (ForkBlockState I) ForkBlockState.clash :=
  index.map (fun b => if p b then { b with validated := v } else b) fun a b => by
    unfold ForkBlockState.clash
    split_ifs <;> exact id

/-- The database that `fork_database::reset(root_bhs)` leaves, whatever it held: an empty index
under the root, marked validated, which is also the head. -/
def reset (root_bhs : ForkBlockState I) : ForkDatabaseImpl I :=
  let root := { root_bhs with validated := true }
  { index := IndexedTable.empty, root := root, head := root }

/-- `fork_database_impl::add(n, ignore_duplicate, validate = false, ...)`, as
`fork_database::add` calls it: the previous block must be the root or in the index, a block whose
id is there already is ignored or raises, and the first block of `by_lib_block_num` becomes the
head when it is validated. -/
def add (db : ForkDatabaseImpl I) (n : ForkBlockState I) (ignore_duplicate : Bool) :
    Except Exception (ForkDatabaseImpl I) := do
  let _ ← liftDb .unlinkable_block_exception "unlinkable block" (db.getBlockHeader n.previous)
  match db.index.create n with
  | none =>
    if ignore_duplicate then return db
    throw ⟨.fork_database_exception, "duplicate block added"⟩
  | some index =>
    let db' := { db with index := index }
    match db'.libBegin with
    | some candidate => return if candidate.validated then { db' with head := candidate } else db'
    | none => return db'

/-- `fork_database::mark_valid(h)`: nothing for a validated block; otherwise the block of the
index with its id is marked validated, and the first block of `by_lib_block_num` becomes the head
when it is preferred to the head. -/
def markValid (db : ForkDatabaseImpl I) (h : ForkBlockState I) :
    Except Exception (ForkDatabaseImpl I) := do
  if h.validated then return db
  let _ ← liftDb .fork_database_exception "block state not in fork database; cannot mark as valid"
    (db.getBlock h.id)
  let db' := { db with index := setValidated db.index (fun b => b.id = h.id) true }
  match db'.libBegin with
  | some candidate =>
    return if firstPreferred candidate db.head then { db' with head := candidate } else db'
  | none => return db'

/-- `fork_database::rollback_head_to_root`: every block of the index unvalidated, the root the
head. -/
def rollbackHeadToRoot (db : ForkDatabaseImpl I) : ForkDatabaseImpl I :=
  { db with index := setValidated db.index (fun _ => true) false, head := db.root }

/-- The blocks that `previdx.lower_bound(id)` walks through while their `header.previous` is
`id`, by their ids, in the `by_prev` order. -/
def children (db : ForkDatabaseImpl I) (id : I) : List I :=
  (db.index.rows.filter fun b => b.previous = id).map (·.id)

/-- The error of `remove` when its queue reaches the head. -/
def removeHeadError : Exception :=
  ⟨.fork_database_exception,
    "removing the block and its descendants would remove the current head block"⟩

/-- `fork_database::remove(id)`: the loop over `remove_queue`, which checks that each block is not
the head and queues the blocks built on it, and then the erasure of every block of the queue. -/
def remove (db : ForkDatabaseImpl I) (id : I) : ExceptT Exception Option (ForkDatabaseImpl I) := do
  let remove_queue ← ExceptT.mk
    (drain db.children (fun x => x ≠ db.head.id) removeHeadError (db.index.rows.length + 1) [] [id])
  return { db with index := db.index.remove fun b => b.id ∈ remove_queue }

/-- The loop of `advance_root` that collects `blocks_to_remove`: the `header.previous` of each
block from the new root down, until one is not in the index, which must be the root's id. -/
def ancestorIds (db : ForkDatabaseImpl I) :
    Nat → ForkBlockState I → ExceptT Exception Option (List I)
  | 0, _ => ExceptT.lift none
  | fuel + 1, b =>
    match db.getBlock b.previous with
    | some p => do
      let rest ← db.ancestorIds fuel p
      return b.previous :: rest
    | none => do
      terminating (eosAssert (b.previous = db.root.id) .fork_database_exception
        "invariant violation: orphaned branch was present in forked database")
      return [b.previous]

/-- `fork_database::advance_root(id)`: the new root must be a validated block of the index; it is
erased on its own, so that the blocks built on it stay, and every block of `blocks_to_remove` is
removed with the blocks built on it. -/
def advanceRoot (db : ForkDatabaseImpl I) (id : I) :
    ExceptT Exception Option (ForkDatabaseImpl I) := do
  let new_root ← terminating (liftDb .fork_database_exception
    "cannot advance root to a block that does not exist in the fork database" (db.getBlock id))
  terminating (eosAssert new_root.validated .fork_database_exception
    "cannot advance root to a block that has not yet been validated")
  let blocks_to_remove ← db.ancestorIds (db.index.rows.length + 1) new_root
  let db₁ := { db with index := db.index.remove fun b => b.id = id }
  let db₂ ← blocks_to_remove.foldlM (fun (d : ForkDatabaseImpl I) block_id => d.remove block_id) db₁
  return { db₂ with root := new_root }

/-- `fork_database::pending_head`: the first block of `by_lib_block_num` that is not validated,
when it is preferred to the head, and the head otherwise. -/
def pendingHead (db : ForkDatabaseImpl I) : ForkBlockState I :=
  match (db.index.rows.filter fun b => !b.validated).argmin libKey with
  | some b => if firstPreferred b db.head then b else db.head
  | none => db.head

/-- The loop of `fetch_branch`: from the block found, every block whose number is at most
`trim_after_block_num`, going down through `get_block`. -/
def fetchBranchLoop (db : ForkDatabaseImpl I) (trim_after_block_num : UInt32) :
    Nat → Option (ForkBlockState I) → Option (List (ForkBlockState I))
  | _, none => some []
  | 0, some _ => none
  | fuel + 1, some s => do
    let rest ← db.fetchBranchLoop trim_after_block_num fuel (db.getBlock s.previous)
    return if s.block_num ≤ trim_after_block_num then s :: rest else rest

/-- `fork_database::fetch_branch(h, trim_after_block_num)`. -/
def fetchBranch (db : ForkDatabaseImpl I) (h : I) (trim_after_block_num : UInt32) :
    Option (List (ForkBlockState I)) :=
  db.fetchBranchLoop trim_after_block_num (db.index.rows.length + 1) (db.getBlock h)

/-- The loop of `search_on_branch`: the first block at `block_num`, going down through
`get_block`, or none. -/
def searchOnBranchLoop (db : ForkDatabaseImpl I) (block_num : UInt32) :
    Nat → Option (ForkBlockState I) → Option (Option (ForkBlockState I))
  | _, none => some none
  | 0, some _ => none
  | fuel + 1, some s =>
    if s.block_num = block_num then some (some s)
    else db.searchOnBranchLoop block_num fuel (db.getBlock s.previous)

/-- `fork_database::search_on_branch(h, block_num)`. -/
def searchOnBranch (db : ForkDatabaseImpl I) (h : I) (block_num : UInt32) :
    Option (Option (ForkBlockState I)) :=
  db.searchOnBranchLoop block_num (db.index.rows.length + 1) (db.getBlock h)

/-- `EOS_ASSERT(block, fork_db_block_not_found, ...)` on a lookup. -/
def found (b : Option (ForkBlockState I)) : ExceptT Exception Option (ForkBlockState I) :=
  ExceptT.mk (some (liftDb .fork_db_block_not_found "block ${id} does not exist" b))

/-- The first two loops of `fetch_branch_from` on the blocks of the index: while the block is
above `block_num`, it is pushed on the branch and replaced by its parent, found as
`get_block_header` finds it. The pushed blocks and the last block. -/
def descendTo (db : ForkDatabaseImpl I) (block_num : UInt32) :
    Nat → ForkBlockState I →
      ExceptT Exception Option (List (ForkBlockState I) × ForkBlockState I)
  | 0, b => if b.block_num > block_num then ExceptT.lift none else pure ([], b)
  | fuel + 1, b =>
    if b.block_num > block_num then do
      let p ← found (db.getBlockHeader b.previous)
      let r ← descendTo db block_num fuel p
      pure (b :: r.1, r.2)
    else pure ([], b)

/-- The third loop of `fetch_branch_from` on the blocks of the index: while the two blocks have
different parents, both are pushed on their branches and replaced by their parents, found by
`get_block`; then both are pushed once more. -/
def lockStep (db : ForkDatabaseImpl I) :
    Nat → ForkBlockState I → ForkBlockState I →
      ExceptT Exception Option (List (ForkBlockState I) × List (ForkBlockState I))
  | 0, b₁, b₂ => if b₁.previous ≠ b₂.previous then ExceptT.lift none else pure ([b₁], [b₂])
  | fuel + 1, b₁, b₂ =>
    if b₁.previous ≠ b₂.previous then do
      let p₁ ← found (db.getBlock b₁.previous)
      let p₂ ← found (db.getBlock b₂.previous)
      let r ← lockStep db fuel p₁ p₂
      pure (b₁ :: r.1, b₂ :: r.2)
    else pure ([b₁], [b₂])

/-- `fork_database::fetch_branch_from`, each loop with `fuel`, returning the blocks of the index
themselves, as the controller uses them. -/
def fetchBranchFrom (fuel : Nat) (db : ForkDatabaseImpl I) (first second : I) :
    ExceptT Exception Option (List (ForkBlockState I) × List (ForkBlockState I)) := do
  let first_branch ← found (db.getBlockHeader first)
  let second_branch ← found (db.getBlockHeader second)
  let r₁ ← db.descendTo second_branch.block_num fuel first_branch
  let r₂ ← db.descendTo r₁.2.block_num fuel second_branch
  if r₁.2.id = r₂.2.id then return (r₁.1, r₂.1)
  let r₃ ← db.lockStep fuel r₁.2 r₂.2
  return (r₁.1 ++ r₃.1, r₂.1 ++ r₃.2)

end ForkDatabaseImpl

/-- A call of the fork database. -/
inductive ForkCall (I : Type)
  | reset (root_bhs : ForkBlockState I)
  | add (n : ForkBlockState I) (ignore_duplicate : Bool)
  | markValid (h : ForkBlockState I)
  | remove (id : I)
  | advanceRoot (id : I)
  | rollbackHeadToRoot

namespace ForkDatabaseImpl

/-- One call. -/
def step (db : ForkDatabaseImpl I) : ForkCall I → ExceptT Exception Option (ForkDatabaseImpl I)
  | .reset root_bhs => pure (reset root_bhs)
  | .add n ignore_duplicate => terminating (db.add n ignore_duplicate)
  | .markValid h => terminating (db.markValid h)
  | .remove id => db.remove id
  | .advanceRoot id => db.advanceRoot id
  | .rollbackHeadToRoot => pure db.rollbackHeadToRoot

end ForkDatabaseImpl

namespace ForkDatabaseImpl

variable {db : ForkDatabaseImpl I}

/-! ## Lookups -/

omit [LinearOrder I] in
/-- The index has one block of each id. -/
theorem nodup_ids (db : ForkDatabaseImpl I) : (db.index.rows.map (·.id)).Nodup :=
  List.pairwise_map.2 db.index.no_clash

omit [LinearOrder I] in
/-- Two blocks of the index with one id are the same block. -/
theorem eq_of_id {a b : ForkBlockState I} (ha : a ∈ db.index.rows) (hb : b ∈ db.index.rows)
    (h : a.id = b.id) : a = b :=
  IndexedTable.eq_of_clash (fun _ _ h => h.symm) ha hb h

/-- `get_block` finds a block of the index with the id asked for. -/
theorem getBlock_spec {id : I} {b : ForkBlockState I} (h : db.getBlock id = some b) :
    b ∈ db.index.rows ∧ b.id = id := by
  have hfind := IndexedTable.mem_of_find? h
  exact ⟨hfind.1, of_decide_eq_true hfind.2⟩

/-- `get_block` finds each block of the index by its id. -/
theorem getBlock_of_mem {b : ForkBlockState I} (hb : b ∈ db.index.rows) :
    db.getBlock b.id = some b :=
  IndexedTable.find?_of_mem
    (fun _ _ ha hb => (of_decide_eq_true ha).trans (of_decide_eq_true hb).symm) hb
    (decide_eq_true rfl)

/-- `get_block` finds nothing exactly when no block of the index has the id. -/
theorem getBlock_eq_none {id : I} : db.getBlock id = none ↔ ∀ b ∈ db.index.rows, b.id ≠ id := by
  simp [getBlock, IndexedTable.find?_eq_none_iff]

/-- The children of an id are the ids of the blocks of the index built on it. -/
theorem mem_children {x c : I} :
    c ∈ db.children x ↔ ∃ b ∈ db.index.rows, b.previous = x ∧ b.id = c := by
  simp [children, and_assoc]

/-- No child is listed twice. -/
theorem nodup_children (x : I) : (db.children x).Nodup :=
  (nodup_ids db).sublist (List.filter_sublist.map _)

/-- A block is built on one block only. -/
theorem eq_of_mem_children {x x' c : I} (h : c ∈ db.children x) (h' : c ∈ db.children x') :
    x = x' := by
  obtain ⟨b, hb, rfl, rfl⟩ := mem_children.1 h
  obtain ⟨b', hb', rfl, hid⟩ := mem_children.1 h'
  rw [eq_of_id hb' hb hid]

/-- A child is the id of a block of the index. -/
theorem mem_ids_of_mem_children {x c : I} (h : c ∈ db.children x) :
    c ∈ db.index.rows.map (·.id) := by
  obtain ⟨b, hb, -, rfl⟩ := mem_children.1 h
  exact List.mem_map_of_mem hb

end ForkDatabaseImpl

/-! ## Blocks as the controller builds them -/

section WellFormed

variable (numFromId : I → UInt32)

/-- `block_header::id` stores the block's number in its id, and `block_num()` is one more than
the number stored in `header.previous`, below the largest block number. -/
def WellFormed (b : ForkBlockState I) : Prop :=
  numFromId b.id = b.block_num ∧ (numFromId b.previous).toNat + 1 = b.block_num.toNat

instance (b : ForkBlockState I) : Decidable (WellFormed numFromId b) :=
  inferInstanceAs (Decidable (_ ∧ _))

namespace ForkDatabaseImpl

variable {numFromId} {db : ForkDatabaseImpl I}
  (hwf : ∀ b ∈ db.index.rows, WellFormed numFromId b)
include hwf

/-- The number stored in an id grows from a block to the blocks built on it. -/
theorem lt_of_mem_children {x c : I} (h : c ∈ db.children x) :
    (numFromId x).toNat < (numFromId c).toNat := by
  obtain ⟨b, hb, rfl, rfl⟩ := mem_children.1 h
  obtain ⟨hid, hprev⟩ := hwf b hb
  rw [hid]
  omega

/-- Block numbers grow down the tree. -/
theorem le_of_reaches {x y : I} (h : Reaches db.children x y) :
    (numFromId x).toNat ≤ (numFromId y).toNat :=
  h.lvl_le (fun x => (numFromId x).toNat) fun _ _ => lt_of_mem_children hwf

/-- The queue of `remove` is drained within its fuel. -/
theorem remove_drain_isSome (pass : I → Bool) (e : Exception) (id : I) :
    (drain db.children pass e (db.index.rows.length + 1) [] [id]).isSome :=
  drain_isSome (fun x => (numFromId x).toNat) (fun _ _ => lt_of_mem_children hwf)
    (db.index.rows.map (·.id)) (fun _ _ => mem_ids_of_mem_children)
    (fun _ _ _ => eq_of_mem_children) nodup_children id (by simp)

/-- `remove(id)` raises exactly when the head is `id` or built on it; otherwise it erases `id`
and every block built on it, and nothing else. -/
theorem remove_spec (id : I) :
    (Reaches db.children id db.head.id ∧ (db.remove id).run = some (.error removeHeadError)) ∨
    (¬ Reaches db.children id db.head.id ∧ ∃ index,
      (db.remove id).run = some (.ok { db with index := index }) ∧
      ∀ b, b ∈ index.rows ↔ b ∈ db.index.rows ∧ ¬ Reaches db.children id b.id) := by
  obtain ⟨r, hr⟩ := Option.isSome_iff_exists.1
    (remove_drain_isSome hwf (fun x => x ≠ db.head.id) removeHeadError id)
  cases r with
  | error e =>
    obtain ⟨rfl, x, hx, y, hy, hfail⟩ := drain_error hr
    rw [List.mem_singleton.1 hx] at hy
    have hhead : y = db.head.id := by simpa using hfail
    refine .inl ⟨hhead ▸ hy, ?_⟩
    simp only [remove, ExceptT.run_bind, ExceptT.run_mk, hr]
    rfl
  | ok q =>
    have hpass := drain_ok_pass hr id List.mem_cons_self
    refine .inr ⟨fun hhead => by simpa using hpass _ hhead,
      db.index.remove fun b => b.id ∈ q, ?_, fun b => ?_⟩
    · simp only [remove, ExceptT.run_bind, ExceptT.run_mk, hr]
      rfl
    · have hq := drain_ok_mem hr b.id
      simp only [List.not_mem_nil, false_or, List.mem_singleton, exists_eq_left] at hq
      simp [hq]

end ForkDatabaseImpl

end WellFormed

/-! ## The order of the heads -/

omit [LinearOrder I] in
/-- `first_preferred`: a higher irreversible block first, then a higher block number. -/
theorem firstPreferred_iff {a b : ForkBlockState I} :
    firstPreferred a b = true ↔
      b.dpos_irreversible_blocknum.toNat < a.dpos_irreversible_blocknum.toNat ∨
        (a.dpos_irreversible_blocknum.toNat = b.dpos_irreversible_blocknum.toNat ∧
          b.block_num.toNat < a.block_num.toNat) := by
  simp [firstPreferred, UInt32.lt_iff_toNat_lt, ← UInt32.toNat_inj]

omit [LinearOrder I] in
/-- `first_preferred` is transitive. -/
theorem firstPreferred_trans {a b c : ForkBlockState I} (hab : firstPreferred a b = true)
    (hbc : firstPreferred b c = true) : firstPreferred a c = true := by
  rw [firstPreferred_iff] at *
  omega

omit [LinearOrder I] in
/-- Not preferred to a block that is not preferred to a third is not preferred to the third. -/
theorem firstPreferred_false_trans {a b c : ForkBlockState I} (hab : firstPreferred a b = false)
    (hbc : firstPreferred b c = false) : firstPreferred a c = false := by
  rw [← Bool.not_eq_true, firstPreferred_iff] at *
  omega


omit [LinearOrder I] in
/-- A block preferred to one that a third is not preferred to is preferred to the third. -/
theorem firstPreferred_of_false {a b c : ForkBlockState I} (hab : firstPreferred a b = true)
    (hcb : firstPreferred c b = false) : firstPreferred a c = true := by
  rw [← Bool.not_eq_true, firstPreferred_iff] at hcb
  rw [firstPreferred_iff] at *
  omega

omit [LinearOrder I] in
/-- A lower block that is not preferred to a block is less preferred than it. -/
theorem firstPreferred_of_lt {a b : ForkBlockState I} (hba : firstPreferred b a = false)
    (hlt : b.block_num.toNat < a.block_num.toNat) : firstPreferred a b = true := by
  rw [← Bool.not_eq_true, firstPreferred_iff] at hba
  rw [firstPreferred_iff]
  omega

/-- Validated blocks come first in `by_lib_block_num`. -/
theorem libKey_lt_of_validated {b c : ForkBlockState I} (hb : b.validated = true)
    (hc : c.validated = false) : libKey b < libKey c := by
  simp [libKey, Prod.Lex.toLex_lt_toLex, hb, hc]

/-- Of two blocks equally validated, one not before the other in `by_lib_block_num` is not
preferred to it. -/
theorem firstPreferred_eq_false_of_not_lt {b c : ForkBlockState I} (h : ¬ libKey b < libKey c)
    (hv : b.validated = c.validated) : firstPreferred b c = false := by
  simp only [libKey, Prod.Lex.toLex_lt_toLex, hv, lt_self_iff_false, true_and, false_or,
    OrderDual.toDual_lt_toDual, EmbeddingLike.apply_eq_iff_eq] at h
  rw [← Bool.not_eq_true, firstPreferred_iff]
  omega

namespace ForkDatabaseImpl

variable {db : ForkDatabaseImpl I}

/-- The first block of `by_lib_block_num` is validated when some block is, and no validated block
is preferred to it. -/
theorem libBegin_best {c : ForkBlockState I} (hc : db.libBegin = some c) {b : ForkBlockState I}
    (hb : b ∈ db.index.rows) (hv : b.validated = true) :
    c.validated = true ∧ firstPreferred b c = false := by
  have hlt : ¬ libKey b < libKey c := List.not_lt_of_mem_argmin hb hc
  have hcv : c.validated = true := by
    by_contra hcv
    exact hlt (libKey_lt_of_validated hv (by simpa using hcv))
  exact ⟨hcv, firstPreferred_eq_false_of_not_lt hlt (hv.trans hcv.symm)⟩

/-- The first block by irreversible number is a block of the index. -/
theorem libBegin_mem {c : ForkBlockState I} (hc : db.libBegin = some c) : c ∈ db.index.rows :=
  List.argmin_mem hc

/-- A nonempty index has a first block by irreversible number. -/
theorem libBegin_isSome {b : ForkBlockState I} (hb : b ∈ db.index.rows) : db.libBegin.isSome := by
  cases h : db.libBegin with
  | none =>
    rw [libBegin, List.argmin_eq_none] at h
    simp [h] at hb
  | some => rfl

omit [LinearOrder I] in
/-- Setting `validated` changes no block's id, parent or number. -/
theorem mem_setValidated {index : IndexedTable (ForkBlockState I) ForkBlockState.clash}
    {p : ForkBlockState I → Bool} {v : Bool} {b' : ForkBlockState I} :
    b' ∈ (setValidated index p v).rows ↔
      ∃ b ∈ index.rows, b' = if p b then { b with validated := v } else b := by
  rw [setValidated, IndexedTable.rows_map, List.mem_map]
  exact exists_congr fun b => and_congr_right fun _ => eq_comm

omit [LinearOrder I] in
/-- A block whose `validated` is already `v` stays in the index. -/
theorem mem_setValidated_of_validated
    {index : IndexedTable (ForkBlockState I) ForkBlockState.clash} {p : ForkBlockState I → Bool}
    {v : Bool} {b : ForkBlockState I} (hb : b ∈ index.rows) (hv : b.validated = v) :
    b ∈ (setValidated index p v).rows := by
  refine mem_setValidated.2 ⟨b, hb, ?_⟩
  split_ifs
  · subst hv
    rfl
  · rfl

end ForkDatabaseImpl

/-! ## The invariant -/

section Invariant

variable (numFromId : I → UInt32)

namespace ForkDatabaseImpl

/-- The blocks of the index form a tree below the root: all are well formed, and each is built on
the root or on a block of the index. -/
structure Tree (db : ForkDatabaseImpl I) : Prop where
  /-- The root's number is the one its id carries. -/
  root_wf : numFromId db.root.id = db.root.block_num
  /-- Every block of the index is well formed. -/
  wf : ∀ b ∈ db.index.rows, WellFormed numFromId b
  /-- Every block of the index is built on the root or on a block of the index. -/
  linked : ∀ b ∈ db.index.rows, b.previous = db.root.id ∨ ∃ p ∈ db.index.rows, p.id = b.previous

/-- What every call keeps: a tree below a validated root, whose head is the root or a validated
block of the index to which no validated block is preferred. -/
structure Invariant (db : ForkDatabaseImpl I) : Prop extends Tree numFromId db where
  /-- The root is validated. -/
  root_validated : db.root.validated = true
  /-- The head is the root or a validated block of the index. -/
  head_mem : db.head = db.root ∨ db.head ∈ db.index.rows ∧ db.head.validated = true
  /-- No validated block is preferred to the head. -/
  head_best : ∀ b ∈ db.index.rows, b.validated = true → firstPreferred b db.head = false

/-- The parent of a block, as `get_block_header` finds it. -/
def parent (db : ForkDatabaseImpl I) (b : ForkBlockState I) : Option (ForkBlockState I) :=
  db.getBlockHeader b.previous

variable {numFromId} {db : ForkDatabaseImpl I} (hT : db.Tree numFromId)
include hT

/-- The tree of parent links, one block number apart. -/
theorem Tree.linkedParents :
    Linked db.parent (· ∈ db.index.rows) (fun b => b.block_num.toNat) db.root := by
  intro b hb
  obtain ⟨hid, hprev⟩ := hT.wf b hb
  by_cases hroot : b.previous = db.root.id
  · refine ⟨db.root, if_pos hroot.symm, .inl rfl, ?_⟩
    show db.root.block_num.toNat + 1 = b.block_num.toNat
    rw [← hT.root_wf, ← hroot]
    exact hprev
  · obtain ⟨p, hp, hpid⟩ := (hT.linked b hb).resolve_left hroot
    refine ⟨p, ?_, .inr hp, ?_⟩
    · rw [parent, getBlockHeader, if_neg (Ne.symm hroot), ← hpid]
      exact getBlock_of_mem hp
    · show p.block_num.toNat + 1 = b.block_num.toNat
      rw [← (hT.wf p hp).1, hpid]
      exact hprev

/-- The blocks of the index lie above the root. -/
theorem Tree.root_lt {b : ForkBlockState I} (hb : b ∈ db.index.rows) :
    db.root.block_num.toNat < b.block_num.toNat :=
  num_root_lt hT.linkedParents hb

/-- No block of the index has the root's id, which stores a lower number. -/
theorem Tree.id_ne_root {b : ForkBlockState I} (hb : b ∈ db.index.rows) : b.id ≠ db.root.id := by
  intro h
  have hlt := hT.root_lt hb
  rw [← (hT.wf b hb).1, ← hT.root_wf, h] at hlt
  exact Nat.lt_irrefl _ hlt

/-- The root is not a block of the index. -/
theorem Tree.getBlock_root : db.getBlock db.root.id = none :=
  getBlock_eq_none.2 fun _ hb => hT.id_ne_root hb

/-- Every block of the index is built, directly or not, on the root. -/
theorem Tree.reaches_root {b : ForkBlockState I} (hb : b ∈ db.index.rows) :
    Reaches db.children db.root.id b.id := by
  -- by induction on the block number: the parent is the root or a lower block of the index
  induction hn : b.block_num.toNat using Nat.strongRecOn generalizing b with
  | ind n ih =>
    rcases hT.linked b hb with hroot | ⟨p, hp, hpid⟩
    · exact .child (mem_children.2 ⟨b, hb, hroot, rfl⟩)
    · have hlt : p.block_num.toNat < n := by
        rw [← hn, ← (hT.wf p hp).1, hpid]
        have := (hT.wf b hb).2
        omega
      exact .tail (ih _ hlt hp rfl) (mem_children.2 ⟨b, hb, hpid.symm, rfl⟩)

end ForkDatabaseImpl

end Invariant

namespace ForkDatabaseImpl

variable {db db' : ForkDatabaseImpl I}

/-- `get_block_header` finds the root or a block of the index, with the id asked for. -/
theorem getBlockHeader_spec {id : I} {b : ForkBlockState I} (h : db.getBlockHeader id = some b) :
    (b = db.root ∨ b ∈ db.index.rows) ∧ b.id = id := by
  unfold getBlockHeader at h
  split at h
  · next hroot =>
    cases h
    exact ⟨.inl rfl, hroot⟩
  · obtain ⟨hb, hid⟩ := getBlock_spec h
    exact ⟨.inr hb, hid⟩

/-- What `add` can do: with the previous block found, nothing (a duplicate that is ignored), or
the block created and the first block of `by_lib_block_num` made the head when validated. -/
theorem add_cases {n : ForkBlockState I} {ignore_duplicate : Bool}
    (h : db.add n ignore_duplicate = .ok db') :
    (∃ p, db.getBlockHeader n.previous = some p) ∧
      (db' = db ∨ ∃ index, db.index.create n = some index ∧
        ∃ c, ({ db with index := index } : ForkDatabaseImpl I).libBegin = some c ∧
          db' = if c.validated then { db with index := index, head := c }
            else { db with index := index }) := by
  unfold add at h
  cases hp : db.getBlockHeader n.previous with
  | none => simp [hp, liftDb, bind, Except.bind] at h
  | some p =>
    simp only [hp, liftDb, bind, Except.bind] at h
    refine ⟨⟨p, rfl⟩, ?_⟩
    split at h
    · split at h
      · cases h
        exact .inl rfl
      · cases h
    · next index hidx =>
      refine .inr ⟨index, hidx, ?_⟩
      split at h
      · next c hc =>
        cases h
        exact ⟨c, hc, rfl⟩
      · next hc =>
        have hn : n ∈ index.rows := by simp [IndexedTable.rows_of_create hidx]
        have := libBegin_isSome
          (show n ∈ ({ db with index := index } : ForkDatabaseImpl I).index.rows from hn)
        rw [hc] at this
        cases this

/-- What `mark_valid` can do: nothing for a validated block; otherwise, with the block found, its
id marked validated and the first block of `by_lib_block_num` made the head when preferred. -/
theorem markValid_cases {h : ForkBlockState I} (hok : db.markValid h = .ok db') :
    (h.validated = true ∧ db' = db) ∨
      (h.validated = false ∧ (∃ b, db.getBlock h.id = some b) ∧
        ∃ c, ({ db with index := setValidated db.index (fun b => b.id = h.id) true } :
            ForkDatabaseImpl I).libBegin = some c ∧
          db' = if firstPreferred c db.head then
              { db with index := setValidated db.index (fun b => b.id = h.id) true, head := c }
            else { db with index := setValidated db.index (fun b => b.id = h.id) true }) := by
  unfold markValid at hok
  cases hv : h.validated
  · cases hb : db.getBlock h.id with
    | none => simp [hv, hb, liftDb, bind, Except.bind] at hok
    | some b =>
      simp only [hv, hb, liftDb, Bool.false_eq_true, if_false, bind, Except.bind] at hok
      refine .inr ⟨rfl, ⟨b, rfl⟩, ?_⟩
      split at hok
      · next c hc =>
        cases hok
        exact ⟨c, hc, rfl⟩
      · next hc =>
        have hmem : { b with validated := true } ∈
            (setValidated db.index (fun b => b.id = h.id) true).rows :=
          mem_setValidated.2 ⟨b, (getBlock_spec hb).1, by simp [(getBlock_spec hb).2]⟩
        have := libBegin_isSome (show { b with validated := true } ∈
          ({ db with index := setValidated db.index (fun b => b.id = h.id) true } :
            ForkDatabaseImpl I).index.rows from hmem)
        rw [hc] at this
        cases this
  · simp only [hv, if_true, pure, Except.pure] at hok
    cases hok
    exact .inl ⟨rfl, rfl⟩

variable {numFromId : I → UInt32}

omit [LinearOrder I] in
/-- Setting `validated` keeps the tree, whatever the head. -/
theorem Tree.setValidated (hT : db.Tree numFromId) (p : ForkBlockState I → Bool) (v : Bool)
    (head : ForkBlockState I) :
    Tree numFromId { index := setValidated db.index p v, root := db.root, head := head } := by
  -- each block keeps its id, parent and number
  have himage : ∀ b ∈ db.index.rows, (if p b then { b with validated := v } else b) ∈
      (ForkDatabaseImpl.setValidated db.index p v).rows := fun b hb => mem_setValidated.2 ⟨b, hb, rfl⟩
  refine ⟨hT.root_wf, fun b' hb' => ?_, fun b' hb' => ?_⟩
  · obtain ⟨b, hb, rfl⟩ := mem_setValidated.1 hb'
    split_ifs
    · exact hT.wf b hb
    · exact hT.wf b hb
  · obtain ⟨b, hb, rfl⟩ := mem_setValidated.1 hb'
    have hprev : (if p b then { b with validated := v } else b).previous = b.previous := by
      split_ifs <;> rfl
    rw [hprev]
    refine (hT.linked b hb).imp_right fun ⟨q, hq, hqid⟩ => ⟨_, himage q hq, ?_⟩
    split_ifs <;> exact hqid

/-- A removal of blocks closed under building on keeps the tree. -/
theorem Tree.of_removed (hT : db.Tree numFromId) {R : I → Prop}
    (hR : ∀ x c, R x → c ∈ db.children x → R c)
    {index : IndexedTable (ForkBlockState I) ForkBlockState.clash}
    (hmem : ∀ b, b ∈ index.rows ↔ b ∈ db.index.rows ∧ ¬ R b.id) (head : ForkBlockState I) :
    Tree numFromId { index := index, root := db.root, head := head } := by
  refine ⟨hT.root_wf, fun b hb => hT.wf b ((hmem b).1 hb).1, fun b hb => ?_⟩
  obtain ⟨hb, hRb⟩ := (hmem b).1 hb
  refine (hT.linked b hb).imp_right fun ⟨p, hp, hpid⟩ => ⟨p, (hmem p).2 ⟨hp, fun hRp => ?_⟩, hpid⟩
  -- a block built on a removed block is removed
  exact hRb (hR _ _ hRp (mem_children.2 ⟨b, hb, hpid.symm, rfl⟩))

omit [LinearOrder I] in
/-- `reset` to a well-formed root gives a database in the invariant. -/
theorem Invariant.reset {root_bhs : ForkBlockState I}
    (hroot : numFromId root_bhs.id = root_bhs.block_num) :
    (ForkDatabaseImpl.reset root_bhs).Invariant numFromId where
  root_wf := hroot
  wf _ hb := by simp [ForkDatabaseImpl.reset] at hb
  linked _ hb := by simp [ForkDatabaseImpl.reset] at hb
  root_validated := rfl
  head_mem := .inl rfl
  head_best _ hb := by simp [ForkDatabaseImpl.reset] at hb

/-- `add` of a well-formed block keeps the invariant. -/
theorem Invariant.add (hI : db.Invariant numFromId) {n : ForkBlockState I}
    (hn : WellFormed numFromId n) {ignore_duplicate : Bool}
    (h : db.add n ignore_duplicate = .ok db') : db'.Invariant numFromId := by
  obtain ⟨⟨p, hp⟩, rfl | ⟨index, hidx, c, hc, rfl⟩⟩ := add_cases h
  · exact hI
  have hrows : index.rows = db.index.rows ++ [n] := IndexedTable.rows_of_create hidx
  have hsub : ∀ b ∈ db.index.rows, b ∈ index.rows := fun b hb => by simp [hrows, hb]
  -- the new block is built on the root or on a block of the index
  have hlink : n.previous = db.root.id ∨ ∃ p ∈ db.index.rows, p.id = n.previous := by
    obtain ⟨hp | hp, hpid⟩ := getBlockHeader_spec hp
    · exact .inl (hp ▸ hpid.symm)
    · exact .inr ⟨p, hp, hpid⟩
  have hT : ∀ head, Tree numFromId { index := index, root := db.root, head := head } :=
    fun head => ⟨hI.root_wf, IndexedTable.forall_of_create hidx hI.wf hn, by
      rw [hrows]
      intro b hb
      rcases List.mem_append.1 hb with hb | hb
      · exact (hI.linked b hb).imp_right fun ⟨q, hq, hqid⟩ => ⟨q, List.mem_append_left _ hq, hqid⟩
      · rw [List.mem_singleton.1 hb]
        exact hlink.imp_right fun ⟨q, hq, hqid⟩ => ⟨q, List.mem_append_left _ hq, hqid⟩⟩
  split_ifs with hcv
  · exact ⟨hT c, hI.root_validated, .inr ⟨libBegin_mem hc, hcv⟩,
      fun b hb hv => (libBegin_best hc hb hv).2⟩
  · -- no block is validated, so the head stays
    exact ⟨hT db.head, hI.root_validated,
      hI.head_mem.imp_right fun ⟨hh, hv⟩ => ⟨hsub _ hh, hv⟩,
      fun b hb hv => absurd (libBegin_best hc hb hv).1 hcv⟩

/-- `mark_valid` keeps the invariant. -/
theorem Invariant.markValid (hI : db.Invariant numFromId) {h : ForkBlockState I}
    (hok : db.markValid h = .ok db') : db'.Invariant numFromId := by
  obtain ⟨-, rfl⟩ | ⟨-, ⟨b, hb⟩, c, hc, rfl⟩ := markValid_cases hok
  · exact hI
  -- the block marked is validated, so the first block is
  have hbv : { b with validated := true } ∈
      (setValidated db.index (fun b => b.id = h.id) true).rows :=
    mem_setValidated.2 ⟨b, (getBlock_spec hb).1, by simp [(getBlock_spec hb).2]⟩
  have hcv : c.validated = true := (libBegin_best hc hbv rfl).1
  split_ifs with hpref
  · exact ⟨hI.toTree.setValidated _ true c, hI.root_validated, .inr ⟨libBegin_mem hc, hcv⟩,
      fun b hb hv => (libBegin_best hc hb hv).2⟩
  · refine ⟨hI.toTree.setValidated _ true db.head, hI.root_validated,
      hI.head_mem.imp_right fun ⟨hh, hv⟩ => ⟨mem_setValidated_of_validated hh hv, hv⟩,
      fun b hb hv => ?_⟩
    exact firstPreferred_false_trans (libBegin_best hc hb hv).2 (by simpa using hpref)

omit [LinearOrder I] in
/-- `rollback_head_to_root` keeps the invariant. -/
theorem Invariant.rollbackHeadToRoot (hI : db.Invariant numFromId) :
    db.rollbackHeadToRoot.Invariant numFromId := by
  refine ⟨hI.toTree.setValidated _ false db.root, hI.root_validated, .inl rfl, fun b hb hv => ?_⟩
  -- every block of the index is unvalidated
  obtain ⟨b₀, -, rfl⟩ := mem_setValidated.1 hb
  simp at hv

/-- `remove` keeps the invariant. -/
theorem Invariant.remove (hI : db.Invariant numFromId) {id : I}
    (h : (db.remove id).run = some (.ok db')) : db'.Invariant numFromId := by
  rcases remove_spec hI.wf id with ⟨-, herr⟩ | ⟨hhead, index, hok, hmem⟩
  · rw [herr] at h
    cases h
  rw [hok] at h
  cases h
  refine ⟨hI.toTree.of_removed (fun _ _ hx hc => Relation.ReflTransGen.tail hx hc) hmem db.head,
    hI.root_validated, ?_, fun b hb hv => hI.head_best b ((hmem b).1 hb).1 hv⟩
  exact hI.head_mem.imp_right fun ⟨hh, hv⟩ => ⟨(hmem _).2 ⟨hh, hhead⟩, hv⟩

end ForkDatabaseImpl

/-! ## Advancing the root -/

namespace ForkDatabaseImpl

variable {numFromId : I → UInt32} {db : ForkDatabaseImpl I}

/-- Each block of the tree has a path of parents down to the root. -/
theorem Tree.exists_path (hT : db.Tree numFromId) {b : ForkBlockState I}
    (hb : b ∈ db.index.rows) : ∃ l, IsPath db.parent (· ∈ db.index.rows) b l db.root :=
  exists_isPath_root hT.linkedParents hb

/-- A block lies at most as many numbers above the root as the index has blocks: its path down
to the root is made of distinct blocks of the index. -/
theorem Tree.num_sub_root_le (hT : db.Tree numFromId) {b : ForkBlockState I}
    (hb : b ∈ db.index.rows) :
    b.block_num.toNat - db.root.block_num.toNat ≤ db.index.rows.length := by
  obtain ⟨l, hl⟩ := hT.exists_path hb
  have hlen : db.root.block_num.toNat + l.length = b.block_num.toNat :=
    (hl.num_add_length hT.linkedParents (.inr hb)).2
  have hnodup : l.Nodup :=
    (hl.pairwise_num_lt hT.linkedParents (.inr hb)).imp fun h heq => by
      subst heq
      exact Nat.lt_irrefl _ h
  have hsub := (List.Nodup.subperm hnodup fun y hy => hl.mem hy).length_le
  omega

/-- The walk of `advance_root` from a block of the tree: it reaches the root's id, and every id it
collects is a block below the one it starts from. -/
theorem ancestorIds_spec (hT : db.Tree numFromId) : ∀ (fuel : Nat) (b : ForkBlockState I),
    b ∈ db.index.rows → b.block_num.toNat - db.root.block_num.toNat ≤ fuel →
      ∃ A, (db.ancestorIds fuel b).run = some (.ok A) ∧ db.root.id ∈ A ∧
        ∀ a ∈ A, Reaches db.children a b.id ∧ (numFromId a).toNat < (numFromId b.id).toNat
  | 0, b, hb, hfuel => absurd hfuel (by have := hT.root_lt hb; omega)
  | fuel + 1, b, hb, hfuel => by
    obtain ⟨hid, hprev⟩ := hT.wf b hb
    have hchild : b.id ∈ db.children b.previous := mem_children.2 ⟨b, hb, rfl, rfl⟩
    have hlt : (numFromId b.previous).toNat < (numFromId b.id).toNat := by rw [hid]; omega
    cases hp : db.getBlock b.previous with
    | some p =>
      obtain ⟨hpmem, hpid⟩ := getBlock_spec hp
      have hpnum : p.block_num.toNat + 1 = b.block_num.toNat := by
        rw [← (hT.wf p hpmem).1, hpid]
        exact hprev
      obtain ⟨A, hA, hroot, hall⟩ := ancestorIds_spec hT fuel p hpmem (by omega)
      refine ⟨b.previous :: A, ?_, List.mem_cons_of_mem _ hroot, fun a ha => ?_⟩
      · simp only [ancestorIds, hp, ExceptT.run_bind, hA]
        rfl
      · rcases List.mem_cons.1 ha with rfl | ha
        · exact ⟨.child hchild, hlt⟩
        · obtain ⟨hreach, hlt'⟩ := hall a ha
          rw [hpid] at hreach hlt'
          exact ⟨.tail hreach hchild, by omega⟩
    | none =>
      -- the block is built on the root
      have hroot : b.previous = db.root.id := (hT.linked b hb).resolve_right fun ⟨p, hp', hpid⟩ =>
        by rw [← hpid, getBlock_of_mem hp'] at hp; cases hp
      refine ⟨[b.previous], ?_, by simp [hroot], fun a ha => ?_⟩
      · have hp' : db.getBlock db.root.id = none := hroot ▸ hp
        simp only [ancestorIds, hroot, hp', terminating, eosAssert, decide_true, if_true]
        rfl
      · rw [List.mem_singleton.1 ha]
        exact ⟨.child hchild, hlt⟩

/-- Fewer blocks reach fewer blocks. -/
theorem reaches_mono {db₁ : ForkDatabaseImpl I}
    (hsub : ∀ b ∈ db.index.rows, b ∈ db₁.index.rows) {x y : I}
    (h : Reaches db.children x y) : Reaches db₁.children x y := by
  induction h with
  | refl => exact .refl _
  | tail _ hc ih =>
    obtain ⟨b, hb, rfl, rfl⟩ := mem_children.1 hc
    exact .tail ih (mem_children.2 ⟨b, hsub b hb, rfl, rfl⟩)

/-- After a removal of blocks closed under building on, a block that is left is reached as it
was: a path to it never went through a removed block. -/
theorem reaches_of_removed {db₁ : ForkDatabaseImpl I} {R : I → Prop}
    (hR : ∀ x c, R x → c ∈ db₁.children x → R c)
    (hmem : ∀ b, b ∈ db.index.rows ↔ b ∈ db₁.index.rows ∧ ¬ R b.id) {x y : I}
    (h : Reaches db₁.children x y) (hy : ¬ R y) : Reaches db.children x y := by
  induction h with
  | refl => exact .refl _
  | tail _ hzy ih =>
    obtain ⟨b, hb, rfl, rfl⟩ := mem_children.1 hzy
    refine .tail (ih fun hz => hy (hR _ _ hz hzy)) (mem_children.2 ⟨b, (hmem b).2 ⟨hb, hy⟩, rfl, rfl⟩)

variable (hwf : ∀ b ∈ db.index.rows, WellFormed numFromId b)
include hwf

/-- The removals of `advance_root`, one after another: when none of them reaches the head, they
remove every block that one of them reaches; otherwise one raises. -/
theorem foldlM_remove {R : I → Prop} (hR : ∀ x c, R x → c ∈ db.children x → R c)
    (hhead : ¬ R db.head.id) :
    ∀ (L : List I) (cur : ForkDatabaseImpl I), cur.root = db.root → cur.head = db.head →
      (∀ b, b ∈ cur.index.rows ↔ b ∈ db.index.rows ∧ ¬ R b.id) →
      ((∃ a ∈ L, Reaches db.children a db.head.id) ∧
          ∃ e : Exception,
            (L.foldlM (fun (d : ForkDatabaseImpl I) block_id => d.remove block_id) cur).run = some (.error e)) ∨
        ((¬ ∃ a ∈ L, Reaches db.children a db.head.id) ∧ ∃ index,
          (L.foldlM (fun (d : ForkDatabaseImpl I) block_id => d.remove block_id) cur).run =
            some (.ok { index := index, root := db.root, head := db.head }) ∧
          ∀ b, b ∈ index.rows ↔
            b ∈ db.index.rows ∧ ¬ R b.id ∧ ¬ ∃ a ∈ L, Reaches db.children a b.id)
  | [], cur, hroot, hhd, hmem => by
    refine .inr ⟨by simp, cur.index, ?_, fun b => by simpa using hmem b⟩
    rw [← hroot, ← hhd]
    rfl
  | a :: L, cur, hroot, hhd, hmem => by
    have hwf' : ∀ b ∈ cur.index.rows, WellFormed numFromId b :=
      fun b hb => hwf b ((hmem b).1 hb).1
    -- a block that is left is reached from `a` now as it was in `db`
    have hiff : ∀ y, ¬ R y → (Reaches cur.children a y ↔ Reaches db.children a y) :=
      fun y hy => ⟨reaches_mono fun b hb => ((hmem b).1 hb).1, fun h => reaches_of_removed hR hmem h hy⟩
    rcases remove_spec hwf' a with ⟨hreach, herr⟩ | ⟨hnot, index', hok, hmem'⟩
    · rw [hhd, hiff _ hhead] at hreach
      refine .inl ⟨⟨a, List.mem_cons_self, hreach⟩, removeHeadError, ?_⟩
      simp only [List.foldlM_cons, ExceptT.run_bind, herr]
      rfl
    · rw [hhd, hiff _ hhead] at hnot
      have hR' : ∀ x c, (R x ∨ Reaches db.children a x) → c ∈ db.children x →
          R c ∨ Reaches db.children a c :=
        fun x c hx hc => hx.imp (hR x c · hc) (.tail · hc)
      have hmem'' : ∀ b, b ∈ index'.rows ↔
          b ∈ db.index.rows ∧ ¬ (R b.id ∨ Reaches db.children a b.id) := fun b => by
        rw [hmem', hmem b, not_or]
        constructor
        · rintro ⟨⟨hb, hRb⟩, hreach⟩
          exact ⟨hb, hRb, fun h => hreach ((hiff _ hRb).2 h)⟩
        · rintro ⟨hb, hRb, hreach⟩
          exact ⟨⟨hb, hRb⟩, fun h => hreach ((hiff _ hRb).1 h)⟩
      have hrun : ((a :: L).foldlM (fun (d : ForkDatabaseImpl I) block_id => d.remove block_id)
            cur).run =
          (L.foldlM (fun (d : ForkDatabaseImpl I) block_id => d.remove block_id)
            { cur with index := index' }).run := by
        simp only [List.foldlM_cons, ExceptT.run_bind, hok]
        rfl
      rw [hrun]
      rcases foldlM_remove hR' (not_or.2 ⟨hhead, hnot⟩) L { cur with index := index' } hroot hhd
          hmem'' with ⟨⟨a', ha', hreach⟩, herr⟩ | ⟨hnone, index, hok', hmemL⟩
      · exact .inl ⟨⟨a', List.mem_cons_of_mem _ ha', hreach⟩, herr⟩
      · refine .inr ⟨?_, index, hok', fun b => ?_⟩
        · rintro ⟨a', ha', hreach⟩
          rcases List.mem_cons.1 ha' with rfl | ha'
          · exact hnot hreach
          · exact hnone ⟨a', ha', hreach⟩
        · rw [hmemL b]
          simp only [not_or, List.mem_cons, exists_eq_or_imp]
          tauto

end ForkDatabaseImpl

namespace ForkDatabaseImpl

variable {numFromId : I → UInt32} {db db₁ db' : ForkDatabaseImpl I} {r : I}
  (hmem₁ : ∀ b, b ∈ db₁.index.rows ↔ b ∈ db.index.rows ∧ b.id ≠ r)
include hmem₁

/-- With the block `r` erased, nothing below `r` reaches a block that `r` reached: the blocks
built on `r` hang from it alone. -/
theorem not_reaches_of_erased (hwf : ∀ b ∈ db.index.rows, WellFormed numFromId b) {a y : I}
    (ha : (numFromId a).toNat < (numFromId r).toNat) (h₁ : Reaches db₁.children a y)
    (h : Reaches db.children r y) : False := by
  induction h₁ with
  | refl => exact absurd (le_of_reaches hwf h) (by omega)
  | tail _ hzy ih =>
    obtain ⟨b, hb, rfl, rfl⟩ := mem_children.1 hzy
    obtain ⟨hb', hne⟩ := (hmem₁ b).1 hb
    rcases Relation.ReflTransGen.cases_tail h with heq | ⟨z, hz, hc⟩
    · exact hne heq
    · exact ih (eq_of_mem_children hc (mem_children.2 ⟨b, hb', rfl, rfl⟩) ▸ hz)

/-- A block reached from `x` only through `r` is reached from `r`. -/
theorem reaches_of_not_reaches_erased {x y : I} (h : Reaches db.children x y)
    (h₁ : ¬ Reaches db₁.children x y) : Reaches db.children r y := by
  induction h with
  | refl => exact absurd (.refl _) h₁
  | @tail z w _ hzy ih =>
    by_cases hz : Reaches db₁.children x z
    · obtain ⟨b, hb, rfl, rfl⟩ := mem_children.1 hzy
      by_cases hne : b.id = r
      · rw [hne]
        exact .refl _
      · exact absurd (.tail hz (mem_children.2 ⟨b, (hmem₁ b).2 ⟨hb, hne⟩, rfl, rfl⟩)) h₁
    · exact .tail (ih hz) hzy

end ForkDatabaseImpl


namespace ForkDatabaseImpl

variable {numFromId : I → UInt32} {db db' : ForkDatabaseImpl I}

/-- `advance_root` on a validated block of the index, once its walk has collected
`blocks_to_remove`: the removals, from the index without the new root, then the new root. -/
theorem advanceRoot_run {id : I} {nr : ForkBlockState I} {A : List I}
    (hget : db.getBlock id = some nr) (hv : nr.validated = true)
    (hA : (db.ancestorIds (db.index.rows.length + 1) nr).run = some (.ok A)) :
    (db.advanceRoot id).run =
      ((A.foldlM (fun (d : ForkDatabaseImpl I) block_id => d.remove block_id)
        { db with index := db.index.remove fun b => b.id = id }).run).bind
        fun | .ok db₂ => some (.ok { db₂ with root := nr }) | .error e => some (.error e) := by
  simp only [advanceRoot, hget, hv, terminating, liftDb, eosAssert, ExceptT.run_bind,
    ExceptT.run_mk, hA, if_true, Option.bind_eq_bind, Option.bind_some]
  congr 1
  funext r
  cases r <;> rfl

/-- What `advance_root` does with a block of the index: when the block is validated and the head
is built on it, it becomes the root and the index keeps exactly the blocks built on it;
otherwise the call raises. -/
theorem advanceRoot_cases (hI : db.Invariant numFromId) {nr : ForkBlockState I}
    (hnr : nr ∈ db.index.rows) :
    (nr.validated = true ∧ Reaches db.children nr.id db.head.id ∧ ∃ index,
        (db.advanceRoot nr.id).run = some (.ok { index := index, root := nr, head := db.head }) ∧
        ∀ b, b ∈ index.rows ↔
          b ∈ db.index.rows ∧ b.id ≠ nr.id ∧ Reaches db.children nr.id b.id) ∨
      (¬ (nr.validated = true ∧ Reaches db.children nr.id db.head.id) ∧
        ∃ e : Exception, (db.advanceRoot nr.id).run = some (.error e)) := by
  have hget : db.getBlock nr.id = some nr := getBlock_of_mem hnr
  cases hv : nr.validated
  · refine .inr ⟨by simp, ⟨.fork_database_exception,
      "cannot advance root to a block that has not yet been validated"⟩, ?_⟩
    simp only [advanceRoot, hget, hv, terminating, liftDb, eosAssert, ExceptT.run_bind,
      ExceptT.run_mk, Option.bind_eq_bind, Option.bind_some, Bool.false_eq_true, if_false]
    rfl
  obtain ⟨A, hA, hrootA, hall⟩ := ancestorIds_spec hI.toTree (db.index.rows.length + 1) nr hnr
    (by have := hI.num_sub_root_le hnr; omega)
  have hrun := advanceRoot_run hget hv hA
  -- the new root erased on its own
  generalize hdb₁ : ({ db with index := db.index.remove fun b => b.id = nr.id } :
    ForkDatabaseImpl I) = db₁ at hrun
  have hmem₁ : ∀ b, b ∈ db₁.index.rows ↔ b ∈ db.index.rows ∧ b.id ≠ nr.id := by
    subst hdb₁
    simp
  have hroot₁ : db₁.root = db.root := by rw [← hdb₁]
  have hhead₁ : db₁.head = db.head := by rw [← hdb₁]
  have hwf₁ : ∀ b ∈ db₁.index.rows, WellFormed numFromId b :=
    fun b hb => hI.wf b ((hmem₁ b).1 hb).1
  -- a block of the index that the new root does not reach is reached from the root in `db₁`
  have hfrom_root : ∀ b ∈ db.index.rows, ¬ Reaches db.children nr.id b.id →
      Reaches db₁.children db.root.id b.id := fun b hb hnot => by
    by_contra h₁
    exact hnot (reaches_of_not_reaches_erased hmem₁ (hI.reaches_root hb) h₁)
  rcases foldlM_remove hwf₁ (R := fun _ => False) (fun _ _ h _ => h) id A db₁ rfl rfl
      (fun b => by simp) with ⟨⟨a, ha, hreach⟩, e, herr⟩ | ⟨hnone, index, hok, hmemI⟩
  · rw [hhead₁] at hreach
    refine .inr ⟨?_, e, ?_⟩
    · rintro ⟨-, hhead⟩
      exact not_reaches_of_erased hmem₁ hI.wf (hall a ha).2 hreach hhead
    · rw [hrun, herr]
      rfl
  · rw [hhead₁] at hnone hok
    have hhead : Reaches db.children nr.id db.head.id := by
      by_contra hnot
      refine hnone ⟨db.root.id, hrootA, ?_⟩
      rcases hI.head_mem with hroot | ⟨hh, -⟩
      · rw [hroot]
        exact .refl _
      · exact hfrom_root _ hh hnot
    refine .inl ⟨rfl, hhead, index, ?_, fun b => ?_⟩
    · rw [hrun, hok]
      rfl
    · rw [hmemI b, hmem₁ b]
      constructor
      · rintro ⟨⟨hb, hne⟩, -, hnot⟩
        exact ⟨hb, hne, by_contra fun h => hnot ⟨db.root.id, hrootA, hfrom_root b hb h⟩⟩
      · rintro ⟨hb, hne, hreach⟩
        refine ⟨⟨hb, hne⟩, id, ?_⟩
        rintro ⟨a, ha, h₁⟩
        exact not_reaches_of_erased hmem₁ hI.wf (hall a ha).2 h₁ hreach

/-- `advance_root` keeps the invariant. -/
theorem Invariant.advanceRoot (hI : db.Invariant numFromId) {id : I}
    (h : (db.advanceRoot id).run = some (.ok db')) : db'.Invariant numFromId := by
  cases hget : db.getBlock id with
  | none =>
    simp only [ForkDatabaseImpl.advanceRoot, hget, terminating, liftDb, ExceptT.run_bind,
      ExceptT.run_mk, Option.bind_eq_bind, Option.bind_some] at h
    cases h
  | some nr =>
  obtain ⟨hnr, rfl⟩ := getBlock_spec hget
  rcases advanceRoot_cases hI hnr with ⟨hv, hhead, index, hok, hmem⟩ | ⟨-, e, herr⟩
  · rw [hok] at h
    cases h
    refine ⟨⟨(hI.wf nr hnr).1, fun b hb => hI.wf b ((hmem b).1 hb).1, fun b hb => ?_⟩, hv, ?_,
      fun b hb hbv => hI.head_best b ((hmem b).1 hb).1 hbv⟩
    · -- the parent of a block built on the new root is the new root or built on it
      obtain ⟨hb, hne, hreach⟩ := (hmem b).1 hb
      rcases Relation.ReflTransGen.cases_tail hreach with heq | ⟨z, hz, hc⟩
      · exact absurd heq hne
      obtain ⟨b', hb', rfl, hid'⟩ := mem_children.1 hc
      rw [eq_of_id hb' hb hid'] at hz
      by_cases hpn : b.previous = nr.id
      · exact .inl hpn
      rcases Relation.ReflTransGen.cases_tail hz with heq | ⟨z', -, hc'⟩
      · exact absurd heq hpn
      obtain ⟨p, hp, -, hpid⟩ := mem_children.1 hc'
      exact .inr ⟨p, (hmem p).2 ⟨hp, hpid ▸ hpn, hpid ▸ hz⟩, hpid⟩
    · rcases hI.head_mem with hroot | ⟨hh, hhv⟩
      · -- the root is built on no block
        exfalso
        rw [hroot] at hhead
        rcases Relation.ReflTransGen.cases_tail hhead with heq | ⟨z, -, hc⟩
        · exact hI.id_ne_root hnr heq.symm
        · obtain ⟨b, hb, -, hid⟩ := mem_children.1 hc
          exact hI.id_ne_root hb hid
      · by_cases hid : db.head.id = nr.id
        · exact .inl (eq_of_id hh hnr hid)
        · exact .inr ⟨(hmem _).2 ⟨hh, hid, hhead⟩, hhv⟩
  · rw [herr] at h
    cases h

end ForkDatabaseImpl

/-! ## Runs -/

section Runs

variable (numFromId : I → UInt32)

/-- Calls whose blocks are built as the controller builds them. -/
def ForkCall.Admissible : ForkCall I → Prop
  | .reset root_bhs => numFromId root_bhs.id = root_bhs.block_num
  | .add n _ => WellFormed numFromId n
  | _ => True

instance : ∀ call : ForkCall I, Decidable (call.Admissible numFromId)
  | .reset root_bhs => inferInstanceAs (Decidable (numFromId root_bhs.id = root_bhs.block_num))
  | .add n _ => inferInstanceAs (Decidable (WellFormed numFromId n))
  | .markValid _ | .remove _ | .advanceRoot _ | .rollbackHeadToRoot => isTrue trivial

namespace ForkDatabaseImpl

/-- The databases that a run of calls reaches from a `reset`, each call returning. A call that
raises is no step: every call but `advance_root` raises before it changes anything, and
`advance_root` raises after its first change only when the head is not built on the new root
(`advanceRoot_cases`). -/
inductive Reachable : ForkDatabaseImpl I → Prop
  | reset {root_bhs : ForkBlockState I} : numFromId root_bhs.id = root_bhs.block_num →
      Reachable (ForkDatabaseImpl.reset root_bhs)
  | step {db db' : ForkDatabaseImpl I} {call : ForkCall I} : Reachable db →
      call.Admissible numFromId → (db.step call).run = some (.ok db') → Reachable db'

variable {numFromId} {db db' : ForkDatabaseImpl I}

/-- One call that returns keeps the invariant. -/
theorem Invariant.step (hI : db.Invariant numFromId) {call : ForkCall I}
    (hadm : call.Admissible numFromId) (h : (db.step call).run = some (.ok db')) :
    db'.Invariant numFromId := by
  cases call with
  | reset root_bhs =>
    cases h
    exact Invariant.reset hadm
  | add n ignore_duplicate => exact hI.add hadm (Option.some.inj h)
  | markValid b => exact hI.markValid (Option.some.inj h)
  | remove id => exact hI.remove h
  | advanceRoot id => exact hI.advanceRoot h
  | rollbackHeadToRoot =>
    cases h
    exact hI.rollbackHeadToRoot

/-- Every reachable database is in the invariant. -/
theorem Reachable.invariant (h : db.Reachable numFromId) : db.Invariant numFromId := by
  induction h with
  | reset hroot => exact Invariant.reset hroot
  | step _ hadm hstep ih => exact ih.step hadm hstep

end ForkDatabaseImpl

end Runs

/-! ## The walks down a branch -/

namespace ForkDatabaseImpl

variable {numFromId : I → UInt32} {db : ForkDatabaseImpl I} (hT : db.Tree numFromId)
include hT

/-- A path down to the root has at most as many blocks as the index. -/
theorem Tree.length_le {b : ForkBlockState I} {l : List (ForkBlockState I)}
    (hb : b = db.root ∨ b ∈ db.index.rows)
    (hl : IsPath db.parent (· ∈ db.index.rows) b l db.root) : l.length ≤ db.index.rows.length := by
  have hnodup : l.Nodup :=
    (hl.pairwise_num_lt hT.linkedParents hb).imp fun h heq => by
      subst heq
      exact Nat.lt_irrefl _ h
  exact (List.Nodup.subperm hnodup fun y hy => hl.mem hy).length_le


/-- The loop of `fetch_branch` walks the path of parents down to the root, keeping the blocks
at most at `trim_after_block_num`. -/
theorem fetchBranchLoop_path (trim_after_block_num : UInt32) {b a : ForkBlockState I}
    {l : List (ForkBlockState I)} (hl : IsPath db.parent (· ∈ db.index.rows) b l a)
    (ha : a = db.root) {fuel : Nat} (hfuel : l.length ≤ fuel) :
    db.fetchBranchLoop trim_after_block_num fuel (db.getBlock b.id) =
      some (l.filter fun s => s.block_num ≤ trim_after_block_num) := by
  induction hl generalizing fuel with
  | nil =>
    rw [ha, hT.getBlock_root, fetchBranchLoop]
    rfl
  | @cons x p _ l hx hup _ ih =>
    obtain ⟨-, hpid⟩ := getBlockHeader_spec hup
    obtain ⟨fuel, rfl⟩ : ∃ f, fuel = f + 1 := ⟨fuel - 1, by simp at hfuel; omega⟩
    rw [getBlock_of_mem hx, fetchBranchLoop, ← hpid, ih ha (by simp at hfuel; omega)]
    by_cases htrim : x.block_num ≤ trim_after_block_num <;> simp [htrim]

/-- The loop of `search_on_branch` finds the first block at `block_num` on the path of parents
down to the root. -/
theorem searchOnBranchLoop_path (block_num : UInt32) {b a : ForkBlockState I}
    {l : List (ForkBlockState I)} (hl : IsPath db.parent (· ∈ db.index.rows) b l a)
    (ha : a = db.root) {fuel : Nat} (hfuel : l.length ≤ fuel) :
    db.searchOnBranchLoop block_num fuel (db.getBlock b.id) =
      some (l.find? fun s => s.block_num = block_num) := by
  induction hl generalizing fuel with
  | nil =>
    rw [ha, hT.getBlock_root, searchOnBranchLoop]
    rfl
  | @cons x p _ l hx hup _ ih =>
    obtain ⟨-, hpid⟩ := getBlockHeader_spec hup
    obtain ⟨fuel, rfl⟩ : ∃ f, fuel = f + 1 := ⟨fuel - 1, by simp at hfuel; omega⟩
    rw [getBlock_of_mem hx, searchOnBranchLoop]
    by_cases hnum : x.block_num = block_num
    · simp [hnum]
    · rw [if_neg hnum, ← hpid, ih ha (by simp at hfuel; omega)]
      simp [hnum]

end ForkDatabaseImpl

/-! ## The branch walks on the state machine -/

namespace ForkDatabaseImpl

/-- The fields that the branch walks of `ForkDatabase` read. -/
def toForkDatabase (db : ForkDatabaseImpl I) : ForkDatabase I where
  index := ⟨db.index.rows.map (·.toBlockState), by
    simpa [List.pairwise_map, BlockState.clash, ForkBlockState.clash] using db.index.no_clash⟩
  root := db.root.toBlockState

variable {numFromId : I → UInt32} {db : ForkDatabaseImpl I}

omit [LinearOrder I] in
/-- The blocks of the abstract database are those of the index without their flag. -/
theorem mem_toForkDatabase {b : BlockState I} :
    db.toForkDatabase.InIndex b ↔ ∃ b' ∈ db.index.rows, b'.toBlockState = b := by
  simp [toForkDatabase, ForkDatabase.InIndex]

/-- The walks of `ForkDatabase` find a block as the state machine finds it. -/
theorem toForkDatabase_getBlock (id : I) :
    db.toForkDatabase.getBlock id = (db.getBlock id).map (·.toBlockState) := by
  simp only [ForkDatabase.getBlock, toForkDatabase, getBlock, IndexedTable.find?, List.find?_map]
  rfl

/-- `get_block_header` reads the same in both databases. -/
theorem toForkDatabase_getBlockHeader (id : I) :
    db.toForkDatabase.getBlockHeader id = (db.getBlockHeader id).map (·.toBlockState) := by
  unfold ForkDatabase.getBlockHeader getBlockHeader
  rw [toForkDatabase_getBlock]
  split_ifs <;> simp_all [toForkDatabase]

/-- On a tree the blocks that the branch walks see form a tree too. -/
theorem Tree.toForkDatabase (hT : db.Tree numFromId) : db.toForkDatabase.TreeInvariant := by
  intro b hb
  obtain ⟨b', hb', rfl⟩ := mem_toForkDatabase.1 hb
  obtain ⟨p, hup, hp, hnum⟩ := hT.linkedParents b' hb'
  refine ⟨p.toBlockState, ?_, ?_, hnum⟩
  · show db.toForkDatabase.getBlockHeader b'.previous = some p.toBlockState
    rw [toForkDatabase_getBlockHeader]
    exact congrArg (Option.map _) hup
  · rcases hp with rfl | hp
    · exact .inl rfl
    · exact .inr (mem_toForkDatabase.2 ⟨p, hp, rfl⟩)


/-- The walk down two branches in step reads the same in both databases. -/
theorem lockStep_map : ∀ (fuel : Nat) (b₁ b₂ : ForkBlockState I),
    (db.lockStep fuel b₁ b₂).run.map
        (Except.map fun r => (r.1.map (·.toBlockState), r.2.map (·.toBlockState))) =
      (db.toForkDatabase.lockStep fuel b₁.toBlockState b₂.toBlockState).run
  | 0, b₁, b₂ => by
    simp only [lockStep, ForkDatabase.lockStep]
    split_ifs <;> rfl
  | fuel + 1, b₁, b₂ => by
    simp only [lockStep, ForkDatabase.lockStep]
    split_ifs with h
    · rw [toForkDatabase_getBlock, toForkDatabase_getBlock]
      cases hp₁ : db.getBlock b₁.previous with
      | none => rfl
      | some p₁ =>
        cases hp₂ : db.getBlock b₂.previous with
        | none => rfl
        | some p₂ =>
          have ih := lockStep_map fuel p₁ p₂
          simp only [ExceptT.run_bind, found, ForkDatabase.found, Option.map_some, liftDb,
            ExceptT.run_mk, Option.bind_eq_bind, Option.bind_some] at ih ⊢
          revert ih
          cases (db.lockStep fuel p₁ p₂).run with
          | none => intro ih; rw [← ih]; rfl
          | some r =>
            intro ih
            rw [← ih]
            obtain ⟨_ | _⟩ := r <;> rfl
    · rfl

/-- The walk down to a block number reads the same in both databases. -/
theorem descendTo_map (block_num : UInt32) : ∀ (fuel : Nat) (b : ForkBlockState I),
    (db.descendTo block_num fuel b).run.map
        (Except.map fun r => (r.1.map (·.toBlockState), r.2.toBlockState)) =
      (db.toForkDatabase.descendTo block_num fuel b.toBlockState).run
  | 0, b => by
    simp only [descendTo, ForkDatabase.descendTo]
    split_ifs <;> rfl
  | fuel + 1, b => by
    simp only [descendTo, ForkDatabase.descendTo]
    split_ifs with h
    · rw [toForkDatabase_getBlockHeader]
      cases hp : db.getBlockHeader b.previous with
      | none => rfl
      | some p =>
        have ih := descendTo_map block_num fuel p
        simp only [ExceptT.run_bind, found, ForkDatabase.found, Option.map_some, liftDb,
          ExceptT.run_mk, Option.bind_eq_bind, Option.bind_some] at ih ⊢
        revert ih
        cases (db.descendTo block_num fuel p).run with
        | none => intro ih; rw [← ih]; rfl
        | some r =>
          intro ih
          rw [← ih]
          obtain ⟨_ | _⟩ := r <;> rfl
    · rfl

/-- The walks of `fetch_branch_from` on the blocks of the index return the blocks that the walks
of `ForkDatabase` return. -/
theorem fetchBranchFrom_map (fuel : Nat) (first second : I) :
    (db.fetchBranchFrom fuel first second).run.map
        (Except.map fun r => (r.1.map (·.toBlockState), r.2.map (·.toBlockState))) =
      (db.toForkDatabase.fetchBranchFrom fuel first second).run := by
  simp only [fetchBranchFrom, ForkDatabase.fetchBranchFrom, toForkDatabase_getBlockHeader]
  cases hx : db.getBlockHeader first with
  | none => rfl
  | some x =>
  cases hy : db.getBlockHeader second with
  | none => rfl
  | some y =>
  simp only [ExceptT.run_bind, found, ForkDatabase.found, Option.map_some, liftDb,
    ExceptT.run_mk, Option.bind_eq_bind, Option.bind_some]
  rw [← descendTo_map y.block_num fuel x]
  cases (db.descendTo y.block_num fuel x).run with
  | none => rfl
  | some r =>
  rcases r with e | r₁
  · rfl
  simp only [Option.map_some, Except.map, Option.bind_some]
  rw [← descendTo_map r₁.2.block_num fuel y]
  cases (db.descendTo r₁.2.block_num fuel y).run with
  | none => rfl
  | some r =>
  rcases r with e | r₂
  · rfl
  simp only [Option.map_some, Except.map, Option.bind_some]
  split_ifs with hid
  · rfl
  simp only [ExceptT.run_bind]
  rw [← lockStep_map fuel r₁.2 r₂.2]
  cases (db.lockStep fuel r₁.2 r₂.2).run with
  | none => rfl
  | some r =>
  rcases r with e | r₃
  · rfl
  simp [Except.map]
/-- A loop's steps that end without raising: each step before the last ended without raising. -/
theorem run_bind_eq_ok {α β : Type} {x : ExceptT Exception Option α}
    {f : α → ExceptT Exception Option β} {b : β} (h : (x >>= f).run = some (.ok b)) :
    ∃ a, x.run = some (.ok a) ∧ (f a).run = some (.ok b) := by
  rw [ExceptT.run_bind] at h
  cases hx : x.run with
  | none => simp [hx] at h
  | some r =>
    rcases r with e | a
    · simp [hx] at h
    · simp only [hx, Option.bind_eq_bind, Option.bind_some] at h
      exact ⟨a, rfl, h⟩

omit [LinearOrder I] in
/-- What `found` returns is what it was given. -/
theorem mem_of_found {o : Option (ForkBlockState I)} {b : ForkBlockState I}
    (h : (found o).run = some (.ok b)) : o = some b := by
  cases o <;> simp_all [found, liftDb]

/-- The first two walks step through the root and the blocks of the index only. -/
theorem descendTo_mem {block_num : UInt32} : ∀ {fuel : Nat} {b : ForkBlockState I}
    {l : List (ForkBlockState I)} {last : ForkBlockState I},
    (b = db.root ∨ b ∈ db.index.rows) →
    (db.descendTo block_num fuel b).run = some (.ok (l, last)) →
      (∀ x ∈ l, x = db.root ∨ x ∈ db.index.rows) ∧ (last = db.root ∨ last ∈ db.index.rows)
  | 0, b, l, last, hb, h => by
    simp only [descendTo] at h
    split_ifs at h
    · simp [ExceptT.lift, ExceptT.run_mk] at h
    · cases h
      exact ⟨by simp, hb⟩
  | fuel + 1, b, l, last, hb, h => by
    simp only [descendTo] at h
    split_ifs at h
    · obtain ⟨p, hp, h⟩ := run_bind_eq_ok h
      obtain ⟨⟨l', last'⟩, hr, h⟩ := run_bind_eq_ok h
      cases h
      obtain ⟨hl', hlast⟩ := descendTo_mem (getBlockHeader_spec (mem_of_found hp)).1 hr
      exact ⟨fun x hx => (List.mem_cons.1 hx).elim (fun h => h ▸ hb) (hl' x), hlast⟩
    · cases h
      exact ⟨by simp, hb⟩

/-- The third walk steps through blocks of the index only. -/
theorem lockStep_mem : ∀ {fuel : Nat} {b₁ b₂ : ForkBlockState I}
    {l₁ l₂ : List (ForkBlockState I)},
    (b₁ = db.root ∨ b₁ ∈ db.index.rows) → (b₂ = db.root ∨ b₂ ∈ db.index.rows) →
    (db.lockStep fuel b₁ b₂).run = some (.ok (l₁, l₂)) →
      (∀ x ∈ l₁, x = db.root ∨ x ∈ db.index.rows) ∧ (∀ x ∈ l₂, x = db.root ∨ x ∈ db.index.rows)
  | 0, b₁, b₂, l₁, l₂, hb₁, hb₂, h => by
    simp only [lockStep] at h
    split_ifs at h
    · simp [ExceptT.lift, ExceptT.run_mk] at h
    · cases h
      exact ⟨by simpa using hb₁, by simpa using hb₂⟩
  | fuel + 1, b₁, b₂, l₁, l₂, hb₁, hb₂, h => by
    simp only [lockStep] at h
    split_ifs at h
    · obtain ⟨p₁, hp₁, h⟩ := run_bind_eq_ok h
      obtain ⟨p₂, hp₂, h⟩ := run_bind_eq_ok h
      obtain ⟨⟨l₁', l₂'⟩, hr, h⟩ := run_bind_eq_ok h
      cases h
      obtain ⟨hl₁, hl₂⟩ := lockStep_mem (.inr (getBlock_spec (mem_of_found hp₁)).1)
        (.inr (getBlock_spec (mem_of_found hp₂)).1) hr
      exact ⟨fun x hx => (List.mem_cons.1 hx).elim (fun h => h ▸ hb₁) (hl₁ x),
        fun x hx => (List.mem_cons.1 hx).elim (fun h => h ▸ hb₂) (hl₂ x)⟩
    · cases h
      exact ⟨by simpa using hb₁, by simpa using hb₂⟩

/-- `fetch_branch_from` returns the root and blocks of the index only. -/
theorem fetchBranchFrom_mem {fuel : Nat} {first second : I} {b₁ b₂ : List (ForkBlockState I)}
    (h : (db.fetchBranchFrom fuel first second).run = some (.ok (b₁, b₂))) :
    (∀ x ∈ b₁, x = db.root ∨ x ∈ db.index.rows) ∧ (∀ x ∈ b₂, x = db.root ∨ x ∈ db.index.rows) := by
  simp only [fetchBranchFrom] at h
  obtain ⟨x, hx, h⟩ := run_bind_eq_ok h
  obtain ⟨y, hy, h⟩ := run_bind_eq_ok h
  obtain ⟨r₁, hr₁, h⟩ := run_bind_eq_ok h
  obtain ⟨r₂, hr₂, h⟩ := run_bind_eq_ok h
  obtain ⟨hl₁, hlast₁⟩ := descendTo_mem (getBlockHeader_spec (mem_of_found hx)).1 hr₁
  obtain ⟨hl₂, hlast₂⟩ := descendTo_mem (getBlockHeader_spec (mem_of_found hy)).1 hr₂
  split_ifs at h
  · cases h
    exact ⟨hl₁, hl₂⟩
  obtain ⟨r₃, hr₃, h⟩ := run_bind_eq_ok h
  cases h
  obtain ⟨hl₃, hl₄⟩ := lockStep_mem hlast₁ hlast₂ hr₃
  exact ⟨fun x hx => (List.mem_append.1 hx).elim (hl₁ x) (hl₃ x),
    fun x hx => (List.mem_append.1 hx).elim (hl₂ x) (hl₄ x)⟩

/-- A path through the blocks of the index is a path of the blocks that the walks of
`ForkDatabase` see. -/
theorem IsPath.toForkDatabase {x a : ForkBlockState I} {l : List (ForkBlockState I)}
    (h : IsPath db.parent (· ∈ db.index.rows) x l a) :
    IsPath db.toForkDatabase.parent db.toForkDatabase.InIndex x.toBlockState
      (l.map (·.toBlockState)) a.toBlockState := by
  induction h with
  | nil => exact .nil _
  | @cons x p _ l hx hup _ ih =>
    refine .cons (mem_toForkDatabase.2 ⟨x, hx, rfl⟩) ?_ ih
    show db.toForkDatabase.getBlockHeader x.previous = some p.toBlockState
    rw [toForkDatabase_getBlockHeader]
    exact congrArg (Option.map _) hup

/-- On a tree, `fetch_branch_from` between two blocks found by `get_block_header`, with fuel
above both numbers, returns blocks of the index: the branches from the two blocks down to their
lowest common ancestor. -/
theorem fetchBranchFrom_spec (hT : db.Tree numFromId) {first second : I}
    {x y : ForkBlockState I} (hx : db.getBlockHeader first = some x)
    (hy : db.getBlockHeader second = some y) (fuel : Nat)
    (hfuel : x.block_num.toNat ≤ fuel ∧ y.block_num.toNat ≤ fuel) :
    ∃ b₁ b₂, (db.fetchBranchFrom fuel first second).run = some (.ok (b₁, b₂)) ∧
      (∀ b ∈ b₁ ++ b₂, b ∈ db.index.rows) ∧
      ∃ c, IsLCA db.toForkDatabase.parent db.toForkDatabase.InIndex c x.toBlockState
          y.toBlockState ∧
        IsPath db.toForkDatabase.parent db.toForkDatabase.InIndex x.toBlockState
          (b₁.map (·.toBlockState)) c ∧
        IsPath db.toForkDatabase.parent db.toForkDatabase.InIndex y.toBlockState
          (b₂.map (·.toBlockState)) c := by
  have hx' : db.toForkDatabase.getBlockHeader first = some x.toBlockState := by
    rw [toForkDatabase_getBlockHeader, hx, Option.map_some]
  have hy' : db.toForkDatabase.getBlockHeader second = some y.toBlockState := by
    rw [toForkDatabase_getBlockHeader, hy, Option.map_some]
  obtain ⟨B₁, B₂, hrun, c, hlca, hp₁, hp₂⟩ :=
    ForkDatabase.fetchBranchFrom_spec hT.toForkDatabase hx' hy' fuel hfuel
  have hmap : (db.fetchBranchFrom fuel first second).run.map
      (Except.map fun r => (r.1.map (·.toBlockState), r.2.map (·.toBlockState))) =
        some (.ok (B₁, B₂)) := by
    rw [fetchBranchFrom_map, hrun]
  obtain ⟨r, hr, hrB⟩ := Option.map_eq_some_iff.1 hmap
  rcases r with e | ⟨b₁, b₂⟩
  · cases hrB
  simp only [Except.map, Except.ok.injEq, Prod.mk.injEq] at hrB
  obtain ⟨rfl, rfl⟩ := hrB
  obtain ⟨hm₁, hm₂⟩ := fetchBranchFrom_mem hr
  refine ⟨b₁, b₂, hr, fun b hb => ?_, c, hlca, hp₁, hp₂⟩
  -- a block of a path is in the index, and the root is not
  have hpath : db.toForkDatabase.InIndex b.toBlockState := by
    rcases List.mem_append.1 hb with hb | hb
    · exact hp₁.mem (List.mem_map_of_mem hb)
    · exact hp₂.mem (List.mem_map_of_mem hb)
  rcases (List.mem_append.1 hb).elim (hm₁ b) (hm₂ b) with rfl | hb'
  · obtain ⟨b', hb', hb'eq⟩ := mem_toForkDatabase.1 hpath
    exact absurd (congrArg BlockState.id hb'eq) (hT.id_ne_root hb')
  · exact hb'

end ForkDatabaseImpl

/-! ## The pending head -/

namespace ForkDatabaseImpl

variable {numFromId : I → UInt32} {db : ForkDatabaseImpl I}

/-- `pending_head` is the head, to which no block that is not validated is preferred, or a block
of the index that is not validated, is preferred to the head, and is one to which no block that
is not validated is preferred. -/
theorem pendingHead_cases (db : ForkDatabaseImpl I) :
    (db.pendingHead = db.head ∧
        ∀ b ∈ db.index.rows, b.validated = false → firstPreferred b db.head = false) ∨
      (db.pendingHead ∈ db.index.rows ∧ db.pendingHead.validated = false ∧
        firstPreferred db.pendingHead db.head = true ∧
        ∀ b ∈ db.index.rows, b.validated = false → firstPreferred b db.pendingHead = false) := by
  unfold ForkDatabaseImpl.pendingHead
  cases hc : (db.index.rows.filter fun b => !b.validated).argmin libKey with
  | none =>
    -- every block is validated
    refine .inl ⟨rfl, fun b hb hbv => ?_⟩
    rw [List.argmin_eq_none, List.filter_eq_nil_iff] at hc
    exact absurd (by simp [hbv]) (hc b hb)
  | some c =>
    obtain ⟨hcmem, hcv⟩ := List.mem_filter.1 (List.argmin_mem hc)
    -- the candidate comes first among the blocks that are not validated
    have hmin : ∀ b ∈ db.index.rows, b.validated = false → firstPreferred b c = false :=
      fun b hb hbv => firstPreferred_eq_false_of_not_lt
        (List.not_lt_of_mem_argmin (List.mem_filter.2 ⟨hb, by simp [hbv]⟩) hc)
        (by simp_all)
    dsimp only
    split_ifs with hpref
    · exact .inr ⟨hcmem, by simpa using hcv, hpref, hmin⟩
    · exact .inl ⟨rfl, fun b hb hbv => firstPreferred_false_trans (hmin b hb hbv) (by simpa using hpref)⟩

/-- No block of the index is preferred to `pending_head`, which is the head or a block that is not
validated. -/
theorem Invariant.pendingHead (hI : db.Invariant numFromId) :
    (∀ b ∈ db.index.rows, firstPreferred b db.pendingHead = false) ∧
      (db.pendingHead = db.head ∨ db.pendingHead ∈ db.index.rows ∧
        db.pendingHead.validated = false) := by
  rcases db.pendingHead_cases with ⟨heq, hunv⟩ | ⟨hmem, hv, hpref, hmin⟩
  · refine ⟨fun b hb => ?_, .inl heq⟩
    rw [heq]
    cases hbv : b.validated
    · exact hunv b hb hbv
    · exact hI.head_best b hb hbv
  · refine ⟨fun b hb => ?_, .inr ⟨hmem, hv⟩⟩
    cases hbv : b.validated
    · exact hmin b hb hbv
    · -- a validated block is not preferred to the head, to which the candidate is preferred
      cases hbc : firstPreferred b db.pendingHead
      · rfl
      · have := hI.head_best b hb hbv
        rw [firstPreferred_trans hbc hpref] at this
        cases this

end ForkDatabaseImpl

/-! ## A run with two forks

Ids store their block number in their tens: the root is block 1, and blocks 20 and 21 are two
forks at block 2, of which block 20 is validated. -/

namespace ForkDatabaseImpl

/-- The block number that an id of the run stores. -/
def sampleNumFromId (id : ℕ) : UInt32 := (id / 10).toUInt32

/-- The root of the run. -/
def sampleRoot : ForkBlockState ℕ :=
  { id := 10, previous := 0, block_num := 1, dpos_irreversible_blocknum := 0, validated := true }

/-- A block of the run at block 2. -/
def sampleBlock (id : ℕ) (validated : Bool) : ForkBlockState ℕ :=
  { id := id, previous := 10, block_num := 2, dpos_irreversible_blocknum := 1,
    validated := validated }

/-- The database after `reset`, `add` of the two forks and `mark_valid` of the first. -/
def sampleDb : ForkDatabaseImpl ℕ where
  index := ⟨[sampleBlock 20 true, sampleBlock 21 false], by decide⟩
  root := sampleRoot
  head := sampleBlock 20 true

/-- The two-fork database is reached by `reset`, two `add`s and a `mark_valid`. -/
theorem sampleDb_reachable : sampleDb.Reachable sampleNumFromId := by
  have h₀ : (ForkDatabaseImpl.reset sampleRoot).Reachable sampleNumFromId := .reset (by decide)
  have h₁ : ForkDatabaseImpl.Reachable sampleNumFromId
      { index := ⟨[sampleBlock 20 false], by decide⟩, root := sampleRoot, head := sampleRoot } :=
    .step h₀ (show (ForkCall.add (sampleBlock 20 false) false).Admissible sampleNumFromId by decide)
      rfl
  have h₂ : ForkDatabaseImpl.Reachable sampleNumFromId
      { index := ⟨[sampleBlock 20 false, sampleBlock 21 false], by decide⟩, root := sampleRoot,
        head := sampleRoot } :=
    .step h₁ (show (ForkCall.add (sampleBlock 21 false) false).Admissible sampleNumFromId by decide)
      rfl
  exact .step h₂ (show (ForkCall.markValid (sampleBlock 20 false)).Admissible sampleNumFromId from
    trivial) rfl

end ForkDatabaseImpl

/-! ## The fork database over runs -/

namespace ForkDatabaseImpl

variable {numFromId : I → UInt32} {db : ForkDatabaseImpl I}

/-- Every database that a run of calls reaches is a tree below its root, following
`header.previous` from each block of the index; its head is validated, the root or a block of the
index; and no validated block is preferred to the head. -/
theorem fork_database_invariant (h : db.Reachable numFromId) :
    (∀ b ∈ db.index.rows, ∃ l, IsPath db.parent (· ∈ db.index.rows) b l db.root) ∧
      db.head.validated = true ∧ (db.head = db.root ∨ db.head ∈ db.index.rows) ∧
      ∀ b ∈ db.index.rows, b.validated = true → firstPreferred b db.head = false := by
  have hI := h.invariant
  refine ⟨fun b hb => hI.exists_path hb, ?_, hI.head_mem.imp_right And.left, hI.head_best⟩
  rcases hI.head_mem with hroot | ⟨-, hv⟩
  · rw [hroot]
    exact hI.root_validated
  · exact hv

/-- On the two-fork database, each block has a path to the root, the head is validated and no
validated block is preferred to it. -/
theorem fork_database_invariant_two_forks :
    sampleDb.Reachable sampleNumFromId ∧
      (∀ b ∈ sampleDb.index.rows, ∃ l, IsPath sampleDb.parent (· ∈ sampleDb.index.rows) b l
        sampleDb.root) ∧
      sampleDb.head.validated = true ∧
      ∀ b ∈ sampleDb.index.rows, b.validated = true → firstPreferred b sampleDb.head = false :=
  ⟨sampleDb_reachable, (fork_database_invariant sampleDb_reachable).1,
    (fork_database_invariant sampleDb_reachable).2.1,
    (fork_database_invariant sampleDb_reachable).2.2.2⟩

/-- On every reachable database, `remove(id)` returns, raising exactly when the head is `id` or
built on it, and otherwise erasing `id` and every block built on it, and nothing else. -/
theorem remove_erases_subtree (h : db.Reachable numFromId) (id : I) :
    (Reaches db.children id db.head.id ∧ (db.remove id).run = some (.error removeHeadError)) ∨
    (¬ Reaches db.children id db.head.id ∧ ∃ index,
      (db.remove id).run = some (.ok { db with index := index }) ∧
      ∀ b, b ∈ index.rows ↔ b ∈ db.index.rows ∧ ¬ Reaches db.children id b.id) :=
  remove_spec h.invariant.wf id

/-- The head cannot be removed. -/
example : (sampleDb.remove 20).run = some (.error removeHeadError) := rfl

/-- On the two-fork database, `remove` of block 21 raises if the head is built on it, and otherwise
erases it with what is built on it. -/
theorem remove_erases_other_fork :
    sampleDb.Reachable sampleNumFromId ∧
      ((Reaches sampleDb.children 21 sampleDb.head.id ∧
          (sampleDb.remove 21).run = some (.error removeHeadError)) ∨
        (¬ Reaches sampleDb.children 21 sampleDb.head.id ∧ ∃ index,
          (sampleDb.remove 21).run = some (.ok { sampleDb with index := index }) ∧
          ∀ b, b ∈ index.rows ↔ b ∈ sampleDb.index.rows ∧ ¬ Reaches sampleDb.children 21 b.id)) :=
  ⟨sampleDb_reachable, remove_erases_subtree sampleDb_reachable 21⟩

/-- On every reachable database, `advance_root` to a block of the index returns exactly when the
block is validated and the head is built on it or is it; the block is then the root, the head
stays, and the index keeps exactly the blocks built on the new root. -/
theorem advance_root_prunes (h : db.Reachable numFromId) {nr : ForkBlockState I}
    (hnr : nr ∈ db.index.rows) :
    (nr.validated = true ∧ Reaches db.children nr.id db.head.id ∧ ∃ index,
        (db.advanceRoot nr.id).run = some (.ok { index := index, root := nr, head := db.head }) ∧
        ∀ b, b ∈ index.rows ↔
          b ∈ db.index.rows ∧ b.id ≠ nr.id ∧ Reaches db.children nr.id b.id) ∨
      (¬ (nr.validated = true ∧ Reaches db.children nr.id db.head.id) ∧
        ∃ e : Exception, (db.advanceRoot nr.id).run = some (.error e)) :=
  advanceRoot_cases h.invariant hnr

/-- Advancing the root to the head drops the other fork. -/
example : ((sampleDb.advanceRoot 20).run.map fun r => r.map fun db => (db.index.rows, db.root.id)) =
    some (.ok ([], 20)) := rfl

/-- On the two-fork database, `advance_root` to block 20 makes it the root and keeps what is built
on it when it is validated and the head is built on it, and raises otherwise. -/
theorem advance_root_to_head :
    sampleDb.Reachable sampleNumFromId ∧ sampleBlock 20 true ∈ sampleDb.index.rows ∧
      (((sampleBlock 20 true).validated = true ∧
          Reaches sampleDb.children (sampleBlock 20 true).id sampleDb.head.id ∧ ∃ index,
          (sampleDb.advanceRoot (sampleBlock 20 true).id).run =
            some (.ok { index := index, root := sampleBlock 20 true, head := sampleDb.head }) ∧
          ∀ b, b ∈ index.rows ↔ b ∈ sampleDb.index.rows ∧ b.id ≠ (sampleBlock 20 true).id ∧
            Reaches sampleDb.children (sampleBlock 20 true).id b.id) ∨
        (¬ ((sampleBlock 20 true).validated = true ∧
            Reaches sampleDb.children (sampleBlock 20 true).id sampleDb.head.id) ∧
          ∃ e : Exception,
            (sampleDb.advanceRoot (sampleBlock 20 true).id).run = some (.error e))) :=
  ⟨sampleDb_reachable, by decide, advance_root_prunes sampleDb_reachable (by decide)⟩

/-- On every reachable database no block of the index is preferred to `pending_head()`, which is
the head or a block not yet validated. -/
theorem pending_head_preferred (h : db.Reachable numFromId) :
    (∀ b ∈ db.index.rows, firstPreferred b db.pendingHead = false) ∧
      (db.pendingHead = db.head ∨ db.pendingHead ∈ db.index.rows ∧
        db.pendingHead.validated = false) :=
  h.invariant.pendingHead

/-- On the two-fork database, no block is preferred to the pending head, which is the head or a
block not yet validated. -/
theorem pending_head_two_forks :
    sampleDb.Reachable sampleNumFromId ∧
      (∀ b ∈ sampleDb.index.rows, firstPreferred b sampleDb.pendingHead = false) ∧
      (sampleDb.pendingHead = sampleDb.head ∨ sampleDb.pendingHead ∈ sampleDb.index.rows ∧
        sampleDb.pendingHead.validated = false) :=
  ⟨sampleDb_reachable, pending_head_preferred sampleDb_reachable⟩

/-- On every reachable database, `fetch_branch` and `search_on_branch` from a block of the index
return: they walk the path of parents from the block down to the root, the first keeping the
blocks at most at `trim_after_block_num`, the second finding the first block at `block_num`. -/
theorem fetch_branch_walks_path (h : db.Reachable numFromId) {b : ForkBlockState I}
    (hb : b ∈ db.index.rows) (trim_after_block_num block_num : UInt32) :
    ∃ l, IsPath db.parent (· ∈ db.index.rows) b l db.root ∧
      db.fetchBranch b.id trim_after_block_num =
        some (l.filter fun s => s.block_num ≤ trim_after_block_num) ∧
      db.searchOnBranch b.id block_num = some (l.find? fun s => s.block_num = block_num) := by
  have hI := h.invariant
  obtain ⟨l, hl⟩ := hI.exists_path hb
  have hfuel : l.length ≤ db.index.rows.length + 1 :=
    Nat.le_succ_of_le (hI.length_le (.inr hb) hl)
  exact ⟨l, hl, fetchBranchLoop_path hI.toTree _ hl rfl hfuel,
    searchOnBranchLoop_path hI.toTree _ hl rfl hfuel⟩

/-- On the two-fork database, `fetch_branch` and `search_on_branch` from block 21 read its path to
the root. -/
theorem fetch_branch_of_fork :
    sampleDb.Reachable sampleNumFromId ∧ sampleBlock 21 false ∈ sampleDb.index.rows ∧
      ∃ l, IsPath sampleDb.parent (· ∈ sampleDb.index.rows) (sampleBlock 21 false) l
          sampleDb.root ∧
        sampleDb.fetchBranch 21 5 = some (l.filter fun s => s.block_num ≤ 5) ∧
        sampleDb.searchOnBranch 21 2 = some (l.find? fun s => s.block_num = 2) :=
  ⟨sampleDb_reachable, by decide,
    fetch_branch_walks_path sampleDb_reachable (b := sampleBlock 21 false) (by decide) 5 2⟩

/-- On every reachable database, `fetch_branch_from` between two blocks that `get_block_header`
finds, with fuel above both block numbers, returns without raising: the two branches from the
blocks down to their lowest common ancestor. -/
theorem reachable_fetch_branch_from (h : db.Reachable numFromId) {first second : I}
    {x y : ForkBlockState I} (hx : db.getBlockHeader first = some x)
    (hy : db.getBlockHeader second = some y) (fuel : Nat)
    (hfuel : x.block_num.toNat ≤ fuel ∧ y.block_num.toNat ≤ fuel) :
    ∃ b₁ b₂, (db.toForkDatabase.fetchBranchFrom fuel first second).run = some (.ok (b₁, b₂)) ∧
      ∃ c, IsLCA db.toForkDatabase.parent db.toForkDatabase.InIndex c x.toBlockState
          y.toBlockState ∧
        IsPath db.toForkDatabase.parent db.toForkDatabase.InIndex x.toBlockState b₁ c ∧
        IsPath db.toForkDatabase.parent db.toForkDatabase.InIndex y.toBlockState b₂ c := by
  have hx' : db.toForkDatabase.getBlockHeader first = some x.toBlockState := by
    rw [toForkDatabase_getBlockHeader, hx, Option.map_some]
  have hy' : db.toForkDatabase.getBlockHeader second = some y.toBlockState := by
    rw [toForkDatabase_getBlockHeader, hy, Option.map_some]
  exact ForkDatabase.fetchBranchFrom_spec h.invariant.toTree.toForkDatabase hx' hy' fuel hfuel

/-- On the two-fork database, `fetch_branch_from` blocks 20 and 21 gives their two paths down to a
lowest common ancestor. -/
theorem fetch_branch_from_two_heads :
    sampleDb.Reachable sampleNumFromId ∧
      sampleDb.getBlockHeader 20 = some (sampleBlock 20 true) ∧
      sampleDb.getBlockHeader 21 = some (sampleBlock 21 false) ∧
      (sampleBlock 20 true).block_num.toNat ≤ 2 ∧ (sampleBlock 21 false).block_num.toNat ≤ 2 ∧
      ∃ b₁ b₂, (sampleDb.toForkDatabase.fetchBranchFrom 2 20 21).run = some (.ok (b₁, b₂)) ∧
        ∃ c, IsLCA sampleDb.toForkDatabase.parent sampleDb.toForkDatabase.InIndex c
            (sampleBlock 20 true).toBlockState (sampleBlock 21 false).toBlockState ∧
          IsPath sampleDb.toForkDatabase.parent sampleDb.toForkDatabase.InIndex
            (sampleBlock 20 true).toBlockState b₁ c ∧
          IsPath sampleDb.toForkDatabase.parent sampleDb.toForkDatabase.InIndex
            (sampleBlock 21 false).toBlockState b₂ c :=
  ⟨sampleDb_reachable, rfl, rfl, by decide, by decide,
    reachable_fetch_branch_from sampleDb_reachable rfl rfl 2 ⟨by decide, by decide⟩⟩

end ForkDatabaseImpl


end InfraBlockchain.Chain
