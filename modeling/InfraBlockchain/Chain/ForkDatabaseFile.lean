import InfraBlockchain.Chain.ForkDatabaseImpl
import InfraBlockchain.Lib.ParentOrder
import Mathlib.Data.List.TakeWhile

/-!
# Closing and reopening the fork database

`fork_database::close()` writes `fork_db.dat`: a totem, the version, the root's header state, the
blocks of the index and the head's id. `fork_database::open` reads it back: it resets the database
to the root and adds the blocks one by one, each of which must find its previous block, then looks
the head up by its id and checks it against the first block of `by_lib_block_num`. The file is
modelled as its sequence of records (`ForkDbFile`); the byte packing is not.

`close()` does not write the blocks by ancestry: it merges the validated and the unvalidated
blocks of `by_lib_block_num`, each taken from its back, so that the blocks come out in increasing
`(dpos_irreversible_blocknum, block_num)` (`pairwise_closeOrder`). A parent has the lower
`block_num`, so it is written before its child exactly when its `dpos_irreversible_blocknum` is
not the higher one. The round trip (`close_open_round_trip`): on every reachable database, `open`
of what `close` wrote rebuilds the root, the head and the blocks when no block of the index has a
lower `dpos_irreversible_blocknum` than the block it is built on (`DposMonotone`), and otherwise
raises "unlinkable block".
-/

namespace InfraBlockchain.Chain

open ParentLinks ParentOrder

variable {I : Type} [LinearOrder I]

/-- `fork_database::magic_number`. -/
def magicNumber : UInt32 := 0x30510FDB

/-- `fork_database::min_supported_version`. -/
def minSupportedVersion : UInt32 := 1

/-- `fork_database::max_supported_version`. -/
def maxSupportedVersion : UInt32 := 1

/-- The records of `fork_db.dat`, in the order `close()` packs them. The root is packed as its
`block_header_state`; its `validated` is not read back. -/
structure ForkDbFile (I : Type) where
  /-- The totem. -/
  totem : UInt32
  /-- The version. -/
  version : UInt32
  /-- The root's `block_header_state`. -/
  root : ForkBlockState I
  /-- The blocks, after their count. -/
  blocks : List (ForkBlockState I)
  /-- The head's id. -/
  head_id : I

namespace ForkDatabaseImpl

/-- `index.get<by_lib_block_num>()`: the blocks of the index in that index's order. -/
def byLibBlockNum (db : ForkDatabaseImpl I) : List (ForkBlockState I) :=
  db.index.rows.mergeSort fun a b => decide (libKey a ≤ libKey b)

/-- The order in which the loop of `close()` writes the blocks: the validated blocks of
`by_lib_block_num` (those before `lower_bound(false)`) and the others, each from its back, merged
so that the block not first preferred to the other goes first, the validated one on a tie. -/
def closeOrder (db : ForkDatabaseImpl I) : List (ForkBlockState I) :=
  let indx := db.byLibBlockNum
  List.merge (indx.takeWhile (·.validated)).reverse (indx.dropWhile (·.validated)).reverse
    fun validated unvalidated => !firstPreferred validated unvalidated

/-- `fork_database::close()` on a database with a root and a head: the records it writes. -/
def close (db : ForkDatabaseImpl I) : ForkDbFile I where
  totem := magicNumber
  version := maxSupportedVersion
  root := db.root
  blocks := db.closeOrder
  head_id := db.head.id

/-- The head that `open` sets after the blocks are added: the root when the head's id is the
root's, and otherwise the block of the index with that id, which must be there. -/
def findHead (db : ForkDatabaseImpl I) (head_id : I) : Except Exception (ForkBlockState I) :=
  if db.root.id = head_id then pure db.root else
    liftDb .fork_database_exception
      "could not find head while reconstructing fork database from file; '${filename}' is likely corrupted"
      (db.getBlock head_id)

/-- The last checks of `open`: when the first block of `by_lib_block_num` is missing or not
validated (`candidate == end() || !(*candidate)->is_valid()`) the head must be the root, and
otherwise that block must not be preferred to the head. -/
def checkHead (db : ForkDatabaseImpl I) : Except Exception Unit :=
  match db.libBegin.filter (·.validated) with
  | none =>
    eosAssert (db.head.id = db.root.id) .fork_database_exception
      "head not set to root despite no better option available; '${filename}' is likely corrupted"
  | some candidate =>
    eosAssert (!firstPreferred candidate db.head) .fork_database_exception
      "head not set to best available option available; '${filename}' is likely corrupted"

/-- `fork_database::open` on an existing `fork_db.dat`, with a validator that accepts every
block: the totem and the version are checked, the database is reset to the root, each block is
added with `ignore_duplicate = false`, and the head is found by its id and checked. -/
def «open» (f : ForkDbFile I) : Except Exception (ForkDatabaseImpl I) := do
  eosAssert (f.totem == magicNumber) .fork_database_exception
    "Fork database file '${filename}' has unexpected magic number: ${actual_totem}. Expected ${expected_totem}"
  eosAssert (minSupportedVersion ≤ f.version && f.version ≤ maxSupportedVersion)
    .fork_database_exception
    "Unsupported version of fork database file '${filename}'. Fork database version is ${version} while code supports version(s) [${min},${max}]"
  let db ← f.blocks.foldlM (fun d s => d.add s false) (reset f.root)
  let head ← db.findHead f.head_id
  let db := { db with head := head }
  db.checkHead
  return db

/-- No block of the index has a lower `dpos_irreversible_blocknum` than the block of the index
it is built on. -/
def DposMonotone (db : ForkDatabaseImpl I) : Prop :=
  ∀ b ∈ db.index.rows, ∀ p ∈ db.index.rows, p.id = b.previous →
    p.dpos_irreversible_blocknum ≤ b.dpos_irreversible_blocknum

instance (db : ForkDatabaseImpl I) : Decidable db.DposMonotone :=
  inferInstanceAs (Decidable (∀ b ∈ db.index.rows, ∀ p ∈ db.index.rows, p.id = b.previous →
    p.dpos_irreversible_blocknum ≤ b.dpos_irreversible_blocknum))

end ForkDatabaseImpl

/-! ## The order of `close()` -/

namespace ForkDatabaseImpl

variable {db : ForkDatabaseImpl I}

/-- The index by last irreversible block holds the blocks of the index. -/
theorem perm_byLibBlockNum : db.byLibBlockNum.Perm db.index.rows :=
  List.mergeSort_perm _ _

/-- The index by last irreversible block is ordered by its key. -/
theorem pairwise_byLibBlockNum :
    db.byLibBlockNum.Pairwise fun a b => decide (libKey a ≤ libKey b) = true :=
  List.pairwise_mergeSort
    (fun a b c hab hbc => decide_eq_true
      (le_trans (of_decide_eq_true hab : libKey a ≤ libKey b) (of_decide_eq_true hbc)))
    (fun a b => by simpa using le_total (libKey a) (libKey b)) _

/-- Past the validated blocks at the front of a list sorted by `by_lib_block_num`, no block is
validated. -/
theorem validated_of_mem_dropWhile :
    ∀ {l : List (ForkBlockState I)}, l.Pairwise (fun a b => decide (libKey a ≤ libKey b) = true) →
      ∀ b ∈ l.dropWhile (·.validated), b.validated = false
  | [], _, b, hb => by simp at hb
  | a :: l, hl, b, hb => by
    rw [List.pairwise_cons] at hl
    cases ha : a.validated
    · rw [List.dropWhile_cons_of_neg (by simp [ha])] at hb
      rcases List.mem_cons.1 hb with rfl | hb
      · exact ha
      · -- a validated block would come before `a`
        by_contra hbv
        have hab := of_decide_eq_true (hl.1 b hb)
        exact absurd (libKey_lt_of_validated (by simpa using hbv) ha) (not_lt_of_ge hab)
    · rw [List.dropWhile_cons_of_pos (by simp [ha])] at hb
      exact validated_of_mem_dropWhile hl.2 b hb

/-- Read from its back, a part of `by_lib_block_num` whose blocks are all validated or all not is
in increasing `(dpos_irreversible_blocknum, block_num)`. -/
theorem pairwise_reverse_of_validated {l : List (ForkBlockState I)}
    (hl : l.Pairwise fun a b => decide (libKey a ≤ libKey b) = true) {v : Bool}
    (hv : ∀ b ∈ l, b.validated = v) :
    l.reverse.Pairwise fun a b => (!firstPreferred a b) = true := by
  rw [List.pairwise_reverse]
  refine hl.imp_of_mem fun {a b} ha hb hab => ?_
  rw [Bool.not_eq_true']
  exact firstPreferred_eq_false_of_not_lt (not_lt_of_ge (of_decide_eq_true hab))
    ((hv b hb).trans (hv a ha).symm)

/-- `close()` writes the blocks in increasing `(dpos_irreversible_blocknum, block_num)`. -/
theorem pairwise_closeOrder : db.closeOrder.Pairwise fun a b => firstPreferred a b = false := by
  have htake : (db.byLibBlockNum.takeWhile (·.validated)).reverse.Pairwise
      fun a b => (!firstPreferred a b) = true :=
    pairwise_reverse_of_validated (pairwise_byLibBlockNum.sublist (List.takeWhile_sublist _))
      fun b hb => List.mem_takeWhile_imp hb
  have hdrop : (db.byLibBlockNum.dropWhile (·.validated)).reverse.Pairwise
      fun a b => (!firstPreferred a b) = true :=
    pairwise_reverse_of_validated (pairwise_byLibBlockNum.sublist (List.dropWhile_sublist _))
      (validated_of_mem_dropWhile pairwise_byLibBlockNum)
  have hmerge := @List.pairwise_merge _ (fun a b : ForkBlockState I => !firstPreferred a b)
    (fun a b c hab hbc => by
      simp only [Bool.not_eq_true'] at *
      exact firstPreferred_false_trans hab hbc)
    (fun a b => by
      cases hab : firstPreferred a b
      · rfl
      · have hba : firstPreferred b a = false := by
          rw [← Bool.not_eq_true, firstPreferred_iff]
          rw [firstPreferred_iff] at hab
          omega
        simp [hba])
    _ _ htake hdrop
  exact hmerge.imp fun h => by simpa using h

/-- `close()` writes every block of the index once. -/
theorem perm_closeOrder : db.closeOrder.Perm db.index.rows := by
  unfold closeOrder
  refine (List.merge_perm_append _).trans ?_
  refine ((List.reverse_perm _).append (List.reverse_perm _)).trans ?_
  rw [List.takeWhile_append_dropWhile]
  exact perm_byLibBlockNum

/-- `close` writes each block once. -/
theorem nodup_closeOrder_ids : (db.closeOrder.map (·.id)).Nodup :=
  (perm_closeOrder.map _).nodup_iff.2 db.nodup_ids

end ForkDatabaseImpl

/-! ## Parents before children -/

namespace ForkDatabaseImpl

variable {numFromId : I → UInt32} {db : ForkDatabaseImpl I}

omit [LinearOrder I] in
/-- The parent of a well-formed block is one block number lower. -/
theorem block_num_of_parent (hT : db.Tree numFromId) {b p : ForkBlockState I}
    (hb : b ∈ db.index.rows) (hp : p ∈ db.index.rows) (hpb : p.id = b.previous) :
    p.block_num.toNat + 1 = b.block_num.toNat := by
  have hbwf := (hT.wf b hb).2
  rw [← hpb, (hT.wf p hp).1] at hbwf
  exact hbwf

/-- When no block has a lower `dpos_irreversible_blocknum` than its parent, `close()` writes
every block after its parent. -/
theorem parentsFirst_closeOrder (hT : db.Tree numFromId) (hmono : db.DposMonotone) :
    ParentsFirst (·.id) (·.previous) db.root.id [] db.closeOrder := by
  refine parentsFirst_of_pairwise pairwise_closeOrder fun b hb => ?_
  have hb' := perm_closeOrder.mem_iff.1 hb
  rcases hT.linked b hb' with hroot | ⟨p, hp, hpb⟩
  · exact .inl hroot
  have hnum := block_num_of_parent hT hb' hp hpb
  have hdpos := UInt32.le_iff_toNat_le.1 (hmono b hb' p hp hpb)
  refine .inr ⟨p, perm_closeOrder.mem_iff.2 hp, hpb, fun h => ?_, ?_⟩
  · subst h
    omega
  · -- the child is first preferred to its parent
    rw [Bool.not_eq_false, firstPreferred_iff]
    omega

/-- When a block has a lower `dpos_irreversible_blocknum` than its parent, `close()` writes it
before its parent. -/
theorem not_parentsFirst_closeOrder (hT : db.Tree numFromId) (hmono : ¬ db.DposMonotone) :
    ¬ ParentsFirst (·.id) (·.previous) db.root.id [] db.closeOrder := by
  simp only [DposMonotone, not_forall] at hmono
  obtain ⟨b, hb, p, hp, hpb, hlt⟩ := hmono
  refine not_parentsFirst_of_pairwise pairwise_closeOrder nodup_closeOrder_ids
    (perm_closeOrder.mem_iff.2 hp) (perm_closeOrder.mem_iff.2 hb) hpb
    (fun h => hT.id_ne_root hp (hpb.trans h)) ?_
  -- the parent is first preferred to its child
  have hnum := block_num_of_parent hT hb hp hpb
  rw [Bool.not_eq_false, firstPreferred_iff]
  have := mt UInt32.le_iff_toNat_le.2 hlt
  omega

end ForkDatabaseImpl

/-! ## Adding the blocks back -/

namespace ForkDatabaseImpl

variable {db : ForkDatabaseImpl I}

/-- `get_block_header` finds the root and the blocks of the index. -/
theorem getBlockHeader_isSome_iff {id : I} :
    (db.getBlockHeader id).isSome ↔ id = db.root.id ∨ id ∈ db.index.rows.map (·.id) := by
  unfold getBlockHeader
  split_ifs with hroot
  · simp [hroot]
  · rw [Option.isSome_iff_ne_none, Ne, getBlock_eq_none]
    simp [eq_comm, Ne.symm hroot]

/-- A block with a new id whose previous block is the root or in the index is added at the end
of the index, under the same root. -/
theorem add_of_linked {n : ForkBlockState I} (hfresh : n.id ∉ db.index.rows.map (·.id))
    (hlink : n.previous = db.root.id ∨ n.previous ∈ db.index.rows.map (·.id)) :
    ∃ db', db.add n false = .ok db' ∧ db'.index.rows = db.index.rows ++ [n] ∧
      db'.root = db.root := by
  obtain ⟨p, hp⟩ := Option.isSome_iff_exists.1 (getBlockHeader_isSome_iff.2 hlink)
  obtain ⟨index, hidx, hrows⟩ := IndexedTable.create_of_fresh (x := n)
    fun r hr hclash => hfresh (List.mem_map.2 ⟨r, hr, hclash⟩)
  simp only [add, hp, liftDb, hidx, bind, Except.bind, pure, Except.pure]
  split
  · split_ifs
    · exact ⟨_, rfl, hrows, rfl⟩
    · exact ⟨_, rfl, hrows, rfl⟩
  · exact ⟨_, rfl, hrows, rfl⟩

/-- A block whose previous block is neither the root nor in the index is unlinkable. -/
theorem add_of_unlinked {n : ForkBlockState I} {ignore_duplicate : Bool}
    (hlink : ¬ (n.previous = db.root.id ∨ n.previous ∈ db.index.rows.map (·.id))) :
    db.add n ignore_duplicate = .error ⟨.unlinkable_block_exception, "unlinkable block"⟩ := by
  have hp : db.getBlockHeader n.previous = none :=
    Option.not_isSome_iff_eq_none.1 fun h => hlink (getBlockHeader_isSome_iff.1 h)
  simp [add, hp, liftDb, bind, Except.bind]

/-- Adding blocks with new ids one by one, as `open` does: every block is added when each finds
its previous block at its turn, and otherwise the first that does not raises. -/
theorem foldlM_add : ∀ (L : List (ForkBlockState I)) (d : ForkDatabaseImpl I),
    ((d.index.rows ++ L).map (·.id)).Nodup →
      (ParentsFirst (·.id) (·.previous) d.root.id (d.index.rows.map (·.id)) L →
        ∃ d', L.foldlM (fun d s => d.add s false) d = .ok d' ∧
          d'.index.rows = d.index.rows ++ L ∧ d'.root = d.root) ∧
      (¬ ParentsFirst (·.id) (·.previous) d.root.id (d.index.rows.map (·.id)) L →
        L.foldlM (fun d s => d.add s false) d =
          .error ⟨.unlinkable_block_exception, "unlinkable block"⟩)
  | [], d, _ => ⟨fun _ => ⟨d, rfl, by simp, rfl⟩, fun h => absurd trivial h⟩
  | n :: L, d, hnodup => by
    have hfresh : n.id ∉ d.index.rows.map (·.id) := by
      rw [List.map_append, List.map_cons, List.nodup_append] at hnodup
      exact fun h => hnodup.2.2 _ h _ List.mem_cons_self rfl
    rw [ParentsFirst, List.foldlM_cons]
    by_cases hlink : n.previous = d.root.id ∨ n.previous ∈ d.index.rows.map (·.id)
    · obtain ⟨d₁, hadd, hrows, hroot⟩ := add_of_linked hfresh hlink
      have hnodup₁ : ((d₁.index.rows ++ L).map (·.id)).Nodup := by
        rw [hrows, List.append_assoc]
        exact hnodup
      have hdone : d.index.rows.map (·.id) ++ [n.id] = d₁.index.rows.map (·.id) := by
        simp [hrows]
      obtain ⟨hok, herr⟩ := foldlM_add L d₁ hnodup₁
      rw [hroot, ← hdone] at hok herr
      rw [hadd]
      refine ⟨?_, fun h => herr fun h' => h ⟨hlink, h'⟩⟩
      rintro ⟨-, h⟩
      obtain ⟨d', hfold, hrows', hroot'⟩ := hok h
      refine ⟨d', hfold, ?_, hroot'⟩
      rw [hrows', hrows, List.append_assoc, List.singleton_append]
    · rw [add_of_unlinked hlink]
      exact ⟨fun h => absurd h.1 hlink, fun _ => rfl⟩

end ForkDatabaseImpl

/-! ## The round trip -/

namespace ForkDatabaseImpl

variable {numFromId : I → UInt32} {db : ForkDatabaseImpl I}

/-- The blocks of `close()`, added to the reset root, are added in order when every block comes
after its parent, and raise otherwise. -/
theorem foldlM_add_closeOrder (hI : db.Invariant numFromId) :
    (ParentsFirst (·.id) (·.previous) db.root.id [] db.closeOrder →
      ∃ d', db.closeOrder.foldlM (fun d s => d.add s false) (reset db.root) = .ok d' ∧
        d'.index.rows = db.closeOrder ∧ d'.root = db.root) ∧
    (¬ ParentsFirst (·.id) (·.previous) db.root.id [] db.closeOrder →
      db.closeOrder.foldlM (fun d s => d.add s false) (reset db.root) =
        .error ⟨.unlinkable_block_exception, "unlinkable block"⟩) := by
  -- the root was validated, so the reset gives it back unchanged
  have hroot : ({ db.root with validated := true } : ForkBlockState I) = db.root := by
    rw [← hI.root_validated]
  have hreset : reset db.root = { index := IndexedTable.empty, root := db.root, head := db.root } := by
    unfold reset
    rw [hroot]
  have h := foldlM_add db.closeOrder { index := IndexedTable.empty, root := db.root, head := db.root }
    (by simpa using nodup_closeOrder_ids)
  simp only [IndexedTable.rows_empty, List.map_nil, List.nil_append] at h
  rw [hreset]
  exact h

/-- Among the same blocks as the database, `open` finds the head by its id. -/
theorem findHead_eq (hI : db.Invariant numFromId) {d : ForkDatabaseImpl I}
    (hrows : d.index.rows.Perm db.index.rows) (hroot : d.root = db.root) :
    d.findHead db.head.id = .ok db.head := by
  unfold findHead
  rcases hI.head_mem with hh | ⟨hh, -⟩
  · rw [hroot, hh, if_pos rfl]
    rfl
  · rw [hroot, if_neg fun h => hI.id_ne_root hh h.symm, getBlock_of_mem (hrows.mem_iff.2 hh)]
    rfl

/-- With the same blocks, root and head as a database that satisfies the invariant, the checks
of `open` pass. -/
theorem checkHead_eq (hI : db.Invariant numFromId) {d : ForkDatabaseImpl I}
    (hrows : d.index.rows.Perm db.index.rows) (hroot : d.root = db.root) (hhead : d.head = db.head) :
    d.checkHead = .ok () := by
  unfold checkHead
  cases hc : d.libBegin.filter (·.validated) with
  | none =>
    -- no block is validated, so the head is the root
    have hh : db.head = db.root := by
      rcases hI.head_mem with hh | ⟨hh, hv⟩
      · exact hh
      · obtain ⟨c, hc'⟩ := Option.isSome_iff_exists.1 (libBegin_isSome (hrows.mem_iff.2 hh))
        have hcv := (libBegin_best hc' (hrows.mem_iff.2 hh) hv).1
        simp [hc', hcv] at hc
    simp [hh, hroot, hhead, eosAssert]
  | some c =>
    obtain ⟨hc', hcv⟩ := Option.filter_eq_some_iff.1 hc
    have hbest := hI.head_best c (hrows.mem_iff.1 (libBegin_mem hc')) (by simpa using hcv)
    simp [hbest, hhead, eosAssert]

/-- `open` of what `close()` wrote: the totem and the version pass, and the blocks are added to
the reset root. -/
theorem open_close_eq :
    «open» db.close = (do
      let d ← db.closeOrder.foldlM (fun d s => d.add s false) (reset db.root)
      let head ← d.findHead db.head.id
      let d := { d with head := head }
      d.checkHead
      return d) := rfl

/-- `open` of what `close()` wrote, on a database that satisfies the invariant: the root, the
head and the blocks come back when every block comes after its parent, and otherwise the first
block before its parent raises. -/
theorem open_close_cases (hI : db.Invariant numFromId) :
    (ParentsFirst (·.id) (·.previous) db.root.id [] db.closeOrder →
      ∃ db', «open» db.close = .ok db' ∧ db'.root = db.root ∧ db'.head = db.head ∧
        db'.index.rows.Perm db.index.rows) ∧
    (¬ ParentsFirst (·.id) (·.previous) db.root.id [] db.closeOrder →
      «open» db.close = .error ⟨.unlinkable_block_exception, "unlinkable block"⟩) := by
  obtain ⟨hok, herr⟩ := foldlM_add_closeOrder hI
  refine ⟨fun h => ?_, fun h => ?_⟩
  · obtain ⟨d, hfold, hrows, hroot⟩ := hok h
    have hperm : d.index.rows.Perm db.index.rows := hrows ▸ perm_closeOrder
    refine ⟨{ d with head := db.head }, ?_, hroot, rfl, hperm⟩
    rw [open_close_eq, hfold]
    simp only [bind, Except.bind, findHead_eq hI hperm hroot,
      checkHead_eq (d := { d with head := db.head }) hI hperm hroot rfl]
    rfl
  · rw [open_close_eq, herr h]
    rfl

/-- `close()` followed by `open` on every reachable database: when no block of the index has a
lower `dpos_irreversible_blocknum` than the block it is built on, the same root, the same head
and the same blocks come back; otherwise `close()` has written some block before its parent and
`open` raises "unlinkable block". -/
theorem close_open_round_trip (h : db.Reachable numFromId) :
    (db.DposMonotone ∧ ∃ db', «open» db.close = .ok db' ∧ db'.root = db.root ∧
        db'.head = db.head ∧ db'.index.rows.Perm db.index.rows) ∨
      (¬ db.DposMonotone ∧
        «open» db.close = .error ⟨.unlinkable_block_exception, "unlinkable block"⟩) := by
  have hI := h.invariant
  obtain ⟨hok, herr⟩ := open_close_cases hI
  by_cases hmono : db.DposMonotone
  · exact .inl ⟨hmono, hok (parentsFirst_closeOrder hI.toTree hmono)⟩
  · exact .inr ⟨hmono, herr (not_parentsFirst_closeOrder hI.toTree hmono)⟩

/-- The two-fork database is reached; where no irreversible number falls along a branch, `open` of
what `close` writes gives back its root, its head and its blocks, and otherwise `open` raises an
unlinkable block. -/
theorem close_open_two_forks :
    sampleDb.Reachable sampleNumFromId ∧
      ((sampleDb.DposMonotone ∧ ∃ db', «open» sampleDb.close = .ok db' ∧
          db'.root = sampleDb.root ∧ db'.head = sampleDb.head ∧
          db'.index.rows.Perm sampleDb.index.rows) ∨
        (¬ sampleDb.DposMonotone ∧
          «open» sampleDb.close = .error ⟨.unlinkable_block_exception, "unlinkable block"⟩)) :=
  ⟨sampleDb_reachable, close_open_round_trip sampleDb_reachable⟩

end ForkDatabaseImpl

end InfraBlockchain.Chain
