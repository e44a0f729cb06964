import InfraBlockchain.Chain.ForkDatabaseImpl

/-!
# Paths of the fork database across its calls

The controller holds a chain of blocks from its head down to the fork database's root. Seen as
the branch walks see them (`toForkDatabase`, which forgets `validated` and
`dpos_irreversible_blocknum`), such a chain is a path of parent links, and these lemmas say what
becomes of it when the database changes under it.

A path stays a path in any tree that still holds its blocks and its end (`IsPath.transfer`): the
parent of a block is found by its id, and the ids are unique. `mark_valid` changes nothing that
the walks see (`markValid_toForkDatabase`) and keeps every validated block as it is
(`markValid_keeps_validated`). Going down a path is going up the `by_prev` links that `remove`
follows (`reaches_of_isPath`), and conversely every block that `remove(id)` reaches lies on a path
up from `id` (`Tree.isAncestor_of_reaches`).
-/

namespace InfraBlockchain.Chain

open ParentLinks Worklist

variable {I : Type} [LinearOrder I]

namespace ForkDatabaseImpl

variable {numFromId : I → UInt32} {db db' : ForkDatabaseImpl I}

/-! ## Parents, as the walks find them -/

/-- The parent that the walks find has the block's `header.previous` as its id, and is the root or
a block of the index. -/
theorem toForkDatabase_parent_spec {b p : BlockState I} (h : db.toForkDatabase.parent b = some p) :
    ∃ q, (q = db.root ∨ q ∈ db.index.rows) ∧ q.id = b.previous ∧ q.toBlockState = p := by
  change db.toForkDatabase.getBlockHeader b.previous = some p at h
  rw [toForkDatabase_getBlockHeader] at h
  obtain ⟨q, hq, rfl⟩ := Option.map_eq_some_iff.1 h
  obtain ⟨hmem, hid⟩ := getBlockHeader_spec hq
  exact ⟨q, hmem, hid, rfl⟩

/-- On a tree, `get_block_header` finds the root and each block of the index by its id. -/
theorem Tree.getBlockHeader_self (hT : db.Tree numFromId) {q : ForkBlockState I}
    (hq : q = db.root ∨ q ∈ db.index.rows) : db.getBlockHeader q.id = some q := by
  rcases hq with rfl | hq
  · simp [getBlockHeader]
  · rw [getBlockHeader, if_neg (Ne.symm (hT.id_ne_root hq)), getBlock_of_mem hq]

/-- On a tree, the parent of a block is the root or the block of the index with the block's
`header.previous` as its id. -/
theorem Tree.toForkDatabase_parent (hT : db.Tree numFromId) {b : BlockState I}
    {q : ForkBlockState I} (hq : q = db.root ∨ q ∈ db.index.rows) (hid : q.id = b.previous) :
    db.toForkDatabase.parent b = some q.toBlockState := by
  change db.toForkDatabase.getBlockHeader b.previous = _
  rw [toForkDatabase_getBlockHeader, ← hid, hT.getBlockHeader_self hq, Option.map_some]

/-- The last block of a branch down to `a` is built on `a`. -/
theorem IsPath.previous_getLast {x a : BlockState I} {l : List (ForkBlockState I)}
    {back : ForkBlockState I}
    (h : IsPath db.toForkDatabase.parent db.toForkDatabase.InIndex x (l.map (·.toBlockState)) a)
    (hback : l.getLast? = some back) : a.id = back.previous := by
  obtain ⟨init, rfl⟩ := List.getLast?_eq_some_iff.1 hback
  simp only [List.map_append, List.map_cons, List.map_nil] at h
  obtain ⟨-, -, hq⟩ := h.of_append_singleton
  obtain ⟨q, -, hqid, rfl⟩ := toForkDatabase_parent_spec hq
  exact hqid

/-- A path down to a block that is the root or in the index of a tree stays a path of that tree
when its blocks are in the index: each parent is found by its id. -/
theorem IsPath.transfer (hT' : db'.Tree numFromId) {x a : BlockState I} {l : List (BlockState I)}
    (h : IsPath db.toForkDatabase.parent db.toForkDatabase.InIndex x l a)
    (ha : a = db'.root.toBlockState ∨ db'.toForkDatabase.InIndex a)
    (hl : ∀ y ∈ l, db'.toForkDatabase.InIndex y) :
    IsPath db'.toForkDatabase.parent db'.toForkDatabase.InIndex x l a := by
  refine h.congr hl fun y hy p hp => ?_
  obtain ⟨q, -, hqid, rfl⟩ := toForkDatabase_parent_spec hp
  -- the parent is the next block of the path or its end, so it is still there
  have hq' : q.toBlockState = db'.root.toBlockState ∨ db'.toForkDatabase.InIndex q.toBlockState :=
    (h.parent_mem hy hp).elim (fun hq => .inr (hl _ hq)) fun hq => hq ▸ ha
  rcases hq' with hroot | hq'
  · rw [hroot]
    exact hT'.toForkDatabase_parent (.inl rfl) (by rw [← hqid, hroot])
  · obtain ⟨q', hq'mem, hq'eq⟩ := mem_toForkDatabase.1 hq'
    rw [← hq'eq]
    exact hT'.toForkDatabase_parent (.inr hq'mem) (by rw [← hqid, ← hq'eq])

/-! ## `mark_valid` -/

omit [LinearOrder I] in
/-- The walks see the blocks by their ids, parents and numbers, which setting `validated`
keeps. -/
theorem toForkDatabase_setValidated (p : ForkBlockState I → Bool) (v : Bool)
    (head : ForkBlockState I) :
    ({ index := setValidated db.index p v, root := db.root, head := head } :
      ForkDatabaseImpl I).toForkDatabase = db.toForkDatabase := by
  have hrows : (setValidated db.index p v).rows.map (·.toBlockState) =
      db.index.rows.map (·.toBlockState) := by
    rw [setValidated, IndexedTable.rows_map, List.map_map]
    refine List.map_congr_left fun b _ => ?_
    simp only [Function.comp_apply]
    split_ifs <;> rfl
  simp only [toForkDatabase, hrows]

/-- `mark_valid` leaves the abstract database as it is. -/
theorem markValid_toForkDatabase {h : ForkBlockState I} (hok : db.markValid h = .ok db') :
    db'.toForkDatabase = db.toForkDatabase := by
  obtain ⟨-, rfl⟩ | ⟨-, -, c, -, rfl⟩ := markValid_cases hok
  · rfl
  · split_ifs
    · exact toForkDatabase_setValidated _ true c
    · exact toForkDatabase_setValidated _ true db.head

/-- `mark_valid` keeps the root. -/
theorem markValid_root {h : ForkBlockState I} (hok : db.markValid h = .ok db') :
    db'.root = db.root := by
  obtain ⟨-, rfl⟩ | ⟨-, -, c, -, rfl⟩ := markValid_cases hok
  · rfl
  · split_ifs <;> rfl

/-- Each block that `mark_valid` leaves is a block of the index, or one with the id marked, now
validated. -/
theorem mem_of_markValid {h : ForkBlockState I} (hok : db.markValid h = .ok db')
    {b' : ForkBlockState I} (hb' : b' ∈ db'.index.rows) :
    b' ∈ db.index.rows ∨ ∃ b ∈ db.index.rows, b.id = h.id ∧ b' = { b with validated := true } := by
  obtain ⟨-, rfl⟩ | ⟨-, -, c, -, rfl⟩ := markValid_cases hok
  · exact .inl hb'
  have hmem : b' ∈ (setValidated db.index (fun b => b.id = h.id) true).rows := by
    split_ifs at hb' <;> exact hb'
  obtain ⟨b, hb, rfl⟩ := mem_setValidated.1 hmem
  by_cases hid : b.id = h.id
  · exact .inr ⟨b, hb, hid, by simp [hid]⟩
  · exact .inl (by simpa [hid] using hb)

/-- `mark_valid` of a block of the index returns. -/
theorem markValid_of_mem {h : ForkBlockState I} (hh : h ∈ db.index.rows) :
    ∃ db', db.markValid h = .ok db' := by
  unfold markValid
  cases hv : h.validated
  · simp only [Bool.false_eq_true, if_false, getBlock_of_mem hh, liftDb, bind, Except.bind]
    split <;> exact ⟨_, rfl⟩
  · exact ⟨db, rfl⟩

/-- After `mark_valid` of a block of the index, the block with its id is validated. -/
theorem markValid_validated_self {h : ForkBlockState I} (hh : h ∈ db.index.rows)
    (hok : db.markValid h = .ok db') {b : ForkBlockState I} (hb : b ∈ db'.index.rows)
    (hid : b.id = h.id) : b.validated = true := by
  obtain ⟨hv, rfl⟩ | ⟨-, -, c, -, rfl⟩ := markValid_cases hok
  · rw [eq_of_id hb hh hid]
    exact hv
  have hmem : b ∈ (setValidated db.index (fun b => b.id = h.id) true).rows := by
    split_ifs at hb <;> exact hb
  obtain ⟨r, -, rfl⟩ := mem_setValidated.1 hmem
  split_ifs at hid ⊢ with hrid
  · rfl
  · exact absurd hid (by simpa using hrid)

/-- `mark_valid` keeps the blocks with other ids as they are. -/
theorem markValid_keeps_other {h : ForkBlockState I} (hok : db.markValid h = .ok db')
    {b : ForkBlockState I} (hb : b ∈ db.index.rows) (hid : b.id ≠ h.id) : b ∈ db'.index.rows := by
  obtain ⟨-, rfl⟩ | ⟨-, -, c, -, rfl⟩ := markValid_cases hok
  · exact hb
  · have hmem : b ∈ (setValidated db.index (fun b => b.id = h.id) true).rows :=
      mem_setValidated.2 ⟨b, hb, by simp [hid]⟩
    split_ifs <;> exact hmem

/-- A validated block stays in the index as it is. -/
theorem markValid_keeps_validated {h : ForkBlockState I} (hok : db.markValid h = .ok db')
    {b : ForkBlockState I} (hb : b ∈ db.index.rows) (hv : b.validated = true) :
    b ∈ db'.index.rows := by
  obtain ⟨-, rfl⟩ | ⟨-, -, c, -, rfl⟩ := markValid_cases hok
  · exact hb
  · split_ifs <;> exact mem_setValidated_of_validated hb hv

/-! ## Paths and the `by_prev` links -/

/-- A path goes down the `by_prev` links that `remove` follows up. -/
theorem reaches_of_isPath {x a : BlockState I} {l : List (BlockState I)}
    (h : IsPath db.toForkDatabase.parent db.toForkDatabase.InIndex x l a) :
    Reaches db.children a.id x.id := by
  induction h with
  | nil => exact .refl _
  | cons hx hp _ ih =>
    obtain ⟨b, hb, rfl⟩ := mem_toForkDatabase.1 hx
    obtain ⟨q, -, hqid, rfl⟩ := toForkDatabase_parent_spec hp
    exact .tail ih (mem_children.2 ⟨b, hb, hqid.symm, rfl⟩)

/-- A removal of the blocks that the links reach from `id` keeps each block below a block that they
do not reach. -/
theorem inIndex_of_removed {id : I}
    (hmem : ∀ b, b ∈ db'.index.rows ↔ b ∈ db.index.rows ∧ ¬ Reaches db.children id b.id)
    {v w : BlockState I} (hv : db.toForkDatabase.InIndex v)
    (hanc : IsAncestor db.toForkDatabase.parent db.toForkDatabase.InIndex v w)
    (hw : ¬ Reaches db.children id w.id) : db'.toForkDatabase.InIndex v := by
  obtain ⟨r, hr, rfl⟩ := mem_toForkDatabase.1 hv
  obtain ⟨k, hk⟩ := hanc
  exact mem_toForkDatabase.2 ⟨r, (hmem r).2 ⟨hr, fun hreach => hw (hreach.trans (reaches_of_isPath hk))⟩, rfl⟩

/-- On a tree, a block of the index that the `by_prev` links reach from a block is on a path up
from it. -/
theorem Tree.isAncestor_of_reaches (hT : db.Tree numFromId) {x y : ForkBlockState I}
    (hx : x = db.root ∨ x ∈ db.index.rows) (hy : y ∈ db.index.rows)
    (h : Reaches db.children x.id y.id) :
    IsAncestor db.toForkDatabase.parent db.toForkDatabase.InIndex x.toBlockState y.toBlockState := by
  -- along the links, every id reached is `x`'s or that of a block above it
  have hall : ∀ w, Reaches db.children x.id w → w = x.id ∨ ∃ b ∈ db.index.rows, b.id = w ∧
      IsAncestor db.toForkDatabase.parent db.toForkDatabase.InIndex x.toBlockState
        b.toBlockState := by
    intro w hw
    induction hw with
    | refl => exact .inl rfl
    | tail _ hc ih =>
      obtain ⟨b, hb, hprev, rfl⟩ := mem_children.1 hc
      have hstep : ∀ q, (q = db.root ∨ q ∈ db.index.rows) → q.id = b.previous →
          IsAncestor db.toForkDatabase.parent db.toForkDatabase.InIndex x.toBlockState
            q.toBlockState →
          IsAncestor db.toForkDatabase.parent db.toForkDatabase.InIndex x.toBlockState
            b.toBlockState := fun q hq hqid hxq =>
        hxq.trans (.parent (mem_toForkDatabase.2 ⟨b, hb, rfl⟩)
          (hT.toForkDatabase_parent hq hqid))
      refine .inr ⟨b, hb, rfl, ?_⟩
      rcases ih with hz | ⟨q, hq, hqid, hxq⟩
      · exact hstep x hx (hprev.trans hz).symm (.refl _)
      · exact hstep q (.inr hq) (hqid.trans hprev.symm) hxq
  rcases hall y.id h with hid | ⟨b, hb, hbid, hxb⟩
  · -- the block has the id of `x`, so it is `x`
    rcases hx with rfl | hx
    · exact absurd hid.symm (hT.id_ne_root hy).symm
    · rw [eq_of_id hy hx hid]
      exact .refl _
  · rwa [eq_of_id hy hb hbid.symm]

/-- A block above the lowest common ancestor of two blocks, below the first, is not below a block
below the second: it would be a common ancestor above the lowest. -/
theorem Tree.not_reaches_of_isLCA (hT : db.Tree numFromId) {c x y : BlockState I}
    (hlca : IsLCA db.toForkDatabase.parent db.toForkDatabase.InIndex c x y)
    (hc : c = db.root.toBlockState ∨ db.toForkDatabase.InIndex c) {b o : ForkBlockState I}
    (hb : b ∈ db.index.rows) (ho : o ∈ db.index.rows)
    (hbx : IsAncestor db.toForkDatabase.parent db.toForkDatabase.InIndex b.toBlockState x)
    (hcb : c.block_num.toNat < b.block_num.toNat)
    (hoy : IsAncestor db.toForkDatabase.parent db.toForkDatabase.InIndex o.toBlockState y) :
    ¬ Reaches db.children b.id o.id := by
  intro hreach
  have hby := (hT.isAncestor_of_reaches (.inr hb) ho hreach).trans hoy
  have hle := (hlca.2.2 _ hbx hby).num_le hT.toForkDatabase hc
  exact absurd hle (Nat.not_le.2 hcb)

end ForkDatabaseImpl

end InfraBlockchain.Chain
