import InfraBlockchain.Lib.IndexedTable
import InfraBlockchain.Lib.ParentLinks
import InfraBlockchain.Types

/-!
# The branches of the fork database

`fork_database` keeps the blocks that are not yet irreversible in an index unique by id, above a
`root` block that is not in the index. `get_block` finds a block of the index by its id, and
`get_block_header` finds the root too. Each block names its parent, `header.previous`;
`TreeInvariant` says that the parent of every block of the index is found by `get_block_header`,
one block number lower, so that the blocks form a tree below the root (`ParentLinks`).

`fetch_branch_from(first, second)` returns the blocks of the two branches that lead from `first`
and from `second` down to a common ancestor. Its first two loops step the higher block back to the
height of the other (`descendTo`), and the third steps both back together until they have one
parent (`lockStep`), looking the parents up with `get_block` only; a block that is not found raises
`fork_db_block_not_found`. The loops are `while` loops, which end on a tree but not on every index,
so each has a fuel, and `none` is a loop that has not ended within it.

On a tree, with fuel above the block numbers, `fetch_branch_from` returns the blocks from each of
the two blocks down to, but excluding, their lowest common ancestor (`fetch_branch_from_lca`): the
third loop never reaches the root, which `get_block` does not find, since two different blocks
whose parents differ lie above the root's children.
-/

namespace InfraBlockchain.Chain

open ParentLinks

variable {I : Type} [DecidableEq I]

/-- The fields of a `block_state` that the walks read. -/
structure BlockState (I : Type) where
  /-- `id`. -/
  id : I
  /-- `header.previous`, the id of the parent block. -/
  previous : I
  /-- `block_num`. -/
  block_num : UInt32
  deriving DecidableEq, Repr

/-- Two blocks with one id in the unique `by_block_id` index. -/
def BlockState.clash (a b : BlockState I) : Prop := a.id = b.id

instance : DecidableRel (BlockState.clash (I := I)) := fun a b =>
  inferInstanceAs (Decidable (a.id = b.id))

/-- The fields of `fork_database_impl` that the walks read. -/
structure ForkDatabase (I : Type) where
  /-- `index`, by its unique `by_block_id` index. -/
  index : IndexedTable (BlockState I) BlockState.clash
  /-- `root`. -/
  root : BlockState I

namespace ForkDatabase

/-- `fork_database::get_block`: the block of the index with the id. -/
def getBlock (db : ForkDatabase I) (id : I) : Option (BlockState I) :=
  db.index.find? fun b => b.id = id

/-- `fork_database::get_block_header`: the root, or the block of the index with the id. -/
def getBlockHeader (db : ForkDatabase I) (id : I) : Option (BlockState I) :=
  if db.root.id = id then some db.root else db.getBlock id

/-- `EOS_ASSERT(block, fork_db_block_not_found, ...)` on a lookup. -/
def found (b : Option (BlockState I)) : ExceptT Exception Option (BlockState I) :=
  ExceptT.mk (some (liftDb .fork_db_block_not_found "block ${id} does not exist" b))

/-- The first two loops of `fetch_branch_from`: while the block is above `block_num`, it is
pushed on the branch and replaced by its parent, found as `get_block_header` finds it. The pushed
blocks and the last block. -/
def descendTo (db : ForkDatabase I) (block_num : UInt32) :
    Nat → BlockState I → ExceptT Exception Option (List (BlockState I) × BlockState I)
  | 0, b => if b.block_num > block_num then ExceptT.lift none else pure ([], b)
  | fuel + 1, b =>
    if b.block_num > block_num then do
      let p ← found (db.getBlockHeader b.previous)
      let r ← descendTo db block_num fuel p
      pure (b :: r.1, r.2)
    else pure ([], b)

/-- The third loop of `fetch_branch_from`: while the two blocks have different parents, both are
pushed on their branches and replaced by their parents, found by `get_block`; then both are
pushed once more. -/
def lockStep (db : ForkDatabase I) :
    Nat → BlockState I → BlockState I →
      ExceptT Exception Option (List (BlockState I) × List (BlockState I))
  | 0, b₁, b₂ => if b₁.previous ≠ b₂.previous then ExceptT.lift none else pure ([b₁], [b₂])
  | fuel + 1, b₁, b₂ =>
    if b₁.previous ≠ b₂.previous then do
      let p₁ ← found (db.getBlock b₁.previous)
      let p₂ ← found (db.getBlock b₂.previous)
      let r ← lockStep db fuel p₁ p₂
      pure (b₁ :: r.1, b₂ :: r.2)
    else pure ([b₁], [b₂])

/-- `fork_database::fetch_branch_from`, each loop with `fuel`. -/
def fetchBranchFrom (fuel : Nat) (db : ForkDatabase I) (first second : I) :
    ExceptT Exception Option (List (BlockState I) × List (BlockState I)) := do
  -- `(id == root->id) ? root : get_block(id)` is `get_block_header(id)`
  let first_branch ← found (db.getBlockHeader first)
  let second_branch ← found (db.getBlockHeader second)
  let r₁ ← db.descendTo second_branch.block_num fuel first_branch
  let r₂ ← db.descendTo r₁.2.block_num fuel second_branch
  if r₁.2.id = r₂.2.id then return (r₁.1, r₂.1)
  let r₃ ← db.lockStep fuel r₁.2 r₂.2
  return (r₁.1 ++ r₃.1, r₂.1 ++ r₃.2)

/-! ## The tree -/

/-- The blocks of the index. -/
def InIndex (db : ForkDatabase I) (b : BlockState I) : Prop := b ∈ db.index.rows

/-- The parent of a block, as `get_block_header` finds it. -/
def parent (db : ForkDatabase I) (b : BlockState I) : Option (BlockState I) :=
  db.getBlockHeader b.previous

/-- The blocks form a tree below the root: the parent of every block of the index is the root or
a block of the index, one block number lower. -/
def TreeInvariant (db : ForkDatabase I) : Prop :=
  Linked db.parent db.InIndex (fun b => b.block_num.toNat) db.root

instance (db : ForkDatabase I) : Decidable db.TreeInvariant :=
  decidable_of_iff (∀ b ∈ db.index.rows, ∃ p ∈ db.parent b,
      (p = db.root ∨ p ∈ db.index.rows) ∧ p.block_num.toNat + 1 = b.block_num.toNat) <| by
    simp only [TreeInvariant, Linked, InIndex, Option.mem_def]

/-- `get_block` finds a block of the index with the id asked for. -/
theorem getBlock_spec {db : ForkDatabase I} {id : I} {b : BlockState I}
    (h : db.getBlock id = some b) : b ∈ db.index.rows ∧ b.id = id := by
  have hfind := IndexedTable.mem_of_find? h
  exact ⟨hfind.1, of_decide_eq_true hfind.2⟩

/-- `get_block_header` finds the root or a block of the index, with the id asked for. -/
theorem getBlockHeader_spec {db : ForkDatabase I} {id : I} {b : BlockState I}
    (h : db.getBlockHeader id = some b) : (b = db.root ∨ b ∈ db.index.rows) ∧ b.id = id := by
  unfold getBlockHeader at h
  split at h
  · rename_i hroot
    cases h
    exact ⟨.inl rfl, hroot⟩
  · obtain ⟨hb, hid⟩ := getBlock_spec h
    exact ⟨.inr hb, hid⟩

/-- Away from the root's id, `get_block_header` is `get_block`. -/
theorem getBlockHeader_of_ne {db : ForkDatabase I} {id : I} (h : db.root.id ≠ id) :
    db.getBlockHeader id = db.getBlock id :=
  if_neg h

omit [DecidableEq I] in
@[simp] theorem found_some (b : BlockState I) : (found (some b)).run = some (.ok b) := rfl

section Tree

variable {db : ForkDatabase I} (hT : db.TreeInvariant)
include hT

/-- On a tree, `get_block_header` finds the root by its id only: no block of the index is it. -/
theorem id_of_getBlockHeader_root {id : I} (h : db.getBlockHeader id = some db.root) :
    db.root.id = id := by
  unfold getBlockHeader at h
  split at h
  · assumption
  · exact absurd rfl (not_root hT (getBlock_spec h).1)

/-- Two blocks of the tree at one height with one id are one block: the index has one block of
each id, and the root lies below its blocks. -/
theorem eq_of_id {b₁ b₂ : BlockState I} (h₁ : b₁ = db.root ∨ db.InIndex b₁)
    (h₂ : b₂ = db.root ∨ db.InIndex b₂) (hnum : b₁.block_num.toNat = b₂.block_num.toNat)
    (hid : b₁.id = b₂.id) : b₁ = b₂ := by
  rcases h₁ with rfl | h₁ <;> rcases h₂ with rfl | h₂
  · rfl
  · exact absurd hnum (Nat.ne_of_lt (num_root_lt hT h₂))
  · exact absurd hnum (Nat.ne_of_gt (num_root_lt hT h₁))
  · exact IndexedTable.eq_of_clash (fun _ _ h => h.symm) h₁ h₂ hid

/-- The first two loops: from a block of the tree above `block_num`, which is not below the root,
the blocks pushed are the path down to the block at `block_num`, all above it. -/
theorem descendTo_spec {block_num : UInt32} (hroot : db.root.block_num.toNat ≤ block_num.toNat) :
    ∀ (fuel : Nat) (b : BlockState I), (b = db.root ∨ db.InIndex b) →
      b.block_num.toNat ≤ fuel + block_num.toNat →
      ∃ l e, (db.descendTo block_num fuel b).run = some (.ok (l, e)) ∧
        IsPath db.parent db.InIndex b l e ∧
        e.block_num.toNat = min b.block_num.toNat block_num.toNat ∧
        ∀ b' ∈ l, block_num.toNat < b'.block_num.toNat := by
  intro fuel
  induction fuel with
  | zero =>
    intro b _ hfuel
    have hle : ¬ b.block_num > block_num := by
      rw [gt_iff_lt, UInt32.lt_iff_toNat_lt]
      omega
    refine ⟨[], b, by simp [descendTo, hle], .nil b, by omega, by simp⟩
  | succ fuel ih =>
    intro b hb hfuel
    by_cases hgt : b.block_num > block_num
    · rw [gt_iff_lt, UInt32.lt_iff_toNat_lt] at hgt
      -- above `block_num`, so above the root: a block of the index, with its parent one lower
      have hidx : db.InIndex b := hb.resolve_left fun h => by rw [h] at hgt; omega
      obtain ⟨p, hp, hptree, hpnum⟩ := hT b hidx
      dsimp only at hpnum
      obtain ⟨l, e, hrun, hpath, hnum, habove⟩ := ih p hptree (by omega)
      refine ⟨b :: l, e, ?_, .cons hidx hp hpath, by omega, ?_⟩
      · have hgt' : b.block_num > block_num := by
          rw [gt_iff_lt, UInt32.lt_iff_toNat_lt]
          exact hgt
        simp only [descendTo, hgt', if_true]
        simp [parent] at hp
        simp [ExceptT.run_bind, hp, hrun, Except.map]
      · intro b' hb'
        rcases List.mem_cons.1 hb' with rfl | hb'
        · exact hgt
        · exact habove b' hb'
    · have hle : b.block_num.toNat ≤ block_num.toNat := by
        rw [gt_iff_lt, UInt32.lt_iff_toNat_lt] at hgt
        omega
      refine ⟨[], b, by simp [descendTo, hgt], .nil b, by omega, by simp⟩

/-- Of two blocks of the tree at one height, with different ids, neither is the root: the other
would lie at its height. -/
theorem inIndex_of_ne {b₁ b₂ : BlockState I} (h₁ : b₁ = db.root ∨ db.InIndex b₁)
    (h₂ : b₂ = db.root ∨ db.InIndex b₂) (hnum : b₁.block_num.toNat = b₂.block_num.toNat)
    (hid : b₁.id ≠ b₂.id) : db.InIndex b₁ ∧ db.InIndex b₂ := by
  rcases h₁ with rfl | h₁ <;> rcases h₂ with rfl | h₂
  · exact absurd rfl hid
  · exact absurd hnum (Nat.ne_of_lt (num_root_lt hT h₂))
  · exact absurd hnum (Nat.ne_of_gt (num_root_lt hT h₁))
  · exact ⟨h₁, h₂⟩

/-- The third loop never looks for the root: of two blocks at one height whose parents differ,
neither parent is the root, since the other parent would lie at its height. -/
theorem root_ne_previous {b₁ b₂ p₂ : BlockState I} (hidx₁ : db.InIndex b₁)
    (hp₂ : db.parent b₂ = some p₂) (hp₂tree : p₂ = db.root ∨ db.InIndex p₂)
    (hnum : b₁.block_num.toNat = p₂.block_num.toNat + 1)
    (hprev : b₁.previous ≠ b₂.previous) : db.root.id ≠ b₁.previous := by
  intro hroot
  obtain ⟨p₁, hp₁, -, hnum₁⟩ := hT b₁ hidx₁
  dsimp only at hnum₁
  -- the parent of `b₁` is the root, so `p₂` lies at the root's height and is the root
  have hp₁root : p₁ = db.root := by
    simp only [parent, getBlockHeader, if_pos hroot, Option.some.injEq] at hp₁
    exact hp₁.symm
  subst hp₁root
  have hp₂root : p₂ = db.root :=
    hp₂tree.resolve_right fun h => absurd (num_root_lt hT h) (by omega)
  subst hp₂root
  exact hprev (hroot.symm.trans (id_of_getBlockHeader_root hT hp₂))

/-- The end of the third loop: two different blocks with one parent push themselves, and the
parent is their lowest common ancestor. -/
theorem lockStep_of_previous_eq {b₁ b₂ : BlockState I} (hidx₁ : db.InIndex b₁)
    (hidx₂ : db.InIndex b₂) (hnum : b₁.block_num.toNat = b₂.block_num.toNat)
    (hid : b₁.id ≠ b₂.id) (hprev : b₁.previous = b₂.previous) (fuel : Nat) :
    ∃ c l₁ l₂, (db.lockStep fuel b₁ b₂).run = some (.ok (l₁, l₂)) ∧
      IsLCA db.parent db.InIndex c b₁ b₂ ∧ IsPath db.parent db.InIndex b₁ l₁ c ∧
        IsPath db.parent db.InIndex b₂ l₂ c := by
  obtain ⟨p, hp, -, -⟩ := hT b₁ hidx₁
  have hp₂ : db.parent b₂ = some p := by rw [parent, ← hprev]; exact hp
  have hne : b₁ ≠ b₂ := fun h => hid (congrArg BlockState.id h)
  refine ⟨p, [b₁], [b₂], ?_, isLCA_of_parent hT hidx₁ hidx₂ hp hp₂ hne hnum,
    .cons hidx₁ hp (.nil p), .cons hidx₂ hp₂ (.nil p)⟩
  cases fuel <;> simp [lockStep, hprev]

/-- The third loop: two different blocks of the tree at one height push the paths down to, but
excluding, their lowest common ancestor, when the fuel covers their height above the root's
children. -/
theorem lockStep_spec :
    ∀ (fuel : Nat) (b₁ b₂ : BlockState I), (b₁ = db.root ∨ db.InIndex b₁) →
      (b₂ = db.root ∨ db.InIndex b₂) → b₁.block_num.toNat = b₂.block_num.toNat → b₁.id ≠ b₂.id →
      b₁.block_num.toNat ≤ fuel + db.root.block_num.toNat + 1 →
      ∃ c l₁ l₂, (db.lockStep fuel b₁ b₂).run = some (.ok (l₁, l₂)) ∧
        IsLCA db.parent db.InIndex c b₁ b₂ ∧ IsPath db.parent db.InIndex b₁ l₁ c ∧
          IsPath db.parent db.InIndex b₂ l₂ c := by
  intro fuel
  induction fuel with
  | zero =>
    intro b₁ b₂ h₁ h₂ hnum hid hfuel
    obtain ⟨hidx₁, hidx₂⟩ := inIndex_of_ne hT h₁ h₂ hnum hid
    by_cases hprev : b₁.previous = b₂.previous
    · exact lockStep_of_previous_eq hT hidx₁ hidx₂ hnum hid hprev 0
    · -- parents that differ are not the root, so the blocks lie two above it
      obtain ⟨p₁, hp₁, hp₁tree, hnum₁⟩ := hT b₁ hidx₁
      obtain ⟨p₂, hp₂, hp₂tree, hnum₂⟩ := hT b₂ hidx₂
      dsimp only at hnum₁ hnum₂
      have hroot := root_ne_previous hT hidx₁ hp₂ hp₂tree (by omega) hprev
      have hp₁idx : db.InIndex p₁ := by
        rw [parent, getBlockHeader_of_ne hroot] at hp₁
        exact (getBlock_spec hp₁).1
      have := num_root_lt hT hp₁idx
      omega
  | succ fuel ih =>
    intro b₁ b₂ h₁ h₂ hnum hid hfuel
    obtain ⟨hidx₁, hidx₂⟩ := inIndex_of_ne hT h₁ h₂ hnum hid
    by_cases hprev : b₁.previous = b₂.previous
    · exact lockStep_of_previous_eq hT hidx₁ hidx₂ hnum hid hprev (fuel + 1)
    · obtain ⟨p₁, hp₁, hp₁tree, hnum₁⟩ := hT b₁ hidx₁
      obtain ⟨p₂, hp₂, hp₂tree, hnum₂⟩ := hT b₂ hidx₂
      dsimp only at hnum₁ hnum₂
      -- neither parent is the root, so `get_block` finds both
      have hget₁ : db.getBlock b₁.previous = some p₁ := by
        rw [← getBlockHeader_of_ne (root_ne_previous hT hidx₁ hp₂ hp₂tree (by omega) hprev)]
        exact hp₁
      have hget₂ : db.getBlock b₂.previous = some p₂ := by
        rw [← getBlockHeader_of_ne (root_ne_previous hT hidx₂ hp₁ hp₁tree (by omega)
          (Ne.symm hprev))]
        exact hp₂
      have hpid : p₁.id ≠ p₂.id := by
        rw [(getBlock_spec hget₁).2, (getBlock_spec hget₂).2]
        exact hprev
      obtain ⟨c, l₁, l₂, hrun, hlca, hpath₁, hpath₂⟩ :=
        ih p₁ p₂ hp₁tree hp₂tree (by omega) hpid (by omega)
      have hne : b₁ ≠ b₂ := fun h => hid (congrArg BlockState.id h)
      refine ⟨c, b₁ :: l₁, b₂ :: l₂, ?_, hlca.of_parents hT hidx₁ hidx₂ hp₁ hp₂ hne hnum,
        .cons hidx₁ hp₁ hpath₁, .cons hidx₂ hp₂ hpath₂⟩
      simp [lockStep, hprev, ExceptT.run_bind, hget₁, hget₂, hrun, found, liftDb, Except.map]

/-- The blocks of the tree lie at least at the root's height. -/
theorem root_le {b : BlockState I} (hb : b = db.root ∨ db.InIndex b) :
    db.root.block_num.toNat ≤ b.block_num.toNat := by
  rcases hb with rfl | hb
  · exact Nat.le_refl _
  · exact Nat.le_of_lt (num_root_lt hT hb)

/-- `fetch_branch_from` on two blocks of the tree, with fuel above both: the first two loops bring
the higher block down to the other's height, without passing their lowest common ancestor, and the
third loop goes on to it from there. -/
theorem fetchBranchFrom_spec {first second : I} {x y : BlockState I}
    (hx : db.getBlockHeader first = some x) (hy : db.getBlockHeader second = some y)
    (fuel : Nat) (hfuel : x.block_num.toNat ≤ fuel ∧ y.block_num.toNat ≤ fuel) :
    ∃ b₁ b₂, (db.fetchBranchFrom fuel first second).run = some (.ok (b₁, b₂)) ∧
      ∃ c, IsLCA db.parent db.InIndex c x y ∧
        IsPath db.parent db.InIndex x b₁ c ∧ IsPath db.parent db.InIndex y b₂ c := by
  have hxtree := (getBlockHeader_spec hx).1
  have hytree := (getBlockHeader_spec hy).1
  obtain ⟨l₁, x', hrun₁, hpath₁, hnum₁, habove₁⟩ :=
    descendTo_spec hT (root_le hT hytree) fuel x hxtree (by omega)
  have hx'tree := (hpath₁.num_add_length hT hxtree).1
  obtain ⟨l₂, y', hrun₂, hpath₂, hnum₂, habove₂⟩ :=
    descendTo_spec hT (root_le hT hx'tree) fuel y hytree (by omega)
  have hy'tree := (hpath₂.num_add_length hT hytree).1
  have hsame : x'.block_num.toNat = y'.block_num.toNat := by omega
  -- the blocks passed lie above the other branch, so the lowest common ancestor is below both
  have hlift : ∀ c, IsLCA db.parent db.InIndex c x' y' → IsLCA db.parent db.InIndex c x y :=
    fun c hc => IsLCA.of_isPath_left hT hpath₁ hytree habove₁
      (IsLCA.of_isPath_left hT hpath₂ hx'tree habove₂ hc.symm).symm
  by_cases hid : x'.id = y'.id
  · -- one block: the loops have met at the lowest common ancestor
    have hxy' := eq_of_id hT hx'tree hy'tree hsame hid
    subst hxy'
    refine ⟨l₁, l₂, ?_, x', hlift x' (isLCA_self x'), hpath₁, hpath₂⟩
    simp [fetchBranchFrom, ExceptT.run_bind, hx, hy, hrun₁, hrun₂]
  · obtain ⟨c, l₁', l₂', hrun₃, hlca, hpath₁', hpath₂'⟩ :=
      lockStep_spec hT fuel x' y' hx'tree hy'tree hsame hid (by omega)
    refine ⟨l₁ ++ l₁', l₂ ++ l₂', ?_, c, hlift c hlca, hpath₁.append hpath₁', hpath₂.append hpath₂'⟩
    simp [fetchBranchFrom, ExceptT.run_bind, hx, hy, hrun₁, hrun₂, hid, hrun₃, Except.map]

end Tree

end ForkDatabase

open ForkDatabase

/-- `fetch_branch_from` on a tree, with fuel at least the two blocks' numbers: it returns the
blocks from each of the two blocks down to, but excluding, their lowest common ancestor, in
descending order of block number; both lists are empty for one block, and the list of a block that
is an ancestor of the other is empty. -/
theorem fetch_branch_from_lca (db : ForkDatabase I) (hT : db.TreeInvariant) {first second : I}
    {x y : BlockState I} (hx : db.getBlockHeader first = some x)
    (hy : db.getBlockHeader second = some y) (fuel : Nat)
    (hfuel : x.block_num.toNat ≤ fuel ∧ y.block_num.toNat ≤ fuel) :
    ∃ b₁ b₂, (db.fetchBranchFrom fuel first second).run = some (.ok (b₁, b₂)) ∧
      ∃ c, IsLCA db.parent db.InIndex c x y ∧
        IsPath db.parent db.InIndex x b₁ c ∧ IsPath db.parent db.InIndex y b₂ c ∧
        b₁.Pairwise (fun b b' => b'.block_num < b.block_num) ∧
        b₂.Pairwise (fun b b' => b'.block_num < b.block_num) ∧
        (first = second → b₁ = [] ∧ b₂ = []) ∧
        (IsAncestor db.parent db.InIndex x y → b₁ = []) ∧
        (IsAncestor db.parent db.InIndex y x → b₂ = []) := by
  obtain ⟨b₁, b₂, hrun, c, hlca, hpath₁, hpath₂⟩ := fetchBranchFrom_spec hT hx hy fuel hfuel
  have hxtree := (getBlockHeader_spec hx).1
  have hytree := (getBlockHeader_spec hy).1
  -- a path falls by one block number at each block
  have hdesc : ∀ {z : BlockState I} {l : List (BlockState I)}, (z = db.root ∨ db.InIndex z) →
      IsPath db.parent db.InIndex z l c → l.Pairwise fun b b' => b'.block_num < b.block_num :=
    fun hz hl => (hl.pairwise_num_lt hT hz).imp fun h => UInt32.lt_iff_toNat_lt.2 h
  refine ⟨b₁, b₂, hrun, c, hlca, hpath₁, hpath₂, hdesc hxtree hpath₁, hdesc hytree hpath₂, ?_,
    fun hxy => IsLCA.eq_nil_left hT hlca hxy hxtree hpath₁,
    fun hyx => IsLCA.eq_nil_left hT hlca.symm hyx hytree hpath₂⟩
  -- one block is its own ancestor
  rintro rfl
  rw [hx, Option.some.injEq] at hy
  subst hy
  exact ⟨IsLCA.eq_nil_left hT hlca (.refl x) hxtree hpath₁,
    IsLCA.eq_nil_left hT hlca.symm (.refl x) hxtree hpath₂⟩

/-- Two forks from block `1`, one of them two blocks long: the branches end above block `1`. -/
theorem fetch_branch_from_two_forks :
    let db : ForkDatabase Nat :=
      ⟨⟨[⟨1, 0, 11⟩, ⟨2, 1, 12⟩, ⟨3, 1, 12⟩, ⟨4, 3, 13⟩], by decide⟩, ⟨0, 99, 10⟩⟩
    db.TreeInvariant ∧ ∃ b₁ b₂, (db.fetchBranchFrom 13 2 4).run = some (.ok (b₁, b₂)) ∧
      ∃ c, IsLCA db.parent db.InIndex c ⟨2, 1, 12⟩ ⟨4, 3, 13⟩ ∧
        IsPath db.parent db.InIndex ⟨2, 1, 12⟩ b₁ c ∧
        IsPath db.parent db.InIndex ⟨4, 3, 13⟩ b₂ c := by
  intro db
  have hT : db.TreeInvariant := by decide
  obtain ⟨b₁, b₂, hrun, c, hlca, hpath₁, hpath₂, -⟩ :=
    fetch_branch_from_lca db hT (show db.getBlockHeader 2 = some ⟨2, 1, 12⟩ from rfl)
      (show db.getBlockHeader 4 = some ⟨4, 3, 13⟩ from rfl) 13 ⟨by decide, by decide⟩
  exact ⟨hT, b₁, b₂, hrun, c, hlca, hpath₁, hpath₂⟩

end InfraBlockchain.Chain
