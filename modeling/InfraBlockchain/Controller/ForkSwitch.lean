import InfraBlockchain.Chain.ForkDatabaseImpl
import InfraBlockchain.Lib.Raising

/-!
# Switching forks

`controller_impl::push_block` adds a block to the fork database and moves the chain state to the
fork database's pending head (`maybe_switch_forks`). The chain state is the root state followed by
undo sessions, one for each block applied above the fork database's root; here it is that list of
blocks, oldest first (`ControllerImpl.db`). `apply_block` either raises, leaving nothing of the
block, or pushes one session with the block's effects: which of the two it does on a given state
is an arbitrary function `outcome`, so that every statement below holds whatever the transactions
of the blocks do. `pop_block` undoes the last session and steps the head back to its parent.

A block that builds on the head is applied, marked valid and made the head; if that fails it is
removed from the fork database with the blocks built on it. Otherwise the controller fetches the
two branches from the new head and the old head down to their lowest common ancestor, pops the
old branch, and applies the new branch from its lowest block, marking each valid and making it the
head. When a block of the new branch fails, it is removed with the blocks built on it, the blocks
of the new branch applied so far are popped, the old branch is applied again and the failure is
raised again. After a switch, `log_irreversible` commits the sessions up to the fork database
head's `dpos_irreversible_blocknum` and advances the fork database's root there.

The invariant (`InStep`) is that the sessions are the blocks on the path from the fork database's
root to the head, all of them in the fork database and marked valid; so there are as many sessions
as the head is blocks above the root. `push_block` keeps it whether it returns or raises, at any
point of a failed switch, and always ends (`push_block_keeps_chain_in_step`).

The programs are `Raising.Prog` over the controller's state: a raise keeps what was changed
before it, as the C++ exceptions do; `none` is a loop of the fork database that does not end.
The read mode is speculative or head; the irreversible mode, the block log, the reversible block
database, the signals and the protocol feature rollback of `pop_block` are left out.
-/

namespace InfraBlockchain.Controller

open InfraBlockchain.Chain ParentLinks Raising

variable {I : Type} [LinearOrder I]

/-- `controller::block_status`. -/
inductive BlockStatus
  | irreversible
  | validated
  | complete
  | incomplete
  deriving DecidableEq, Repr

/-- The fields of `controller_impl` that `push_block` reads and writes: the fork database, the
head, and the chain state `db`, as its undo sessions above the fork database's root, oldest
first, each holding the effects of the block that names it. -/
structure ControllerImpl (I : Type) where
  /-- `fork_db`. -/
  fork_db : ForkDatabaseImpl I
  /-- `head`. -/
  head : ForkBlockState I
  /-- The undo sessions of `db`. -/
  db : List (ForkBlockState I)

namespace ControllerImpl

/-- `db.commit(revision)`: the sessions up to the revision are dropped and their effects kept.
The session of a block has the block's number as its revision. -/
def commit (c : ControllerImpl I) (revision : UInt32) : ControllerImpl I :=
  { c with db := c.db.dropWhile fun s => s.block_num ≤ revision }

omit [LinearOrder I] in
@[simp] theorem commit_fork_db (c : ControllerImpl I) (revision : UInt32) :
    (c.commit revision).fork_db = c.fork_db := rfl

omit [LinearOrder I] in
@[simp] theorem commit_head (c : ControllerImpl I) (revision : UInt32) :
    (c.commit revision).head = c.head := rfl

/-- `startup(shutdown, genesis)` with no fork database: `initialize_blockchain_state` makes the
genesis block the head with no undo session (`db.set_revision(head->block_num)`), and
`fork_db.reset(*head)` makes it the fork database's root. -/
def startup (head : ForkBlockState I) : ControllerImpl I :=
  { fork_db := ForkDatabaseImpl.reset head, head := head, db := [] }

/-- A fork database loop run by the controller: what it raises is raised, and a loop that does
not end does not end. -/
def ofLoop {α : Type} (x : ExceptT Exception Option α) : Prog Exception (ControllerImpl I) α :=
  match x.run with
  | some r => monadLift r
  | none => diverge

/-- A call on the fork database. -/
def onForkDb (f : ForkDatabaseImpl I → ExceptT Exception Option (ForkDatabaseImpl I)) :
    Prog Exception (ControllerImpl I) Unit := do
  let c ← get
  let fork_db ← ofLoop (f c.fork_db)
  set { c with fork_db := fork_db }

omit [LinearOrder I] in
/-- A loop over the fork database runs without changing the controller. -/
theorem exec_ofLoop {α : Type} (x : ExceptT Exception Option α) (c : ControllerImpl I) :
    exec (ofLoop x : Prog Exception (ControllerImpl I) α) c = x.run.map (·, c) := by
  unfold ofLoop
  cases x.run <;> rfl

omit [LinearOrder I] in
/-- A call on the fork database sets what it returns, and leaves the state as it was when it
raises. -/
theorem exec_onForkDb (f : ForkDatabaseImpl I → ExceptT Exception Option (ForkDatabaseImpl I))
    (c : ControllerImpl I) :
    exec (onForkDb f) c = (f c.fork_db).run.map fun
      | .ok d => (.ok ⟨⟩, { c with fork_db := d })
      | .error e => (.error e, c) := by
  simp only [onForkDb, exec_bind, exec_get, exec_ofLoop]
  cases (f c.fork_db).run with
  | none => rfl
  | some r => cases r <;> rfl

variable (outcome : List (ForkBlockState I) → ForkBlockState I → BlockStatus → Except Exception Unit)

/-- `apply_block(bsp, s)`: on the chain state `db` it raises what `outcome` raises, leaving
nothing of the block, or pushes one session holding the block's effects. -/
def applyBlock (b : ForkBlockState I) (s : BlockStatus) : Prog Exception (ControllerImpl I) Unit := do
  let c ← get
  monadLift (outcome c.db b s)
  set { c with db := c.db ++ [b] }

omit [LinearOrder I] in
/-- `apply_block` appends the block when it applies, and raises with the controller unchanged
otherwise. -/
theorem exec_applyBlock (b : ForkBlockState I) (s : BlockStatus) (c : ControllerImpl I) :
    exec (applyBlock outcome b s) c = match outcome c.db b s with
      | .ok _ => some (.ok ⟨⟩, { c with db := c.db ++ [b] })
      | .error e => some (.error e, c) := by
  simp only [applyBlock, exec_bind, exec_get, exec_liftExcept]
  cases outcome c.db b s <;> rfl

/-- `pop_block()`: the head steps back to its parent, found by `get_block` or else the root, and
the last session is undone. -/
def popBlock : Prog Exception (ControllerImpl I) Unit := do
  let c ← get
  let prev ← match c.fork_db.getBlock c.head.previous with
    | some p => pure p
    | none => do
      monadLift (eosAssert (c.fork_db.root.id = c.head.previous) .block_validate_exception
        "attempt to pop beyond last irreversible block")
      pure c.fork_db.root
  set { c with head := prev, db := c.db.dropLast }

/-- `log_irreversible()` in the speculative and head read modes. The block log's head is the fork
database's root, which gives `lib_num`. When the fork database head's
`dpos_irreversible_blocknum` is above it, the blocks of the head's branch up to that number are
committed from the lowest, and the root is advanced to the last of them. -/
def logIrreversible : Prog Exception (ControllerImpl I) Unit := do
  let c ← get
  let lib_num := c.fork_db.root.block_num
  let fork_head := c.fork_db.head
  if fork_head.dpos_irreversible_blocknum ≤ lib_num then pure () else do
    let branch ← ofLoop (ExceptT.lift
      (c.fork_db.fetchBranch fork_head.id fork_head.dpos_irreversible_blocknum))
    branch.reverse.forM fun b => modify (·.commit b.block_num)
    -- `root_id` after the loop: the last block committed, the highest of the branch
    let root_id := match branch.head? with
      | some b => b.id
      | none => c.fork_db.root.id
    if root_id ≠ c.fork_db.root.id then onForkDb fun d => d.advanceRoot root_id

/-- `apply_block(b, s); fork_db.mark_valid(b); head = b;`, the body of the `try` blocks of
`maybe_switch_forks`. -/
def applyHead (b : ForkBlockState I) (s : BlockStatus) : Prog Exception (ControllerImpl I) Unit := do
  applyBlock outcome b s
  onForkDb fun d => terminating (d.markValid b)
  modify fun c => { c with head := b }

/-- The pops of `maybe_switch_forks`, one for each block of the old branch, after which the head
must be the block the old branch is built on. -/
def popBranch (old_branch : List (ForkBlockState I)) : Prog Exception (ControllerImpl I) Unit :=
  match old_branch.getLast? with
  | some back => do
    old_branch.forM fun _ => popBlock
    let c ← get
    monadLift (eosAssert (c.head.id = back.previous) .fork_database_exception
      "loss of sync between fork_db and chainbase during fork switch")
  | none => pure ()

/-- What the loop of `maybe_switch_forks` does when the block `b` of the new branch fails with
`e`: `b` is removed with the blocks built on it, the blocks of the new branch applied so far
(`applied`) are popped, the old branch is applied again from its lowest block, and the failure is
raised again. -/
def revertBranch (old_branch : List (ForkBlockState I)) (b : ForkBlockState I)
    (applied : List (ForkBlockState I)) (e : Exception) : Prog Exception (ControllerImpl I) Unit := do
  onForkDb fun d => d.remove b.id
  applied.forM fun _ => popBlock
  let c ← get
  -- `branches.second.back()`, which the source reads even when the old branch is empty
  match old_branch.getLast? with
  | some back =>
    monadLift (eosAssert (c.head.id = back.previous) .fork_database_exception
      "loss of sync between fork_db and chainbase during fork switch reversal")
  | none => pure ()
  old_branch.reverse.forM fun b => do
    applyBlock outcome b .validated
    modify fun c => { c with head := b }
  throw e

/-- The loop of `maybe_switch_forks` over the new branch, from its lowest block; `applied` holds
the blocks of the branch applied so far, the last first. Each block is applied with the status
its validity gives, marked valid and made the head; when one fails, the switch is reverted. -/
def applyBranch (old_branch : List (ForkBlockState I)) :
    List (ForkBlockState I) → List (ForkBlockState I) → Prog Exception (ControllerImpl I) Unit
  | [], _ => pure ()
  | b :: rest, applied => do
    let except ← tryCatch (do
        applyHead outcome b (if b.validated then .validated else .complete)
        pure none)
      fun e => pure (some e)
    match except with
    | none => applyBranch old_branch rest (b :: applied)
    | some e => revertBranch outcome old_branch b applied e

/-- `maybe_switch_forks(new_head, s)`. The loops of `fetch_branch_from` step down at most as many
blocks as the higher of the two blocks' numbers. -/
def maybeSwitchForks (new_head : ForkBlockState I) (s : BlockStatus) :
    Prog Exception (ControllerImpl I) Unit := do
  let c ← get
  if new_head.previous = c.head.id then
    tryCatch (applyHead outcome new_head s)
      fun e => do
        onForkDb fun d => d.remove new_head.id
        throw e
    logIrreversible
  else if new_head.id ≠ c.head.id then
    let branches ← ofLoop (c.fork_db.fetchBranchFrom
      (max new_head.block_num.toNat c.head.block_num.toNat) new_head.id c.head.id)
    popBranch branches.2
    applyBranch outcome branches.2 branches.1.reverse []
    logIrreversible
  else pure ()

/-- `push_block(b)` in the speculative and head read modes: the block is added to the fork
database, which must link it, and the chain switches to the fork database's pending head. -/
def pushBlock (bsp : ForkBlockState I) : Prog Exception (ControllerImpl I) Unit := do
  onForkDb fun d => terminating (d.add bsp false)
  let c ← get
  maybeSwitchForks outcome c.fork_db.pendingHead .complete

end ControllerImpl

end InfraBlockchain.Controller
