import InfraBlockchain.Controller.ForkSwitch
import InfraBlockchain.Chain.ForkDatabasePaths
import Mathlib.Data.List.TakeWhile

/-!
# The chain state in step with the fork database

`InStep` is what `push_block` keeps: the undo sessions of the chain state are the blocks on the
path from the head down to the fork database's root, as the branch walks see them, and the fork
database holds each of them as a validated block; the fork database keeps its invariant above a
well-formed root, and each validated block of it is built on the root or on a validated block.

This module proves it of each step that `push_block` takes: adding a block, marking one valid,
removing one with the blocks built on it (`InStep.add`, `InStep.markValid`, `InStep.remove`),
applying a block on the head and popping the head (`InStep.push`, `InStep.pop`), and the
commit and advance of the root in `log_irreversible` (`InStep.commit_advanceRoot`,
`logIrreversible_spec`).
-/

namespace InfraBlockchain.Controller

open InfraBlockchain.Chain ForkDatabaseImpl ParentLinks Raising Worklist

variable {I : Type} [LinearOrder I]

namespace ControllerImpl

section InStep

variable (numFromId : I → UInt32)

/-- The chain state follows the fork database: its sessions, oldest first, are the blocks from
the root up to the head, each one validated in the fork database. -/
structure InStep (c : ControllerImpl I) : Prop where
  /-- The fork database is in its invariant. -/
  fork_db : c.fork_db.Invariant numFromId
  /-- The root is well formed. -/
  root_wf : WellFormed numFromId c.fork_db.root
  /-- A validated block is built on the root or on a validated block. -/
  validated_closed : ∀ b ∈ c.fork_db.index.rows, b.validated = true →
    b.previous = c.fork_db.root.id ∨
      ∃ p ∈ c.fork_db.index.rows, p.id = b.previous ∧ p.validated = true
  /-- The applied blocks, from the root, are the path to the head. -/
  chain : IsPath c.fork_db.toForkDatabase.parent c.fork_db.toForkDatabase.InIndex
    c.head.toBlockState (c.db.map (·.toBlockState)).reverse c.fork_db.root.toBlockState
  /-- Each applied block is validated in the fork database. -/
  applied_valid : ∀ b ∈ c.db, ∀ b' ∈ c.fork_db.index.rows, b'.id = b.id → b'.validated = true

end InStep

variable {numFromId : I → UInt32} {c : ControllerImpl I}

/-! ## The chain -/

/-- The blocks that the walks see form a tree below the root. -/
theorem InStep.linked (h : c.InStep numFromId) :
    Linked c.fork_db.toForkDatabase.parent c.fork_db.toForkDatabase.InIndex
      (fun b => b.block_num.toNat) c.fork_db.root.toBlockState :=
  h.fork_db.toTree.toForkDatabase

/-- The head is the root or a block of the fork database. -/
theorem InStep.head_mem (h : c.InStep numFromId) :
    c.head.toBlockState = c.fork_db.root.toBlockState ∨
      c.fork_db.toForkDatabase.InIndex c.head.toBlockState :=
  h.chain.eq_nil_or_cons.imp (·.2) (·.1)

/-- There are as many sessions as the head is blocks above the root. -/
theorem InStep.num_head (h : c.InStep numFromId) :
    c.fork_db.root.block_num.toNat + c.db.length = c.head.block_num.toNat := by
  have := (h.chain.num_add_length h.linked h.head_mem).2
  simpa using this

/-- Each applied block is a block of the fork database. -/
theorem InStep.mem_of_db (h : c.InStep numFromId) {b : ForkBlockState I} (hb : b ∈ c.db) :
    c.fork_db.toForkDatabase.InIndex b.toBlockState :=
  h.chain.mem (List.mem_reverse.2 (List.mem_map_of_mem hb))


/-- A block of the index that is the head or below it is validated: it is one of the sessions. -/
theorem InStep.validated_of_isAncestor (h : c.InStep numFromId) {r : ForkBlockState I}
    (hr : r ∈ c.fork_db.index.rows)
    (hanc : IsAncestor c.fork_db.toForkDatabase.parent c.fork_db.toForkDatabase.InIndex
      r.toBlockState c.head.toBlockState) : r.validated = true := by
  obtain ⟨l, hl⟩ := hanc
  have hrS : c.fork_db.toForkDatabase.InIndex r.toBlockState := mem_toForkDatabase.2 ⟨r, hr, rfl⟩
  obtain ⟨m, hm⟩ := exists_isPath_root h.linked hrS
  -- the path through `r` down to the root is the chain
  have hchain := (hl.append hm).unique h.linked h.chain h.head_mem
  have hmem : r.toBlockState ∈ (c.db.map (·.toBlockState)).reverse := by
    rw [← hchain]
    rcases hm.eq_nil_or_cons with ⟨-, hroot⟩ | ⟨-, p, m', -, rfl, -⟩
    · exact absurd hroot (not_root h.linked hrS)
    · exact List.mem_append_right _ List.mem_cons_self
  obtain ⟨b, hb, hbr⟩ := List.mem_map.1 (List.mem_reverse.1 hmem)
  exact h.applied_valid b hb r hr (congrArg BlockState.id hbr).symm

/-- The head is the root or a validated block of the index. -/
theorem InStep.head_valid (h : c.InStep numFromId) :
    c.head.id = c.fork_db.root.id ∨
      ∃ r ∈ c.fork_db.index.rows, r.id = c.head.id ∧ r.validated = true := by
  rcases h.head_mem with hroot | hhead
  · exact .inl (congrArg BlockState.id hroot)
  · obtain ⟨r, hr, hrh⟩ := mem_toForkDatabase.1 hhead
    refine .inr ⟨r, hr, congrArg BlockState.id hrh, h.validated_of_isAncestor hr ?_⟩
    rw [hrh]
    exact .refl _

/-- The head is, as the walks see it, the root or a block of the index. -/
theorem InStep.head_row (h : c.InStep numFromId) :
    ∃ q, (q = c.fork_db.root ∨ q ∈ c.fork_db.index.rows) ∧
      q.toBlockState = c.head.toBlockState := by
  rcases h.head_mem with hroot | hhS
  · exact ⟨c.fork_db.root, .inl rfl, hroot.symm⟩
  · obtain ⟨r, hr, hrh⟩ := mem_toForkDatabase.1 hhS
    exact ⟨r, .inr hr, hrh⟩

/-- The head's id stores its number. -/
theorem InStep.numFromId_head (h : c.InStep numFromId) :
    numFromId c.head.id = c.head.block_num := by
  show numFromId c.head.toBlockState.id = c.head.toBlockState.block_num
  obtain ⟨q, hq | hq, hqh⟩ := h.head_row
  · rw [← hqh, hq]
    exact h.root_wf.1
  · rw [← hqh]
    exact (h.fork_db.wf q hq).1

/-- The head is not built on a block built on it. -/
theorem InStep.not_reaches_of_parent (h : c.InStep numFromId) {b : ForkBlockState I}
    (hb : b ∈ c.fork_db.index.rows)
    (hpar : c.fork_db.toForkDatabase.parent b.toBlockState = some c.head.toBlockState) :
    ¬ Reaches c.fork_db.children b.id c.head.id := by
  intro hreach
  have hle := le_of_reaches h.fork_db.wf hreach
  obtain ⟨p, hp, -, hnum⟩ := h.linked _ (mem_toForkDatabase.2 ⟨b, hb, rfl⟩)
  rw [hpar, Option.some.injEq] at hp
  subst hp
  rw [(h.fork_db.wf b hb).1, h.numFromId_head] at hle
  dsimp only at hnum
  omega

/-- A block whose `header.previous` is the head is built on the head. -/
theorem InStep.parent_of_previous (h : c.InStep numFromId) {b : BlockState I}
    (hb : b.previous = c.head.id) :
    c.fork_db.toForkDatabase.parent b = some c.head.toBlockState := by
  obtain ⟨q, hq, hqh⟩ := h.head_row
  rw [← hqh]
  refine h.fork_db.toTree.toForkDatabase_parent hq ?_
  rw [hb]
  exact congrArg BlockState.id hqh

/-- `get_block_header` finds the head by its id. -/
theorem InStep.getBlockHeader_head (h : c.InStep numFromId) :
    ∃ y, c.fork_db.getBlockHeader c.head.id = some y ∧ y.toBlockState = c.head.toBlockState := by
  obtain ⟨q, hq, hqh⟩ := h.head_row
  refine ⟨q, ?_, hqh⟩
  rw [show c.head.id = q.id from (congrArg BlockState.id hqh).symm]
  exact h.fork_db.toTree.getBlockHeader_self hq

/-- The root is not built on the head: the head is at the root's number or above. -/
theorem InStep.root_previous_ne (h : c.InStep numFromId) :
    c.fork_db.root.previous ≠ c.head.id := by
  intro hprev
  have hwf := h.root_wf.2
  rw [hprev, h.numFromId_head] at hwf
  have := h.num_head
  omega

/-- The blocks of the index below the root or below a validated block are validated: the
validated blocks are closed under parents. -/
theorem InStep.validated_of_path (h : c.InStep numFromId) {x a : BlockState I}
    {l : List (BlockState I)}
    (hpath : IsPath c.fork_db.toForkDatabase.parent c.fork_db.toForkDatabase.InIndex x l a)
    (hx : x = c.fork_db.root.toBlockState ∨
      ∃ v ∈ c.fork_db.index.rows, v.toBlockState = x ∧ v.validated = true)
    {y : ForkBlockState I} (hy : y ∈ c.fork_db.index.rows) (hyl : y.toBlockState ∈ l) :
    y.validated = true := by
  induction hpath with
  | nil => simp at hyl
  | cons hxS hup _ ih =>
    -- a block of the index is not the root, so it is a validated block
    obtain ⟨v, hv, rfl, hvv⟩ := hx.resolve_left (not_root h.linked hxS)
    rcases List.mem_cons.1 hyl with hyv | hyl
    · rw [eq_of_id hy hv (congrArg BlockState.id hyv)]
      exact hvv
    refine ih ?_ hyl
    rcases h.validated_closed v hv hvv with hroot | ⟨p, hp, hpid, hpv⟩
    · have hpar := h.fork_db.toTree.toForkDatabase_parent (.inl rfl) hroot.symm
      rw [hup, Option.some.injEq] at hpar
      exact .inl hpar
    · have hpar := h.fork_db.toTree.toForkDatabase_parent (.inr hp) hpid
      rw [hup, Option.some.injEq] at hpar
      exact .inr ⟨p, hp, hpar.symm, hpv⟩

/-! ## The calls of the fork database -/

/-- Adding a block that is not validated keeps the chain in step. -/
theorem InStep.add (h : c.InStep numFromId) {n : ForkBlockState I} (hn : WellFormed numFromId n)
    (hnv : n.validated = false) {d' : ForkDatabaseImpl I} (hadd : c.fork_db.add n false = .ok d') :
    InStep numFromId { c with fork_db := d' } := by
  have hI' := h.fork_db.add hn hadd
  obtain ⟨-, hd | ⟨index, hidx, cand, -, hd⟩⟩ := add_cases hadd
  · subst hd
    exact h
  have hroot : d'.root = c.fork_db.root := by rw [hd]; split_ifs <;> rfl
  have hrows : d'.index.rows = c.fork_db.index.rows ++ [n] := by
    rw [← IndexedTable.rows_of_create hidx, hd]
    split_ifs <;> rfl
  have hsub : ∀ b ∈ c.fork_db.index.rows, b ∈ d'.index.rows := fun b hb => by
    rw [hrows]
    exact List.mem_append_left _ hb
  refine ⟨hI', hroot ▸ h.root_wf, fun b hb hv => ?_, ?_, fun b hb b' hb' hid => ?_⟩
  · -- the new block is not validated, so `b` was there
    rw [hrows] at hb
    rcases List.mem_append.1 hb with hb | hb
    · rw [hroot]
      exact (h.validated_closed b hb hv).imp_right fun ⟨p, hp, hpid, hpv⟩ => ⟨p, hsub p hp, hpid, hpv⟩
    · rw [List.mem_singleton.1 hb, hnv] at hv
      cases hv
  · show IsPath d'.toForkDatabase.parent d'.toForkDatabase.InIndex _ _ d'.root.toBlockState
    rw [hroot]
    refine IsPath.transfer hI'.toTree h.chain (.inl (by rw [hroot])) fun y hy => ?_
    obtain ⟨b, hb, rfl⟩ := mem_toForkDatabase.1 (h.chain.mem hy)
    exact mem_toForkDatabase.2 ⟨b, hsub b hb, rfl⟩
  · rw [hrows] at hb'
    rcases List.mem_append.1 hb' with hb' | hb'
    · exact h.applied_valid b hb b' hb' hid
    · -- a session's block is in the index, so the new block, which clashes with none, is not it
      rw [List.mem_singleton.1 hb'] at hid
      obtain ⟨r, hr, hrb⟩ := mem_toForkDatabase.1 (h.mem_of_db hb)
      have hclash : ForkBlockState.clash r n := (congrArg BlockState.id hrb).trans hid.symm
      rw [IndexedTable.create_of_clash hr hclash] at hidx
      cases hidx

/-- Marking valid a block of the index that is built on the root or on a validated block keeps the
chain in step. -/
theorem InStep.markValid (h : c.InStep numFromId) {b : ForkBlockState I}
    (hb : c.fork_db.toForkDatabase.InIndex b.toBlockState)
    (hpar : b.previous = c.fork_db.root.id ∨
      ∃ p ∈ c.fork_db.index.rows, p.id = b.previous ∧ p.validated = true)
    {d' : ForkDatabaseImpl I} (hok : c.fork_db.markValid b = .ok d') :
    InStep numFromId { c with fork_db := d' } := by
  have hroot := markValid_root hok
  refine ⟨h.fork_db.markValid hok, hroot ▸ h.root_wf, fun b' hb' hv => ?_, ?_,
    fun b₀ hb₀ b' hb' hid => ?_⟩
  · rw [hroot]
    rcases mem_of_markValid hok hb' with hold | ⟨r, hr, hrid, rfl⟩
    · exact (h.validated_closed b' hold hv).imp_right fun ⟨p, hp, hpid, hpv⟩ =>
        ⟨p, markValid_keeps_validated hok hp hpv, hpid, hpv⟩
    · -- the block marked is `b`'s block of the index, so it has `b`'s parent
      obtain ⟨r', hr', hr'b⟩ := mem_toForkDatabase.1 hb
      have hrr' : r = r' := eq_of_id hr hr' (hrid.trans (congrArg BlockState.id hr'b).symm)
      have hprev : r.previous = b.previous := by
        rw [hrr', ← hr'b]
      show r.previous = _ ∨ _
      rw [hprev]
      exact hpar.imp_right fun ⟨p, hp, hpid, hpv⟩ =>
        ⟨p, markValid_keeps_validated hok hp hpv, hpid, hpv⟩
  · show IsPath d'.toForkDatabase.parent d'.toForkDatabase.InIndex _ _ d'.root.toBlockState
    rw [markValid_toForkDatabase hok, hroot]
    exact h.chain
  · rcases mem_of_markValid hok hb' with hold | ⟨r, -, -, rfl⟩
    · exact h.applied_valid b₀ hb₀ b' hold hid
    · rfl

/-- Removing a block on which the head is not built keeps the chain in step. -/
theorem InStep.remove (h : c.InStep numFromId) {id : I}
    (hhead : ¬ Reaches c.fork_db.children id c.head.id) {d' : ForkDatabaseImpl I}
    (hok : (c.fork_db.remove id).run = some (.ok d')) :
    InStep numFromId { c with fork_db := d' } := by
  have hI' := h.fork_db.remove hok
  rcases remove_spec h.fork_db.wf id with ⟨-, herr⟩ | ⟨-, index, hrun, hmem⟩
  · rw [herr] at hok
    cases hok
  rw [hrun] at hok
  cases hok
  refine ⟨hI', h.root_wf, fun b hb hv => ?_, ?_, fun b hb b' hb' hid =>
    h.applied_valid b hb b' ((hmem b').1 hb').1 hid⟩
  · -- the parent of a block that stays stays
    obtain ⟨hb₀, hnr⟩ := (hmem b).1 hb
    exact (h.validated_closed b hb₀ hv).imp_right fun ⟨p, hp, hpid, hpv⟩ =>
      ⟨p, (hmem p).2 ⟨hp, fun hr => hnr (.tail hr (mem_children.2 ⟨b, hb₀, hpid.symm, rfl⟩))⟩,
        hpid, hpv⟩
  · -- a block of the chain is below the head, which the removal does not reach
    exact IsPath.transfer hI'.toTree h.chain (.inl rfl) fun y hy =>
      inIndex_of_removed hmem (h.chain.mem hy) (h.chain.isAncestor_start hy) hhead

/-- `remove` of a block built on the head, run by the controller: it raises, leaving the state as
it was, or erases the block and the blocks built on it, keeping the chain in step. -/
theorem InStep.exec_remove (h : c.InStep numFromId) {b : ForkBlockState I}
    (hb : b ∈ c.fork_db.index.rows)
    (hpar : c.fork_db.toForkDatabase.parent b.toBlockState = some c.head.toBlockState) :
    (∃ e, exec (onForkDb fun d => d.remove b.id) c = some (.error e, c)) ∨
      ∃ index, exec (onForkDb fun d => d.remove b.id) c =
          some (.ok ⟨⟩, { c with fork_db := { c.fork_db with index := index } }) ∧
        (∀ r, r ∈ index.rows ↔
          r ∈ c.fork_db.index.rows ∧ ¬ Reaches c.fork_db.children b.id r.id) ∧
        InStep numFromId { c with fork_db := { c.fork_db with index := index } } := by
  rw [exec_onForkDb]
  rcases remove_spec h.fork_db.wf b.id with ⟨-, herr⟩ | ⟨-, index, hrun, hmem⟩
  · exact .inl ⟨_, by rw [herr]; rfl⟩
  · exact .inr ⟨index, by rw [hrun]; rfl, hmem, h.remove (h.not_reaches_of_parent hb hpar) hrun⟩

/-! ## Applying and popping blocks -/

/-- Applying a block built on the head whose block of the index is validated, and making it the
head, keeps the chain in step. -/
theorem InStep.push (h : c.InStep numFromId) {b : ForkBlockState I}
    (hb : c.fork_db.toForkDatabase.InIndex b.toBlockState)
    (hpar : c.fork_db.toForkDatabase.parent b.toBlockState = some c.head.toBlockState)
    (hv : ∀ r ∈ c.fork_db.index.rows, r.id = b.id → r.validated = true) :
    InStep numFromId { c with db := c.db ++ [b], head := b } where
  fork_db := h.fork_db
  root_wf := h.root_wf
  validated_closed := h.validated_closed
  chain := by
    show IsPath _ _ b.toBlockState ((c.db ++ [b]).map (·.toBlockState)).reverse _
    rw [List.map_append, List.reverse_append]
    exact .cons hb hpar h.chain
  applied_valid b' hb' := by
    rcases List.mem_append.1 hb' with hb' | hb'
    · exact h.applied_valid b' hb'
    · rw [List.mem_singleton.1 hb']
      exact hv

/-- With a session, `pop_block` steps the head back to its parent and undoes the last session,
keeping the chain in step. -/
theorem InStep.pop (h : c.InStep numFromId) (hne : c.db ≠ []) :
    ∃ p, c.fork_db.toForkDatabase.parent c.head.toBlockState = some p.toBlockState ∧
      exec ControllerImpl.popBlock c = some (.ok ⟨⟩, { c with head := p, db := c.db.dropLast }) ∧
      InStep numFromId { c with head := p, db := c.db.dropLast } := by
  obtain ⟨init, last, hdb⟩ := (List.eq_nil_or_concat c.db).resolve_left hne
  rw [List.concat_eq_append] at hdb
  have hchain := h.chain
  simp only [hdb, List.map_append, List.map_cons, List.map_nil, List.reverse_append,
    List.reverse_cons, List.reverse_nil, List.nil_append, List.singleton_append] at hchain
  rcases hchain.eq_nil_or_cons with ⟨hnil, -⟩ | ⟨-, q, l', hq, hcons, hrest⟩
  · simp at hnil
  obtain ⟨-, rfl⟩ := List.cons.inj hcons
  obtain ⟨p, hp, hpid, rfl⟩ := toForkDatabase_parent_spec hq
  have hpop : exec ControllerImpl.popBlock c = some (.ok ⟨⟩, { c with head := p, db := c.db.dropLast }) := by
    rcases hp with rfl | hp
    · have hget : c.fork_db.getBlock c.head.previous = none := hpid ▸ h.fork_db.getBlock_root
      simp [ControllerImpl.popBlock, exec_bind, hget, eosAssert, hpid]
    · have hget : c.fork_db.getBlock c.head.previous = some p := hpid ▸ getBlock_of_mem hp
      simp [ControllerImpl.popBlock, exec_bind, hget]
  refine ⟨p, hq, hpop, h.fork_db, h.root_wf, h.validated_closed, ?_, fun b hb =>
    h.applied_valid b (List.dropLast_subset _ hb)⟩
  show IsPath _ _ p.toBlockState (c.db.dropLast.map (·.toBlockState)).reverse _
  rw [hdb, List.dropLast_concat]
  exact hrest

variable (outcome : List (ForkBlockState I) → ForkBlockState I → BlockStatus → Except Exception Unit)

/-- `apply_block`, `mark_valid` and the new head, on a block of the index built on the head:
`apply_block` raises and nothing changes, or the chain moves up to the block, in step. -/
theorem InStep.applyHead (h : c.InStep numFromId) {b : ForkBlockState I}
    (hb : b ∈ c.fork_db.index.rows)
    (hpar : c.fork_db.toForkDatabase.parent b.toBlockState = some c.head.toBlockState)
    (s : BlockStatus) :
    (∃ e, exec (applyHead outcome b s) c = some (.error e, c)) ∨
      ∃ d', c.fork_db.markValid b = .ok d' ∧
        exec (applyHead outcome b s) c =
          some (.ok ⟨⟩, { c with fork_db := d', db := c.db ++ [b], head := b }) ∧
        InStep numFromId { c with fork_db := d', db := c.db ++ [b], head := b } := by
  obtain ⟨d', hmark⟩ := markValid_of_mem hb
  have hbS : c.fork_db.toForkDatabase.InIndex b.toBlockState := mem_toForkDatabase.2 ⟨b, hb, rfl⟩
  simp only [ControllerImpl.applyHead, exec_bind, exec_applyBlock]
  cases houtcome : outcome c.db b s with
  | error e => exact .inl ⟨e, rfl⟩
  | ok _ =>
    refine .inr ⟨d', hmark, by simp [exec_onForkDb, terminating, hmark], ?_⟩
    -- the block is built on the head, which is the root or validated
    obtain ⟨q, -, hqid, hqh⟩ := toForkDatabase_parent_spec hpar
    have hprev : b.previous = c.head.id := hqid.symm.trans (congrArg BlockState.id hqh)
    have hI := h.markValid hbS (hprev ▸ h.head_valid) hmark
    have hview := markValid_toForkDatabase hmark
    refine hI.push ?_ ?_ fun r hr hrid => markValid_validated_self hb hmark hr hrid
    · show d'.toForkDatabase.InIndex _
      rw [hview]
      exact hbS
    · show d'.toForkDatabase.parent _ = _
      rw [hview]
      exact hpar

/-! ## Committing and advancing the root -/

omit [LinearOrder I] in
/-- After dropping the elements that `p` holds of, dropping those that a weaker `q` holds of drops
what `q` alone drops. -/
theorem dropWhile_dropWhile_of_imp {α : Type} {p q : α → Bool}
    (hpq : ∀ a, p a = true → q a = true) : ∀ l : List α, (l.dropWhile p).dropWhile q = l.dropWhile q
  | [] => rfl
  | a :: l => by
    by_cases ha : p a = true
    · rw [List.dropWhile_cons_of_pos ha, List.dropWhile_cons_of_pos (hpq a ha)]
      exact dropWhile_dropWhile_of_imp hpq l
    · rw [List.dropWhile_cons_of_neg ha]

omit [LinearOrder I] in
/-- A commit at a revision covers a commit at a lower one. -/
theorem commit_commit_of_le (c : ControllerImpl I) {n m : UInt32} (hnm : n ≤ m) :
    (c.commit n).commit m = c.commit m := by
  simp only [commit]
  rw [dropWhile_dropWhile_of_imp fun a ha =>
    decide_eq_true (UInt32.le_trans (of_decide_eq_true ha) hnm)]

omit [LinearOrder I] in
/-- Commits at revisions up to `n`, one after another, are covered by a commit at `n`. -/
theorem foldl_commit (l : List (ForkBlockState I)) {n : UInt32}
    (hl : ∀ b ∈ l, b.block_num ≤ n) (c : ControllerImpl I) :
    (l.foldl (fun c b => c.commit b.block_num) c).commit n = c.commit n := by
  induction l generalizing c with
  | nil => rfl
  | cons b l ih =>
    rw [List.foldl_cons, ih (fun b' hb' => hl b' (List.mem_cons_of_mem _ hb')),
      commit_commit_of_le c (hl b List.mem_cons_self)]

/-- Committing the sessions up to a block of the chain and advancing the root to it keeps the
chain in step: the sessions left are the blocks above the new root, which the fork database keeps. -/
theorem InStep.commit_advanceRoot (h : c.InStep numFromId) {r : ForkBlockState I}
    (hr : r ∈ c.fork_db.index.rows)
    (hanc : IsAncestor c.fork_db.toForkDatabase.parent c.fork_db.toForkDatabase.InIndex
      r.toBlockState c.head.toBlockState)
    {d' : ForkDatabaseImpl I} (hok : (c.fork_db.advanceRoot r.id).run = some (.ok d')) :
    InStep numFromId { c.commit r.block_num with fork_db := d' } := by
  have hI' := h.fork_db.advanceRoot hok
  rcases advanceRoot_cases h.fork_db hr with ⟨-, -, index, hrun, hmem⟩ | ⟨-, e, herr⟩
  swap
  · rw [herr] at hok
    cases hok
  rw [hrun] at hok
  cases hok
  -- the chain is the path from the head down to `r`, then the path from `r` down to the root
  obtain ⟨l₁, hl₁⟩ := hanc
  have hrS : c.fork_db.toForkDatabase.InIndex r.toBlockState := mem_toForkDatabase.2 ⟨r, hr, rfl⟩
  obtain ⟨m, hm⟩ := exists_isPath_root h.linked hrS
  have hchain := (hl₁.append hm).unique h.linked h.chain h.head_mem
  obtain ⟨D₂, D₁, hdb, hD₂, hD₁⟩ := List.map_eq_append_iff.1
    (List.reverse_eq_append_iff.1 hchain.symm)
  -- the commit drops the sessions of `r` and below, and keeps those above
  have hle : ∀ a ∈ D₂, decide (a.block_num ≤ r.block_num) = true := fun a ha => by
    have ha' : a.toBlockState ∈ m := by
      rw [← List.mem_reverse, ← hD₂]
      exact List.mem_map_of_mem ha
    exact decide_eq_true (UInt32.le_iff_toNat_le.2 (hm.num_le_of_mem h.linked (.inr hrS) ha'))
  have hgt : ∀ hl : 0 < D₁.length, ¬ decide (D₁[0].block_num ≤ r.block_num) = true := fun hl => by
    have ha' : D₁[0].toBlockState ∈ l₁ := by
      rw [← List.mem_reverse, ← hD₁]
      exact List.mem_map_of_mem (List.getElem_mem hl)
    have := hl₁.lt_of_mem h.linked ha'
    simpa [UInt32.le_iff_toNat_le] using this
  have hcommit : (c.commit r.block_num).db = D₁ := by
    show c.db.dropWhile _ = D₁
    rw [hdb, List.dropWhile_append_of_pos hle, List.dropWhile_eq_self_iff.2 hgt]
  -- each block above `r` is built on it, so the new index keeps it
  have hstay : ∀ y ∈ l₁, ∃ b ∈ index.rows, b.toBlockState = y := fun y hy => by
    obtain ⟨b, hb, rfl⟩ := mem_toForkDatabase.1 (hl₁.mem hy)
    have hne : b.id ≠ r.id := fun hid => by
      have := hl₁.lt_of_mem h.linked hy
      rw [eq_of_id hb hr hid] at this
      exact Nat.lt_irrefl _ this
    obtain ⟨k, hk⟩ := hl₁.isAncestor_end hy
    exact ⟨b, (hmem b).2 ⟨hb, hne, reaches_of_isPath hk⟩, rfl⟩
  refine ⟨hI', h.fork_db.wf r hr, fun b hb hv => ?_, ?_, fun b hb b' hb' hid => ?_⟩
  · -- a validated block built on the new root has its validated parent of the old index
    obtain ⟨hb₀, -, -⟩ := (hmem b).1 hb
    refine (hI'.linked b hb).imp_right fun ⟨p, hp, hpid⟩ => ⟨p, hp, hpid, ?_⟩
    rcases h.validated_closed b hb₀ hv with hroot | ⟨p', hp', hp'id, hp'v⟩
    · exact absurd (hpid.trans hroot) (h.fork_db.id_ne_root ((hmem p).1 hp).1)
    · rwa [eq_of_id ((hmem p).1 hp).1 hp' (hpid.trans hp'id.symm)]
  · show IsPath _ _ c.head.toBlockState ((c.commit r.block_num).db.map (·.toBlockState)).reverse
      r.toBlockState
    rw [hcommit, hD₁, List.reverse_reverse]
    exact IsPath.transfer hI'.toTree hl₁ (.inl rfl) fun y hy =>
      mem_toForkDatabase.2 (hstay y hy)
  · rw [hcommit] at hb
    exact h.applied_valid b (by rw [hdb]; exact List.mem_append_right _ hb) b' ((hmem b').1 hb').1 hid

/-- The fork database's head, when it is the head, is the head's block of the index or the root. -/
theorem InStep.forkHead_toBlockState (h : c.InStep numFromId)
    (hhead : c.fork_db.head.id = c.head.id) (hmem : c.fork_db.head ∈ c.fork_db.index.rows) :
    c.fork_db.head.toBlockState = c.head.toBlockState := by
  rcases h.head_mem with hroot | hhS
  · exact absurd (hhead.trans (congrArg BlockState.id hroot)) (h.fork_db.id_ne_root hmem)
  · obtain ⟨r, hr, hrh⟩ := mem_toForkDatabase.1 hhS
    rw [← hrh, eq_of_id hmem hr (hhead.trans (congrArg BlockState.id hrh).symm)]

/-- `fetch_branch` from the fork database's head, when it is the head, returns the blocks of the
chain up to the number, from the highest: none, or a block of the chain above the others. -/
theorem InStep.fetchBranch_head (h : c.InStep numFromId) (hhead : c.fork_db.head.id = c.head.id)
    (trim_after_block_num : UInt32) :
    ∃ br, c.fork_db.fetchBranch c.fork_db.head.id trim_after_block_num = some br ∧
      (br = [] ∨ ∃ r rest, br = r :: rest ∧ r ∈ c.fork_db.index.rows ∧
        IsAncestor c.fork_db.toForkDatabase.parent c.fork_db.toForkDatabase.InIndex
          r.toBlockState c.head.toBlockState ∧ ∀ b ∈ rest, b.block_num ≤ r.block_num) := by
  rcases h.fork_db.head_mem with hroot | ⟨hmem, -⟩
  · refine ⟨[], ?_, .inl rfl⟩
    rw [fetchBranch, hroot, h.fork_db.getBlock_root, fetchBranchLoop]
  obtain ⟨lI, hlI⟩ := h.fork_db.exists_path hmem
  have hfetch := fetchBranchLoop_path h.fork_db.toTree trim_after_block_num hlI rfl
    (Nat.le_succ_of_le (h.fork_db.toTree.length_le (.inr hmem) hlI))
  refine ⟨_, hfetch, ?_⟩
  -- the filter keeps the path's order, highest first
  have hpair := (hlI.pairwise_num_lt h.fork_db.linkedParents (.inr hmem)).filter
    (fun s => decide (s.block_num ≤ trim_after_block_num))
  have hV := IsPath.toForkDatabase hlI
  rw [h.forkHead_toBlockState hhead hmem] at hV
  generalize hbr : lI.filter (fun s => decide (s.block_num ≤ trim_after_block_num)) = br at hpair
  cases br with
  | nil => exact .inl rfl
  | cons r rest =>
    have hrI : r ∈ lI := (List.mem_filter.1 (hbr ▸ List.mem_cons_self)).1
    refine .inr ⟨r, rest, rfl, hlI.mem hrI, hV.isAncestor_start (List.mem_map_of_mem hrI),
      fun b hb => ?_⟩
    exact UInt32.le_iff_toNat_le.2 (Nat.le_of_lt ((List.pairwise_cons.1 hpair).1 b hb))

/-- With the fork database's head at the head, `log_irreversible` returns, keeping the chain in
step and the fork database's head at the head. -/
theorem logIrreversible_spec (h : c.InStep numFromId) (hhead : c.fork_db.head.id = c.head.id) :
    ∃ c', exec logIrreversible c = some (.ok ⟨⟩, c') ∧ c'.InStep numFromId ∧
      c'.fork_db.head.id = c'.head.id := by
  simp only [logIrreversible, exec_bind, exec_get]
  split_ifs with hdpos
  · exact ⟨c, rfl, h, hhead⟩
  obtain ⟨br, hfetch, hbr⟩ := h.fetchBranch_head hhead c.fork_db.head.dpos_irreversible_blocknum
  have hloop : exec (ofLoop (ExceptT.lift (c.fork_db.fetchBranch c.fork_db.head.id
      c.fork_db.head.dpos_irreversible_blocknum)) : Prog Exception (ControllerImpl I) _) c =
      some (.ok br, c) := by
    rw [exec_ofLoop, ExceptT.run_lift, hfetch]
    rfl
  rw [exec_bind, hloop]
  dsimp only
  rw [exec_bind, exec_forM_modify]
  dsimp only
  rcases hbr with rfl | ⟨r, rest, rfl, hr, hanc, hrest⟩
  · exact ⟨c, by simp, h, hhead⟩
  -- the commits, from the lowest block, come to a commit at the highest
  have hfold : (r :: rest).reverse.foldl (fun c b => c.commit b.block_num) c =
      c.commit r.block_num := by
    rw [List.reverse_cons, List.foldl_append, List.foldl_cons, List.foldl_nil]
    exact foldl_commit rest.reverse (fun b hb => hrest b (List.mem_reverse.1 hb)) c
  -- the highest block is validated and below the head, so the root advances to it
  have hv := h.validated_of_isAncestor hr hanc
  have hreach : Reaches c.fork_db.children r.id c.fork_db.head.id := by
    obtain ⟨k, hk⟩ := hanc
    exact hhead ▸ reaches_of_isPath hk
  rcases advanceRoot_cases h.fork_db hr with ⟨-, -, index, hrun, -⟩ | ⟨hno, -⟩
  swap
  · exact absurd ⟨hv, hreach⟩ hno
  refine ⟨_, ?_, h.commit_advanceRoot hr hanc hrun, hhead⟩
  rw [hfold]
  simp only [List.head?_cons, ne_eq, h.fork_db.id_ne_root hr, not_false_eq_true, if_true,
    exec_onForkDb, commit_fork_db, hrun, Option.map_some]

end ControllerImpl

end InfraBlockchain.Controller
