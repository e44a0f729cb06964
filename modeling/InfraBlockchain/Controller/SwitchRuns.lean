import InfraBlockchain.Controller.SwitchSteps

/-!
# Switching forks keeps the chain in step

`push_block` keeps `InStep`, whether it returns or raises, and always ends
(`pushBlock_spec`); when it returns, the head is the fork database's head. So every state that
a run of `push_block` calls reaches from a reset has its sessions on the path from the fork
database's root to its head (`push_block_keeps_chain_in_step`).

The switch to another branch pops the old branch down to the lowest common ancestor of the two
heads (`pops_spec`) and applies the new branch from there (`applyBranch_spec`), each block marked
valid as it is applied. Two things carry it. Each block of the new branch is built on the head
when it is applied, so the chain stays a path. And the fork database's head comes to the new head:
either every block left is validated and the head is there already, or the new head is the last
block left and is preferred to the head, to every validated block and to every block left, so that
marking it valid makes it the first of `by_lib_block_num` (`HeadsFor`). When a block of the new
branch fails, its removal reaches no block of the old branch, whose blocks are not built on it
(their lowest common ancestor lies below it), so the old branch can be applied again
(`revertBranch_spec`).
-/

namespace InfraBlockchain.Controller

open InfraBlockchain.Chain ForkDatabaseImpl ParentLinks Raising Worklist

variable {I : Type} [LinearOrder I]

namespace ControllerImpl

/-! ## Where the fork database's head goes -/

/-- What is left of a switch to `nh` for the fork database's head to come to it: the blocks
`todo`, to be marked valid from the first. Either each of them is validated and the head is `nh`
already, or `nh` is not validated, is the last of them, and is preferred to the head, to every
validated block and to every other block left. -/
def HeadsFor (nh : ForkBlockState I) (todo : List (ForkBlockState I)) (d : ForkDatabaseImpl I) :
    Prop :=
  ((∀ b ∈ todo, b.validated = true) ∧ d.head.id = nh.id) ∨
    (todo.getLast? = some nh ∧ todo.Nodup ∧ nh.validated = false ∧
      (∀ b ∈ todo, b ∈ d.index.rows) ∧ (∀ b ∈ todo.dropLast, firstPreferred nh b = true) ∧
      (∀ b ∈ d.index.rows, b.validated = true → firstPreferred nh b = true) ∧
      firstPreferred nh d.head = true)

omit [LinearOrder I] in
/-- With nothing left to apply, the fork database's head is the new head. -/
theorem HeadsFor.head_eq {nh : ForkBlockState I} {d : ForkDatabaseImpl I} (h : HeadsFor nh [] d) :
    d.head.id = nh.id := by
  rcases h with ⟨-, h⟩ | ⟨h, -⟩
  · exact h
  · cases h

omit [LinearOrder I] in
/-- A switch to `pending_head` when it is not validated: the blocks left end with it, and the others
are below it. -/
theorem headsFor_pending {numFromId : I → UInt32} {d : ForkDatabaseImpl I}
    (hI : d.Invariant numFromId) {nh : ForkBlockState I} (hnhv : nh.validated = false)
    (hpref : firstPreferred nh d.head = true)
    (hmin : ∀ b ∈ d.index.rows, b.validated = false → firstPreferred b nh = false)
    {todo : List (ForkBlockState I)} (hlast : todo.getLast? = some nh) (hnodup : todo.Nodup)
    (hrows : ∀ b ∈ todo, b ∈ d.index.rows)
    (hlow : ∀ b ∈ todo.dropLast, b.block_num.toNat < nh.block_num.toNat) :
    HeadsFor nh todo d := by
  refine .inr ⟨hlast, hnodup, hnhv, hrows, fun b hb => ?_,
    fun b hb hbv => firstPreferred_of_false hpref (hI.head_best b hb hbv), hpref⟩
  have hb' := hrows b (List.dropLast_subset _ hb)
  cases hbv : b.validated
  · exact firstPreferred_of_lt (hmin b hb' hbv) (hlow b hb)
  · exact firstPreferred_of_false hpref (hI.head_best b hb' hbv)

/-- Marking the first block left valid leaves the rest to do. -/
theorem HeadsFor.markValid {nh b : ForkBlockState I} {rest : List (ForkBlockState I)}
    {d d' : ForkDatabaseImpl I} (h : HeadsFor nh (b :: rest) d) (hok : d.markValid b = .ok d') :
    HeadsFor nh rest d' := by
  rcases h with ⟨hv, hhead⟩ | ⟨hlast, hnodup, hnhv, hrows, hdrop, hval, hhd⟩
  · -- every block left is validated: nothing changes
    obtain ⟨-, rfl⟩ | ⟨hbv, -⟩ := markValid_cases hok
    · exact .inl ⟨fun b' hb' => hv b' (List.mem_cons_of_mem _ hb'), hhead⟩
    · rw [hv b List.mem_cons_self] at hbv
      cases hbv
  have hb : b ∈ d.index.rows := hrows b List.mem_cons_self
  have hm : { b with validated := true } ∈ (setValidated d.index (fun x => x.id = b.id) true).rows :=
    mem_setValidated.2 ⟨b, hb, by simp⟩
  cases rest with
  | nil =>
    -- `b` is `nh`, which marking valid makes the first block of `by_lib_block_num`
    obtain rfl : b = nh := by simpa using hlast
    obtain ⟨hv, -⟩ | ⟨-, -, cand, hcand, rfl⟩ := markValid_cases hok
    · rw [hnhv] at hv
      cases hv
    obtain ⟨hcv, hbc⟩ := libBegin_best hcand hm rfl
    obtain ⟨r, hr, hcr⟩ := mem_setValidated.1 (libBegin_mem hcand)
    -- a validated block other than `b` is less preferred than `b`, so the first block is `b`
    have hrb : r = b := by
      by_contra hne
      have hrid : r.id ≠ b.id := fun hid => hne (eq_of_id hr hb hid)
      rw [hcr, if_neg (by simpa using hrid)] at hcv hbc
      have hbr : firstPreferred b r = false := hbc
      rw [hval r hr hcv] at hbr
      cases hbr
    subst hrb
    rw [if_pos (by simp)] at hcr
    have hpref : firstPreferred cand d.head = true := by rw [hcr]; exact hhd
    refine .inl ⟨fun _ h => absurd h List.not_mem_nil, ?_⟩
    rw [if_pos hpref, hcr]
  | cons b' rest' =>
    have hbnh : firstPreferred nh b = true := hdrop b (by simp)
    have hlast' : (b' :: rest').getLast? = some nh := by simpa using hlast
    have hdrop' : ∀ x ∈ (b' :: rest').dropLast, firstPreferred nh x = true :=
      fun x hx => hdrop x (by rw [List.dropLast_cons_cons]; exact List.mem_cons_of_mem _ hx)
    obtain ⟨-, rfl⟩ | ⟨hbv, -, cand, hcand, rfl⟩ := markValid_cases hok
    · exact .inr ⟨hlast', hnodup.of_cons, hnhv,
        fun x hx => hrows x (List.mem_cons_of_mem _ hx), hdrop', hval, hhd⟩
    -- the blocks left have other ids, and the block marked is less preferred than `nh`
    have hrows' : ∀ x ∈ b' :: rest', x ∈ (setValidated d.index (fun x => x.id = b.id) true).rows :=
      fun x hx => by
        have hxb : x.id ≠ b.id := fun hid =>
          (List.nodup_cons.1 hnodup).1 (eq_of_id (hrows x (List.mem_cons_of_mem _ hx)) hb hid ▸ hx)
        exact mem_setValidated.2 ⟨x, hrows x (List.mem_cons_of_mem _ hx), by simp [hxb]⟩
    have hval' : ∀ x ∈ (setValidated d.index (fun x => x.id = b.id) true).rows,
        x.validated = true → firstPreferred nh x = true := fun x hx hxv => by
      obtain ⟨r, hr, rfl⟩ := mem_setValidated.1 hx
      by_cases hrid : r.id = b.id
      · rw [if_pos (by simpa using hrid), eq_of_id hr hb hrid]
        exact hbnh
      · rw [if_neg (by simpa using hrid)] at hxv ⊢
        exact hval r hr hxv
    have hcval := hval' cand (libBegin_mem hcand) (libBegin_best hcand hm rfl).1
    split_ifs
    · exact .inr ⟨hlast', hnodup.of_cons, hnhv, hrows', hdrop', hval', hcval⟩
    · exact .inr ⟨hlast', hnodup.of_cons, hnhv, hrows', hdrop', hval', hhd⟩

variable {numFromId : I → UInt32} {c : ControllerImpl I}

/-- `pending_head` is the root or a block of the index. -/
theorem InStep.pendingHead_mem (h : c.InStep numFromId) :
    c.fork_db.pendingHead = c.fork_db.root ∨ c.fork_db.pendingHead ∈ c.fork_db.index.rows := by
  rcases h.fork_db.pendingHead.2 with hph | ⟨hmem, -⟩
  · rw [hph]
    exact h.fork_db.head_mem.imp_right (·.1)
  · exact .inr hmem

/-- When `pending_head` has the head's id, it is the fork database's head: a block that is not
validated is neither the root nor the head, which is validated. -/
theorem InStep.head_of_pendingHead (h : c.InStep numFromId)
    (hid : c.fork_db.pendingHead.id = c.head.id) : c.fork_db.head.id = c.head.id := by
  rcases pendingHead_cases c.fork_db with ⟨hph, -⟩ | ⟨hmem, hv, -, -⟩
  · rw [← hph]
    exact hid
  rcases h.head_valid with hroot | ⟨r, hr, hrid, hrv⟩
  · exact absurd (hid.trans hroot) (h.fork_db.toTree.id_ne_root hmem)
  · rw [eq_of_id hmem hr (hid.trans hrid.symm), hrv] at hv
    cases hv

/-- The blocks from `pending_head` down to the head or a block below it are what a switch to it
has left to do, from the lowest. -/
theorem InStep.headsFor_pendingHead (h : c.InStep numFromId) {l : List (ForkBlockState I)}
    {a : BlockState I}
    (hpath : IsPath c.fork_db.toForkDatabase.parent c.fork_db.toForkDatabase.InIndex
      c.fork_db.pendingHead.toBlockState (l.map (·.toBlockState)) a)
    (hl : ∀ b ∈ l, b ∈ c.fork_db.index.rows)
    (ha : IsAncestor c.fork_db.toForkDatabase.parent c.fork_db.toForkDatabase.InIndex a
      c.head.toBlockState) :
    HeadsFor c.fork_db.pendingHead l.reverse c.fork_db := by
  rcases pendingHead_cases c.fork_db with ⟨hph, -⟩ | ⟨hmem, hv, hpref, hmin⟩
  · -- the pending head is the head, the root or a validated block, and so is every block below
    refine .inl ⟨fun b hb => ?_, by rw [hph]⟩
    have hb' := List.mem_reverse.1 hb
    refine h.validated_of_path hpath ?_ (hl b hb') (List.mem_map_of_mem hb')
    rw [hph]
    rcases h.fork_db.head_mem with hroot | ⟨hhd, hhv⟩
    · exact .inl (by rw [hroot])
    · exact .inr ⟨_, hhd, rfl, hhv⟩
  have hS : c.fork_db.toForkDatabase.InIndex c.fork_db.pendingHead.toBlockState :=
    mem_toForkDatabase.2 ⟨_, hmem, rfl⟩
  -- otherwise the pending head is not below the head, so it is the first block of `l`
  rcases hpath.eq_nil_or_cons with ⟨-, hpa⟩ | ⟨-, p, l', -, hcons, -⟩
  · rw [← hpa] at ha
    rw [h.validated_of_isAncestor hmem ha] at hv
    cases hv
  obtain ⟨b, l₀, rfl, hb, -⟩ := List.map_eq_cons_iff.1 hcons
  obtain rfl : b = c.fork_db.pendingHead :=
    eq_of_id (hl b List.mem_cons_self) hmem (congrArg BlockState.id hb)
  have hpw := hpath.pairwise_num_lt h.linked (.inr hS)
  refine headsFor_pending h.fork_db hv hpref hmin (by simp) ?_
    (fun x hx => hl x (List.mem_reverse.1 hx)) fun x hx => ?_
  · have hnd : ((c.fork_db.pendingHead :: l₀).map (·.toBlockState)).Nodup :=
      hpw.imp fun hlt heq => by
        rw [heq] at hlt
        exact lt_irrefl _ hlt
    exact List.nodup_reverse.2 (List.Nodup.of_map _ hnd)
  · rw [List.reverse_cons, List.dropLast_concat, List.mem_reverse] at hx
    exact (List.pairwise_cons.1 hpw).1 _ (List.mem_map_of_mem hx)

/-! ## The loops over blocks -/

/-- Popping as many blocks as a path from the head down to `a` has brings the head down to `a`,
keeping the chain in step and the fork database as it is. -/
theorem pops_spec {d : ForkDatabaseImpl I} {a : BlockState I} (l : List (ForkBlockState I))
    {R : ControllerImpl I → Prop} :
    Triple (fun s => s.InStep numFromId ∧ s.fork_db = d ∧
        IsPath d.toForkDatabase.parent d.toForkDatabase.InIndex s.head.toBlockState
          (l.map (·.toBlockState)) a)
      (l.forM fun _ => popBlock)
      (fun _ s => s.InStep numFromId ∧ s.fork_db = d ∧ s.head.toBlockState = a) R := by
  refine (Triple.forM (fun rest s => s.InStep numFromId ∧ s.fork_db = d ∧
      IsPath d.toForkDatabase.parent d.toForkDatabase.InIndex s.head.toBlockState
        (rest.map (·.toBlockState)) a) fun b rest => ?_).mono (fun _ hs => hs) ?_ (fun _ hs => hs)
  · rintro s ⟨hI, rfl, hp⟩
    rcases hp.eq_nil_or_cons with ⟨hnil, -⟩ | ⟨hS, q, l', hq, hcons, hrest⟩
    · simp at hnil
    obtain ⟨-, rfl⟩ := List.cons.inj hcons
    -- the head is a block of the index, so there is a session to pop
    have hne : s.db ≠ [] := by
      intro hdb
      have hchain := hI.chain
      rw [hdb] at hchain
      rcases hchain.eq_nil_or_cons with ⟨-, hroot⟩ | ⟨-, _, _, -, hcons', -⟩
      · exact not_root hI.linked hS hroot
      · simp at hcons'
    obtain ⟨p, hp, hexec, hI'⟩ := hI.pop hne
    rw [hp, Option.some.injEq] at hq
    subst hq
    rw [hexec]
    exact ⟨hI', rfl, hrest⟩
  · rintro - s ⟨hI, hd, hp⟩
    refine ⟨hI, hd, ?_⟩
    rcases hp.eq_nil_or_cons with ⟨-, h⟩ | ⟨-, _, _, -, h, -⟩
    · exact h
    · simp at h

/-- The pops of the old branch bring the head down to the block the branch is built on, where
the assert that follows them holds. -/
theorem popBranch_spec {d : ForkDatabaseImpl I} {a : BlockState I} (l : List (ForkBlockState I)) :
    Triple (fun s => s.InStep numFromId ∧ s.fork_db = d ∧
        IsPath d.toForkDatabase.parent d.toForkDatabase.InIndex s.head.toBlockState
          (l.map (·.toBlockState)) a)
      (popBranch l)
      (fun _ s => s.InStep numFromId ∧ s.fork_db = d ∧ s.head.toBlockState = a)
      (InStep numFromId) := by
  rintro s ⟨hI, hd, hp⟩
  unfold popBranch
  cases hlast : l.getLast? with
  | none =>
    obtain rfl := List.getLast?_eq_none_iff.1 hlast
    rcases hp.eq_nil_or_cons with ⟨-, ha⟩ | ⟨-, _, _, -, h, -⟩
    · exact ⟨hI, hd, ha⟩
    · simp at h
  | some back =>
    refine ((pops_spec l).bind fun _ => ?_) s ⟨hI, hd, hp⟩
    rintro s₁ ⟨hI₁, hd₁, hh₁⟩
    have hprev : s₁.head.id = back.previous := by
      rw [← IsPath.previous_getLast hp hlast]
      exact congrArg BlockState.id hh₁
    rw [exec_bind, exec_get]
    dsimp only
    rw [exec_liftExcept, eosAssert, if_pos (decide_eq_true hprev)]
    exact ⟨hI₁, hd₁, hh₁⟩

/-- `log_irreversible` keeps the chain in step and the head at the fork database's head. -/
theorem logIrreversible_triple {R : ControllerImpl I → Prop} :
    Triple (fun s => s.InStep numFromId ∧ s.fork_db.head.id = s.head.id) logIrreversible
      (fun _ s => s.InStep numFromId ∧ s.fork_db.head.id = s.head.id) R := by
  rintro s ⟨h, hhead⟩
  obtain ⟨s', hs', hI', hhead'⟩ := logIrreversible_spec h hhead
  rw [hs']
  exact ⟨hI', hhead'⟩

variable (outcome : List (ForkBlockState I) → ForkBlockState I → BlockStatus → Except Exception Unit)

/-- Applying again, from the lowest, the blocks of a branch from `y` down to the head, each a
validated block of the fork database, keeps the chain in step, whether `apply_block` raises or
not. -/
theorem reapply_spec {d : ForkDatabaseImpl I} {y : BlockState I} (l : List (ForkBlockState I)) :
    Triple (fun s => s.InStep numFromId ∧ s.fork_db = d ∧
        IsPath d.toForkDatabase.parent d.toForkDatabase.InIndex y
          (l.reverse.map (·.toBlockState)) s.head.toBlockState ∧
        ∀ b ∈ l, b ∈ d.index.rows ∧ b.validated = true)
      (l.forM fun b => do
        applyBlock outcome b .validated
        modify fun c => { c with head := b })
      (fun _ s => s.InStep numFromId) (InStep numFromId) := by
  refine (Triple.forM (fun rest s => s.InStep numFromId ∧ s.fork_db = d ∧
      IsPath d.toForkDatabase.parent d.toForkDatabase.InIndex y
        (rest.reverse.map (·.toBlockState)) s.head.toBlockState ∧
      ∀ b ∈ rest, b ∈ d.index.rows ∧ b.validated = true) fun b rest => ?_).mono
    (fun _ hs => hs) (fun _ _ hs => hs.1) (fun _ hs => hs)
  rintro s ⟨hI, rfl, hp, hrows⟩
  -- the lowest block left is built on the head
  rw [List.reverse_cons, List.map_append] at hp
  obtain ⟨hrest, hbS, hq⟩ := hp.of_append_singleton
  obtain ⟨hbd, hbv⟩ := hrows b List.mem_cons_self
  rw [exec_bind, exec_applyBlock]
  cases outcome s.db b .validated with
  | error e => exact hI
  | ok _ =>
    exact ⟨hI.push hbS hq fun r hr hrid => eq_of_id hr hbd hrid ▸ hbv, rfl, hrest,
      fun b' hb' => hrows b' (List.mem_cons_of_mem _ hb')⟩

/-! ## The loop over the new branch -/

/-- The loop of `maybe_switch_forks` over the new branch, begun on the fork database `d₀` at the
lowest common ancestor `lca` of the new head `nh` and the old head: `applied` are the blocks of
the new branch applied so far, the last first, and `todo` those left, from the lowest. -/
structure Switching (numFromId : I → UInt32) (d₀ : ForkDatabaseImpl I) (nh : ForkBlockState I)
    (lca : BlockState I) (todo applied : List (ForkBlockState I)) (s : ControllerImpl I) :
    Prop where
  /-- The controller follows its fork database. -/
  in_step : s.InStep numFromId
  /-- The loop leaves the abstract database as it found it. -/
  view : s.fork_db.toForkDatabase = d₀.toForkDatabase
  /-- Every block validated at the start stays in the fork database. -/
  keeps_validated : ∀ r ∈ d₀.index.rows, r.validated = true → r ∈ s.fork_db.index.rows
  /-- The blocks applied lead from the common ancestor up to the head. -/
  applied_path : IsPath d₀.toForkDatabase.parent d₀.toForkDatabase.InIndex s.head.toBlockState
    (applied.map (·.toBlockState)) lca
  /-- The blocks left lead from the head up to the new head. -/
  todo_path : IsPath d₀.toForkDatabase.parent d₀.toForkDatabase.InIndex nh.toBlockState
    (todo.reverse.map (·.toBlockState)) s.head.toBlockState
  /-- Applying the blocks left makes the new head the fork database's head. -/
  heads_for : HeadsFor nh todo s.fork_db
  /-- The blocks left are blocks of the fork database. -/
  todo_mem : ∀ b ∈ todo, b ∈ s.fork_db.index.rows

section Switch

variable {d₀ : ForkDatabaseImpl I} {nh : ForkBlockState I} {lca : BlockState I}

/-- The first block left is built on the head, and the new head on it. -/
theorem Switching.first {b : ForkBlockState I} {rest applied : List (ForkBlockState I)}
    {s : ControllerImpl I} (hs : Switching numFromId d₀ nh lca (b :: rest) applied s) :
    s.fork_db.toForkDatabase.parent b.toBlockState = some s.head.toBlockState ∧
      IsPath s.fork_db.toForkDatabase.parent s.fork_db.toForkDatabase.InIndex nh.toBlockState
        (rest.reverse.map (·.toBlockState)) b.toBlockState := by
  have hp := hs.todo_path
  rw [List.reverse_cons, List.map_append, ← hs.view] at hp
  obtain ⟨hrest, -, hq⟩ := hp.of_append_singleton
  exact ⟨hq, hrest⟩

/-- The lowest common ancestor is the head or below it. -/
theorem Switching.lca_mem {todo applied : List (ForkBlockState I)} {s : ControllerImpl I}
    (hs : Switching numFromId d₀ nh lca todo applied s) :
    lca = s.fork_db.root.toBlockState ∨ s.fork_db.toForkDatabase.InIndex lca := by
  have hp := hs.applied_path
  rw [← hs.view] at hp
  exact IsAncestor.mem_tree hs.in_step.linked ⟨_, hp⟩ hs.in_step.head_mem

variable {y : BlockState I} {old : List (ForkBlockState I)}
  (hold : IsPath d₀.toForkDatabase.parent d₀.toForkDatabase.InIndex y (old.map (·.toBlockState))
    lca)
  (hold_mem : ∀ o ∈ old, o ∈ d₀.index.rows ∧ o.validated = true)
  (hlca : IsLCA d₀.toForkDatabase.parent d₀.toForkDatabase.InIndex lca nh.toBlockState y)
include hold hold_mem hlca

/-- When a block of the new branch fails, reverting the switch keeps the chain in step: the
removal of the block reaches neither the chain nor the old branch, which is applied again. -/
theorem revertBranch_spec {b : ForkBlockState I} {rest applied : List (ForkBlockState I)}
    (e : Exception) {Q : PUnit → ControllerImpl I → Prop} :
    Triple (Switching numFromId d₀ nh lca (b :: rest) applied)
      (revertBranch outcome old b applied e) Q (InStep numFromId) := by
  intro s hs
  have hI := hs.in_step
  obtain ⟨hbpar, hbpath⟩ := hs.first
  have hb := hs.todo_mem b List.mem_cons_self
  have hnot := hI.not_reaches_of_parent hb hbpar
  have happ := hs.applied_path
  have hold' := hold
  have hlca' := hlca
  rw [← hs.view] at happ hold' hlca'
  -- the lowest common ancestor lies below the block that failed
  have hlt : lca.block_num.toNat < b.block_num.toNat := by
    have h₁ := (happ.num_add_length hI.linked hI.head_mem).2
    obtain ⟨p, hp, -, h₂⟩ := hI.linked _ (mem_toForkDatabase.2 ⟨b, hb, rfl⟩)
    rw [hbpar, Option.some.injEq] at hp
    subst hp
    dsimp only at h₁ h₂
    omega
  rw [revertBranch, exec_bind]
  rcases hI.exec_remove hb hbpar with ⟨_, herr⟩ | ⟨index, hrun, hmem, hI₁⟩
  · rw [herr]
    exact hI
  rw [hrun]
  have hT₁ := hI₁.fork_db.toTree
  -- what is below the head stays, and so does the old branch
  have hkeep : ∀ v, s.fork_db.toForkDatabase.InIndex v →
      IsAncestor s.fork_db.toForkDatabase.parent s.fork_db.toForkDatabase.InIndex v
        s.head.toBlockState →
      ({ s.fork_db with index := index } : ForkDatabaseImpl I).toForkDatabase.InIndex v :=
    fun v hv hanc => inIndex_of_removed hmem hv hanc hnot
  have hlca₁ : lca = s.fork_db.root.toBlockState ∨
      ({ s.fork_db with index := index } : ForkDatabaseImpl I).toForkDatabase.InIndex lca :=
    hs.lca_mem.imp_right fun hl => hkeep lca hl ⟨_, happ⟩
  have hkeep_old : ∀ o ∈ old, o ∈ index.rows := fun o ho => by
    have hos := hs.keeps_validated o (hold_mem o ho).1 (hold_mem o ho).2
    refine (hmem o).2 ⟨hos, ?_⟩
    exact hI.fork_db.toTree.not_reaches_of_isLCA hlca' hs.lca_mem hb hos ⟨_, hbpath⟩ hlt
      (hold'.isAncestor_start (List.mem_map_of_mem ho))
  have happ₁ := IsPath.transfer hT₁ happ hlca₁ fun v hv =>
    hkeep v (happ.mem hv) (happ.isAncestor_start hv)
  have hold₁ := IsPath.transfer hT₁ hold' hlca₁ fun v hv => by
    obtain ⟨o, ho, rfl⟩ := List.mem_map.1 hv
    exact mem_toForkDatabase.2 ⟨o, hkeep_old o ho, rfl⟩
  refine ((pops_spec applied).bind fun _ => ?_) _ ⟨hI₁, rfl, happ₁⟩
  rintro s₂ ⟨hI₂, hd₂, hh₂⟩
  rw [exec_bind, exec_get]
  dsimp only
  -- the head is the lowest common ancestor, on which the old branch is built
  have hassert : ∀ back, old.getLast? = some back → s₂.head.id = back.previous := fun back hback => by
    rw [← IsPath.previous_getLast hold₁ hback]
    exact congrArg BlockState.id hh₂
  have hpre : s₂.InStep numFromId ∧ s₂.fork_db = s₂.fork_db ∧
      IsPath s₂.fork_db.toForkDatabase.parent s₂.fork_db.toForkDatabase.InIndex y
        (old.reverse.reverse.map (·.toBlockState)) s₂.head.toBlockState ∧
      ∀ o ∈ old.reverse, o ∈ s₂.fork_db.index.rows ∧ o.validated = true := by
    refine ⟨hI₂, rfl, ?_, fun o ho => ?_⟩
    · rw [List.reverse_reverse, hh₂, hd₂]
      exact hold₁
    · rw [hd₂]
      exact ⟨hkeep_old o (List.mem_reverse.1 ho), (hold_mem o (List.mem_reverse.1 ho)).2⟩
  cases hlast : old.getLast? with
  | none => exact ((reapply_spec outcome old.reverse).bind fun _ => Triple.throw fun _ h => h) s₂ hpre
  | some back =>
    rw [exec_bind, exec_liftExcept, eosAssert, if_pos (decide_eq_true (hassert back hlast))]
    exact ((reapply_spec outcome old.reverse).bind fun _ => Triple.throw fun _ h => h) s₂ hpre

/-- The loop over the new branch ends, and keeps the chain in step whether it returns or raises;
when it returns, the fork database's head is the head. -/
theorem applyBranch_spec (todo applied : List (ForkBlockState I)) :
    Triple (Switching numFromId d₀ nh lca todo applied) (applyBranch outcome old todo applied)
      (fun _ s => s.InStep numFromId ∧ s.fork_db.head.id = s.head.id) (InStep numFromId) := by
  induction todo generalizing applied with
  | nil =>
    -- nothing is left: the head is the new head, where the fork database's head has come
    refine Triple.pure fun s hs => ⟨hs.in_step, ?_⟩
    rcases hs.todo_path.eq_nil_or_cons with ⟨-, hnh⟩ | ⟨-, _, _, -, h, -⟩
    · rw [hs.heads_for.head_eq]
      exact congrArg BlockState.id hnh
    · simp at h
  | cons b rest ih =>
    intro s hs
    have hI := hs.in_step
    have hV := hs.view
    obtain ⟨hbpar, hbpath⟩ := hs.first
    have hb := hs.todo_mem b List.mem_cons_self
    rw [applyBranch, exec_bind, exec_tryCatch, exec_bind]
    rcases hI.applyHead outcome hb hbpar (if b.validated then .validated else .complete) with
      ⟨e, herr⟩ | ⟨d', hok, hexec, hI'⟩
    · rw [herr]
      exact revertBranch_spec outcome hold hold_mem hlca e s hs
    rw [hexec]
    -- the blocks left are above the block applied, so they keep their rows
    have hrest : ∀ x ∈ rest, x ∈ d'.index.rows := fun x hx => by
      have hx' := hs.todo_mem x (List.mem_cons_of_mem _ hx)
      refine markValid_keeps_other hok hx' fun hid => ?_
      have hlt := hbpath.lt_of_mem hI.linked (List.mem_map_of_mem (List.mem_reverse.2 hx))
      rw [eq_of_id hx' hb hid] at hlt
      exact lt_irrefl _ hlt
    refine ih (b :: applied) _ ⟨hI', (markValid_toForkDatabase hok).trans hV,
      fun r hr hv => markValid_keeps_validated hok (hs.keeps_validated r hr hv) hv, ?_, ?_,
      hs.heads_for.markValid hok, hrest⟩
    · rw [← hV]
      exact .cons (mem_toForkDatabase.2 ⟨b, hb, rfl⟩) hbpar (hV ▸ hs.applied_path)
    · rw [← hV]
      exact hbpath

end Switch

/-! ## `maybe_switch_forks` and `push_block` -/

/-- `maybe_switch_forks` to `pending_head` ends and keeps the chain in step, whether it returns or
raises; when it returns, the head is the fork database's head. -/
theorem maybeSwitchForks_spec (nh : ForkBlockState I) (st : BlockStatus) :
    Triple (fun c => c.InStep numFromId ∧ c.fork_db.pendingHead = nh)
      (maybeSwitchForks outcome nh st)
      (fun _ c => c.InStep numFromId ∧ c.fork_db.head.id = c.head.id) (InStep numFromId) := by
  rintro c ⟨h, rfl⟩
  rw [maybeSwitchForks, exec_bind, exec_get]
  dsimp only
  split_ifs with hprev hne
  · -- the pending head is built on the head: it is applied on it
    have hmem : c.fork_db.pendingHead ∈ c.fork_db.index.rows :=
      h.pendingHead_mem.resolve_left fun hroot => h.root_previous_ne (by rw [← hroot]; exact hprev)
    have hpar := h.parent_of_previous hprev
    rw [exec_bind, exec_tryCatch]
    rcases h.applyHead outcome hmem hpar st with ⟨e, herr⟩ | ⟨d', hok, hexec, hI'⟩
    · -- it fails, and is removed with the blocks built on it
      rw [herr]
      dsimp only
      rw [exec_bind]
      rcases h.exec_remove hmem hpar with ⟨_, herr'⟩ | ⟨_, hrun, -, hI₁⟩
      · rw [herr']
        exact h
      · rw [hrun]
        exact hI₁
    rw [hexec]
    have hheads := HeadsFor.markValid (h.headsFor_pendingHead (l := [c.fork_db.pendingHead])
      (.cons (mem_toForkDatabase.2 ⟨_, hmem, rfl⟩) hpar (.nil _)) (by simpa using hmem) (.refl _))
      hok
    exact logIrreversible_triple _ ⟨hI', hheads.head_eq⟩
  · -- the pending head is on another branch: the old branch is popped down to the lowest common
    -- ancestor of the two heads, and the pending head's branch is applied from there
    have hT := h.fork_db.toTree
    obtain ⟨y, hy, hyh⟩ := h.getBlockHeader_head
    have hyn : y.block_num = c.head.block_num := congrArg BlockState.block_num hyh
    obtain ⟨b₁, b₂, hrun, hmem, lca, hlca, hp₁, hp₂⟩ := fetchBranchFrom_spec hT
      (hT.getBlockHeader_self h.pendingHead_mem) hy _
      ⟨le_max_left _ _, by rw [hyn]; exact le_max_right _ _⟩
    rw [hyh] at hlca hp₂
    rw [exec_bind, exec_ofLoop, hrun]
    dsimp only [Option.map_some]
    have hold_mem : ∀ o ∈ b₂, o ∈ c.fork_db.index.rows ∧ o.validated = true := fun o ho =>
      ⟨hmem o (List.mem_append_right _ ho), h.validated_of_isAncestor
        (hmem o (List.mem_append_right _ ho)) (hp₂.isAncestor_start (List.mem_map_of_mem ho))⟩
    refine ((popBranch_spec b₂).bind fun _ => ?_) c ⟨h, rfl, hp₂⟩
    rintro s₁ ⟨hI₁, hd₁, hh₁⟩
    have hsw : Switching numFromId c.fork_db c.fork_db.pendingHead lca b₁.reverse [] s₁ := by
      refine ⟨hI₁, by rw [hd₁], fun r hr _ => by rw [hd₁]; exact hr, by rw [hh₁]; exact .nil _,
        by rw [List.reverse_reverse, hh₁]; exact hp₁, ?_, fun b hb => ?_⟩
      · rw [hd₁]
        exact h.headsFor_pendingHead hp₁ (fun b hb => hmem b (List.mem_append_left _ hb)) hlca.2.1
      · rw [hd₁]
        exact hmem b (List.mem_append_left _ (List.mem_reverse.1 hb))
    exact ((applyBranch_spec outcome hp₂ hold_mem hlca b₁.reverse []).bind fun _ =>
      logIrreversible_triple) s₁ hsw
  · -- the pending head is the head: nothing changes
    exact ⟨h, h.head_of_pendingHead (not_not.1 hne)⟩

/-- `push_block` of a well-formed block that is not yet validated ends, and keeps the chain in
step whether it returns or raises; when it returns, the head is the fork database's head. -/
theorem pushBlock_spec {bsp : ForkBlockState I} (hbsp : WellFormed numFromId bsp)
    (hv : bsp.validated = false) :
    Triple (InStep numFromId) (pushBlock outcome bsp)
      (fun _ c => c.InStep numFromId ∧ c.fork_db.head.id = c.head.id) (InStep numFromId) := by
  intro c h
  rw [pushBlock, exec_bind, exec_onForkDb]
  cases hadd : c.fork_db.add bsp false with
  | error e => exact h
  | ok d' =>
    simp only [terminating, ExceptT.run_mk, Option.map_some]
    rw [exec_bind, exec_get]
    exact maybeSwitchForks_spec outcome _ _ _ ⟨h.add hbsp hv hadd, rfl⟩

/-- After `startup` from a well-formed head, the chain is in step: there is no session, and the
head is the root. -/
theorem InStep.startup {head : ForkBlockState I} (hwf : WellFormed numFromId head) :
    (ControllerImpl.startup head).InStep numFromId where
  fork_db := Invariant.reset hwf.1
  root_wf := hwf
  validated_closed _ hb := by simp [ControllerImpl.startup, ForkDatabaseImpl.reset] at hb
  chain := .nil _
  applied_valid _ hb := by simp [ControllerImpl.startup] at hb

/-! ## Runs of `push_block` -/

/-- The states that the controller reaches from `startup` by calls of `push_block`, each of a
well-formed block that is not yet validated, whatever `apply_block` does on each call, and whether
the call returns or raises. -/
inductive Reachable (numFromId : I → UInt32) : ControllerImpl I → Prop
  | startup {head : ForkBlockState I} : WellFormed numFromId head →
      Reachable numFromId (ControllerImpl.startup head)
  | push {c c' : ControllerImpl I} {r : Except Exception Unit}
      (outcome : List (ForkBlockState I) → ForkBlockState I → BlockStatus → Except Exception Unit)
      (bsp : ForkBlockState I) :
      Reachable numFromId c → WellFormed numFromId bsp → bsp.validated = false →
      exec (pushBlock outcome bsp) c = some (r, c') → Reachable numFromId c'

/-- Every reachable state is in step. -/
theorem Reachable.inStep (h : c.Reachable numFromId) : c.InStep numFromId := by
  induction h with
  | startup hwf => exact InStep.startup hwf
  | @push c c' r outcome bsp _ hbsp hv hexec ih =>
    have hpost := pushBlock_spec outcome hbsp hv c ih
    rw [hexec] at hpost
    rcases r with e | u
    · exact hpost
    · exact hpost.1

/-- Every state that runs of `push_block` reach from `startup` has its undo sessions, oldest first,
on the path from the head down to the fork database's root, each of them a validated block of the
fork database, and as many of them as the head is blocks above the root. This holds whatever
`apply_block` does on each call and whether each call returns or raises, also after a switch of
forks that failed and was reverted. -/
theorem push_block_keeps_chain_in_step (h : c.Reachable numFromId) :
    IsPath c.fork_db.toForkDatabase.parent c.fork_db.toForkDatabase.InIndex c.head.toBlockState
        (c.db.map (·.toBlockState)).reverse c.fork_db.root.toBlockState ∧
      (∀ b ∈ c.db, ∃ r ∈ c.fork_db.index.rows, r.id = b.id ∧ r.validated = true) ∧
      c.fork_db.root.block_num.toNat + c.db.length = c.head.block_num.toNat := by
  have hI := h.inStep
  refine ⟨hI.chain, fun b hb => ?_, hI.num_head⟩
  obtain ⟨r, hr, hrb⟩ := mem_toForkDatabase.1 (hI.mem_of_db hb)
  have hid : r.id = b.id := congrArg BlockState.id hrb
  exact ⟨r, hr, hid, hI.applied_valid b hb r hr hid⟩

/-- Block 31 of the run, built on block 21. -/
def sampleBlock31 (validated : Bool) : ForkBlockState ℕ :=
  { id := 31, previous := 21, block_num := 3, dpos_irreversible_blocknum := 1,
    validated := validated }

/-- The controller after `push_block` of block 20 on the root. -/
def sampleApplied : ControllerImpl ℕ :=
  ⟨⟨⟨[sampleBlock 20 true], by decide⟩, sampleRoot, sampleBlock 20 true⟩, sampleBlock 20 false,
    [sampleBlock 20 false]⟩

/-- The controller after `push_block` of block 21 beside it, which is not preferred to it. -/
def sampleForked : ControllerImpl ℕ :=
  ⟨sampleDb, sampleBlock 20 false, [sampleBlock 20 false]⟩

/-- The controller after `push_block` of block 31 on block 21, which switches the chain from
block 20 to blocks 21 and 31. -/
def sampleSwitched : ControllerImpl ℕ :=
  ⟨⟨⟨[sampleBlock 20 true, sampleBlock 21 true, sampleBlock31 true], by decide⟩, sampleRoot,
    sampleBlock31 true⟩, sampleBlock31 false, [sampleBlock 21 false, sampleBlock31 false]⟩

/-- The controller on the two-fork database is reached. -/
theorem sampleForked_reachable : sampleForked.Reachable sampleNumFromId := by
  have h₀ : (startup sampleRoot).Reachable sampleNumFromId := .startup (by decide)
  have h₁ : sampleApplied.Reachable sampleNumFromId :=
    .push (fun _ _ _ => .ok ()) (sampleBlock 20 false) h₀ (by decide) rfl rfl
  exact .push (fun _ _ _ => .ok ()) (sampleBlock 21 false) h₁ (by decide) rfl rfl

/-- The controller switched to the second fork is reached. -/
theorem sampleSwitched_reachable : sampleSwitched.Reachable sampleNumFromId :=
  .push (fun _ _ _ => .ok ()) (sampleBlock31 false) sampleForked_reachable (by decide) rfl rfl

/-- After the switch, the blocks applied are the validated path from the root to the head. -/
theorem push_block_keeps_chain_in_step_switched :
    sampleSwitched.Reachable sampleNumFromId ∧
      IsPath sampleSwitched.fork_db.toForkDatabase.parent
        sampleSwitched.fork_db.toForkDatabase.InIndex sampleSwitched.head.toBlockState
        (sampleSwitched.db.map (·.toBlockState)).reverse sampleSwitched.fork_db.root.toBlockState ∧
      (∀ b ∈ sampleSwitched.db, ∃ r ∈ sampleSwitched.fork_db.index.rows,
        r.id = b.id ∧ r.validated = true) :=
  ⟨sampleSwitched_reachable, (push_block_keeps_chain_in_step sampleSwitched_reachable).1,
    (push_block_keeps_chain_in_step sampleSwitched_reachable).2.1⟩

/-- From every reachable state, `push_block` of a well-formed block that is not yet validated
ends, whatever `apply_block` does: it returns or raises, and never loops. When it returns, the
head is the fork database's head, to which no validated block of the fork database is
preferred. -/
theorem push_block_ends_at_fork_head (h : c.Reachable numFromId) {bsp : ForkBlockState I}
    (hbsp : WellFormed numFromId bsp) (hv : bsp.validated = false)
    (outcome : List (ForkBlockState I) → ForkBlockState I → BlockStatus → Except Exception Unit) :
    ∃ r c', exec (pushBlock outcome bsp) c = some (r, c') ∧
      ∀ u, r = .ok u → c'.head.id = c'.fork_db.head.id ∧
        ∀ b ∈ c'.fork_db.index.rows, b.validated = true → firstPreferred b c'.fork_db.head = false := by
  have hpost := pushBlock_spec outcome hbsp hv c h.inStep
  cases hexec : exec (pushBlock outcome bsp) c with
  | none =>
    rw [hexec] at hpost
    exact hpost.elim
  | some p =>
    obtain ⟨r, c'⟩ := p
    refine ⟨r, c', rfl, ?_⟩
    rintro u rfl
    rw [hexec] at hpost
    exact ⟨hpost.2.symm, hpost.1.fork_db.head_best⟩

/-- Pushing a block on the fork not applied switches to it and ends at the fork database's head. -/
theorem push_block_ends_at_fork_head_switch :
    sampleForked.Reachable sampleNumFromId ∧ WellFormed sampleNumFromId (sampleBlock31 false) ∧
      (sampleBlock31 false).validated = false ∧
      ∃ r c', exec (pushBlock (fun _ _ _ => .ok ()) (sampleBlock31 false)) sampleForked =
          some (r, c') ∧
        ∀ u, r = .ok u → c'.head.id = c'.fork_db.head.id ∧
          ∀ b ∈ c'.fork_db.index.rows, b.validated = true →
            firstPreferred b c'.fork_db.head = false :=
  ⟨sampleForked_reachable, by decide, rfl,
    push_block_ends_at_fork_head sampleForked_reachable (by decide) rfl _⟩

/-- In every reachable state with an undo session, `pop_block` returns: its assert against popping
beyond the last irreversible block holds, the head steps back to its parent, and the last session
is undone. -/
theorem pop_block_steps_to_parent (h : c.Reachable numFromId) (hne : c.db ≠ []) :
    ∃ p, c.fork_db.toForkDatabase.parent c.head.toBlockState = some p.toBlockState ∧
      exec popBlock c = some (.ok ⟨⟩, { c with head := p, db := c.db.dropLast }) := by
  obtain ⟨p, hp, hexec, -⟩ := h.inStep.pop hne
  exact ⟨p, hp, hexec⟩

/-- Popping a block of the switched controller steps to the head's parent. -/
theorem pop_block_steps_to_parent_switched :
    sampleSwitched.Reachable sampleNumFromId ∧ sampleSwitched.db ≠ [] ∧
      ∃ p, sampleSwitched.fork_db.toForkDatabase.parent sampleSwitched.head.toBlockState =
          some p.toBlockState ∧
        exec popBlock sampleSwitched =
          some (.ok ⟨⟩, { sampleSwitched with head := p, db := sampleSwitched.db.dropLast }) :=
  ⟨sampleSwitched_reachable, by simp [sampleSwitched],
    pop_block_steps_to_parent sampleSwitched_reachable (by simp [sampleSwitched])⟩

end ControllerImpl

end InfraBlockchain.Controller
