import Mathlib
import InfraBlockchain.Auth.Actions

/-!
# The permission tree

The permissions of every account form a tree under its `owner`, and the `owner` permissions hang
under the reserved permission `0`: every permission but `0` has parent `0` exactly when it is an
`owner`, every other parent is a permission of the same account with a smaller id, and the parent
of `active` is `owner` (`PermissionTree`). Genesis builds such a table, and each native action
keeps it: `newaccount` adds an `owner` under `0` and an `active` under it, `updateauth` adds a
permission under an existing parent of the same account or changes only an authority, and
`deleteauth` removes only a permission without children.

Over such a table the walk of `permission_object::satisfies` ends (`Auth.Satisfies`).
-/

namespace InfraBlockchain.Auth

open IndexedTable

variable {K : Type}

/-- Permissions clash symmetrically. -/
theorem PermissionObject.clash_symm (a b : PermissionObject K) : a.clash b → b.clash a := by
  rintro (h | ⟨h₁, h₂⟩)
  · exact .inl h.symm
  · exact .inr ⟨h₁.symm, h₂.symm⟩

section Table

variable {t : IndexedTable (PermissionObject K) PermissionObject.clash}

/-- Ids are unique in the permission table. -/
theorem eq_of_id_eq {p q : PermissionObject K} (hp : p ∈ t.rows) (hq : q ∈ t.rows)
    (h : p.id = q.id) : p = q :=
  eq_of_clash PermissionObject.clash_symm hp hq (.inl h)

/-- The lookup by id finds the permission with that id. -/
theorem find?_byId {i : Nat} {p : PermissionObject K} (hp : p ∈ t.rows) (hi : p.id = i) :
    t.find? (byId i) = some p := by
  cases h : t.find? (byId i) with
  | none =>
    have hsel := find?_eq_none_iff.1 h p hp
    simp [byId, hi] at hsel
  | some q =>
    obtain ⟨hq, hsel⟩ := mem_of_find? h
    have hqi : q.id = i := by simpa [byId] using hsel
    rw [eq_of_id_eq hq hp (hqi.trans hi.symm)]

/-- A permission found by owner and name has them. -/
theorem mem_of_find?_byOwner {owner name : Name} {p : PermissionObject K}
    (h : t.find? (byOwner owner name) = some p) : p ∈ t.rows ∧ p.owner = owner ∧ p.name = name := by
  obtain ⟨hp, hsel⟩ := mem_of_find? h
  simp only [byOwner, Bool.and_eq_true, beq_iff_eq] at hsel
  exact ⟨hp, hsel⟩

end Table

/-! ## The invariant -/

/-- The permission table is a forest of accounts under the reserved permission `0`, with ids
given below `next`. -/
structure PermissionTree (t : IndexedTable (PermissionObject K) PermissionObject.clash)
    (next : Nat) : Prop where
  /-- The reserved permission is there. -/
  root_mem : ∃ p ∈ t.rows, p.id = 0
  /-- It is its own parent, with the empty name. -/
  root : ∀ p ∈ t.rows, p.id = 0 → p.parent = 0 ∧ p.name = emptyName
  /-- Every id was given before `next`. -/
  id_lt : ∀ p ∈ t.rows, p.id < next
  /-- Every parent is a permission of the table. -/
  parent_mem : ∀ p ∈ t.rows, ∃ q ∈ t.rows, q.id = p.parent
  /-- A parent has a smaller id. -/
  parent_lt : ∀ p ∈ t.rows, p.id ≠ 0 → p.parent < p.id
  /-- The parent is `0` exactly for `owner`. -/
  owner_root : ∀ p ∈ t.rows, p.id ≠ 0 → (p.parent = 0 ↔ p.name = ownerName)
  /-- A parent other than `0` belongs to the same account. -/
  parent_owner : ∀ p ∈ t.rows, ∀ q ∈ t.rows, p.parent ≠ 0 → q.id = p.parent → q.owner = p.owner
  /-- The parent of `active` is `owner`. -/
  active_parent : ∀ p ∈ t.rows, ∀ q ∈ t.rows, p.id ≠ 0 → p.name = activeName →
    q.id = p.parent → q.name = ownerName

/-- The table of `authorization_manager::initialize_database` is a tree. -/
theorem PermissionTree.init : PermissionTree (AuthState.init (K := K)).permissions 1 where
  root_mem := ⟨rootPermission, List.mem_singleton_self _, rfl⟩
  root p hp _ := by
    rw [List.mem_singleton.1 hp]
    exact ⟨rfl, rfl⟩
  id_lt p hp := by
    rw [List.mem_singleton.1 hp]
    exact Nat.zero_lt_one
  parent_mem p hp := ⟨p, hp, by rw [List.mem_singleton.1 hp]; rfl⟩
  parent_lt p hp h := absurd (by rw [List.mem_singleton.1 hp]; rfl) h
  owner_root p hp h := absurd (by rw [List.mem_singleton.1 hp]; rfl) h
  parent_owner p hp _ _ h := absurd (by rw [List.mem_singleton.1 hp]; rfl) h
  active_parent p hp _ _ h := absurd (by rw [List.mem_singleton.1 hp]; rfl) h

section Preservation

variable {t t' : IndexedTable (PermissionObject K) PermissionObject.clash} {next : Nat}

/-- Ids start at `0`, so the next one is not `0`. -/
theorem PermissionTree.next_ne_zero (ht : PermissionTree t next) : next ≠ 0 := by
  obtain ⟨p, hp, -⟩ := ht.root_mem
  have := ht.id_lt p hp
  omega

/-- A parent's id is below the next id. -/
theorem PermissionTree.parent_lt_next (ht : PermissionTree t next) {p : PermissionObject K}
    (hp : p ∈ t.rows) : p.parent < next := by
  obtain ⟨q, hq, hqp⟩ := ht.parent_mem p hp
  rw [← hqp]
  exact ht.id_lt q hq

/-- A new permission with the next id, an `owner` under `0` or another permission under one of
the same account (an `active` under an `owner`), keeps the table a tree. -/
theorem PermissionTree.create (ht : PermissionTree t next) {perm : PermissionObject K}
    (hrows : t'.rows = t.rows ++ [perm]) (hid : perm.id = next)
    (howner : perm.parent = 0 ↔ perm.name = ownerName)
    (hparent : perm.parent ≠ 0 → ∃ q ∈ t.rows, q.id = perm.parent ∧ q.owner = perm.owner ∧
      (perm.name = activeName → q.name = ownerName)) :
    PermissionTree t' (next + 1) := by
  have hmem : ∀ p, p ∈ t'.rows ↔ p ∈ t.rows ∨ p = perm := by
    intro p
    rw [hrows, List.mem_append, List.mem_singleton]
  have hnext := ht.next_ne_zero
  -- the new parent is an older permission
  have hperm_parent : perm.parent < next := by
    by_cases h0 : perm.parent = 0
    · omega
    · obtain ⟨q, hq, hqid, -⟩ := hparent h0
      rw [← hqid]
      exact ht.id_lt q hq
  -- a permission of the new table with an old id is an old one
  have hold : ∀ q ∈ t'.rows, q.id < next → q ∈ t.rows := by
    intro q hq hlt
    rcases (hmem q).1 hq with hq | rfl
    · exact hq
    · omega
  have hsub : ∀ q ∈ t.rows, q ∈ t'.rows := fun q hq => (hmem q).2 (.inl hq)
  constructor
  · obtain ⟨p, hp, hp0⟩ := ht.root_mem
    exact ⟨p, hsub p hp, hp0⟩
  · intro p hp hp0
    exact ht.root p (hold p hp (by omega)) hp0
  · intro p hp
    rcases (hmem p).1 hp with hp | rfl
    · have := ht.id_lt p hp
      omega
    · omega
  · intro p hp
    rcases (hmem p).1 hp with hp | rfl
    · obtain ⟨q, hq, hqp⟩ := ht.parent_mem p hp
      exact ⟨q, hsub q hq, hqp⟩
    · by_cases h0 : p.parent = 0
      · obtain ⟨r, hr, hr0⟩ := ht.root_mem
        exact ⟨r, hsub r hr, hr0.trans h0.symm⟩
      · obtain ⟨q, hq, hqid, -⟩ := hparent h0
        exact ⟨q, hsub q hq, hqid⟩
  · intro p hp hp0
    rcases (hmem p).1 hp with hp | rfl
    · exact ht.parent_lt p hp hp0
    · omega
  · intro p hp hp0
    rcases (hmem p).1 hp with hp | rfl
    · exact ht.owner_root p hp hp0
    · exact howner
  · intro p hp q hq hp0 hqp
    have hq_old : q ∈ t.rows := by
      rcases (hmem p).1 hp with hp | rfl
      · exact hold q hq (hqp ▸ ht.parent_lt_next hp)
      · exact hold q hq (hqp ▸ hperm_parent)
    rcases (hmem p).1 hp with hp | rfl
    · exact ht.parent_owner p hp q hq_old hp0 hqp
    · obtain ⟨q', hq', hq'id, hq'owner, -⟩ := hparent hp0
      rw [eq_of_id_eq hq_old hq' (hqp.trans hq'id.symm)]
      exact hq'owner
  · intro p hp q hq hp0 hact hqp
    rcases (hmem p).1 hp with hp | rfl
    · exact ht.active_parent p hp q (hold q hq (hqp ▸ ht.parent_lt_next hp)) hp0 hact hqp
    · -- an `active` is not an `owner`, so its parent is not `0`
      have hne : p.parent ≠ 0 := fun h0 => by
        have := howner.1 h0
        rw [hact] at this
        exact absurd this (by decide)
      obtain ⟨q', hq', hq'id, -, hq'name⟩ := hparent hne
      have hq_old := hold q hq (hqp ▸ hperm_parent)
      rw [eq_of_id_eq hq_old hq' (hqp.trans hq'id.symm)]
      exact hq'name hact

/-- A change that keeps every permission's id, parent, owner and name keeps the table a tree. -/
theorem PermissionTree.map (ht : PermissionTree t next) {f : PermissionObject K → PermissionObject K}
    (hrows : t'.rows = t.rows.map f) (hid : ∀ p, (f p).id = p.id)
    (hparent : ∀ p, (f p).parent = p.parent) (howner : ∀ p, (f p).owner = p.owner)
    (hname : ∀ p, (f p).name = p.name) : PermissionTree t' next := by
  have hmem : ∀ q, q ∈ t'.rows ↔ ∃ p ∈ t.rows, f p = q := by
    intro q
    rw [hrows, List.mem_map]
  constructor
  · obtain ⟨p, hp, hp0⟩ := ht.root_mem
    exact ⟨f p, (hmem _).2 ⟨p, hp, rfl⟩, (hid p).trans hp0⟩
  · rintro _ hq hq0
    obtain ⟨p, hp, rfl⟩ := (hmem _).1 hq
    rw [hid] at hq0
    rw [hparent, hname]
    exact ht.root p hp hq0
  · rintro _ hq
    obtain ⟨p, hp, rfl⟩ := (hmem _).1 hq
    rw [hid]
    exact ht.id_lt p hp
  · rintro _ hq
    obtain ⟨p, hp, rfl⟩ := (hmem _).1 hq
    obtain ⟨r, hr, hrp⟩ := ht.parent_mem p hp
    exact ⟨f r, (hmem _).2 ⟨r, hr, rfl⟩, by rw [hid, hparent]; exact hrp⟩
  · rintro _ hq hq0
    obtain ⟨p, hp, rfl⟩ := (hmem _).1 hq
    rw [hid] at hq0 ⊢
    rw [hparent]
    exact ht.parent_lt p hp hq0
  · rintro _ hq hq0
    obtain ⟨p, hp, rfl⟩ := (hmem _).1 hq
    rw [hid] at hq0
    rw [hparent, hname]
    exact ht.owner_root p hp hq0
  · rintro _ hq _ hr' hq0 hrq
    obtain ⟨p, hp, rfl⟩ := (hmem _).1 hq
    obtain ⟨r, hr, rfl⟩ := (hmem _).1 hr'
    rw [hparent] at hq0 hrq
    rw [hid] at hrq
    rw [howner, howner]
    exact ht.parent_owner p hp r hr hq0 hrq
  · rintro _ hq _ hr' hq0 hact hrq
    obtain ⟨p, hp, rfl⟩ := (hmem _).1 hq
    obtain ⟨r, hr, rfl⟩ := (hmem _).1 hr'
    rw [hid] at hq0 hrq
    rw [hname] at hact ⊢
    rw [hparent] at hrq
    exact ht.active_parent p hp r hr hq0 hact hrq

/-- Removing a permission other than `0` that has no children keeps the table a tree. -/
theorem PermissionTree.remove (ht : PermissionTree t next) {i : Nat} (hi : i ≠ 0)
    (hchildren : ∀ q ∈ t.rows, q.parent ≠ i)
    (hrows : t'.rows = t.rows.filter fun r => !byId i r) : PermissionTree t' next := by
  have hmem : ∀ q, q ∈ t'.rows ↔ q ∈ t.rows ∧ q.id ≠ i := by
    intro q
    rw [hrows, List.mem_filter]
    simp [byId]
  have hsub : ∀ q ∈ t'.rows, q ∈ t.rows := fun q hq => ((hmem q).1 hq).1
  constructor
  · obtain ⟨p, hp, hp0⟩ := ht.root_mem
    exact ⟨p, (hmem p).2 ⟨hp, by omega⟩, hp0⟩
  · exact fun p hp => ht.root p (hsub p hp)
  · exact fun p hp => ht.id_lt p (hsub p hp)
  · intro p hp
    -- the parent of a remaining permission was not the removed one
    obtain ⟨q, hq, hqp⟩ := ht.parent_mem p (hsub p hp)
    have hqi : q.id ≠ i := hqp ▸ hchildren p (hsub p hp)
    exact ⟨q, (hmem q).2 ⟨hq, hqi⟩, hqp⟩
  · exact fun p hp => ht.parent_lt p (hsub p hp)
  · exact fun p hp => ht.owner_root p (hsub p hp)
  · exact fun p hp q hq => ht.parent_owner p (hsub p hp) q (hsub q hq)
  · exact fun p hp q hq => ht.active_parent p (hsub p hp) q (hsub q hq)

end Preservation

/-! ## The functions of the manager -/

section Functions

variable {cfg : AuthConfig K} {s s' : AuthState K}

/-- A permission that `get_permission` returns is the one of that owner and name, both not
empty. -/
theorem getPermission_ok {level : PermissionLevel} {p : PermissionObject K}
    (h : getPermission s level = .ok p) :
    p ∈ s.permissions.rows ∧ p.owner = level.actor ∧ p.name = level.permission ∧
      level.actor.empty = false ∧ level.permission.empty = false := by
  simp only [getPermission, bind_eq_ok, eosAssert_eq_ok, liftDb_eq_ok, exists_const,
    Bool.and_eq_true, Bool.not_eq_eq_eq_not, Bool.not_true] at h
  obtain ⟨⟨hactor, hperm⟩, hfind⟩ := h
  obtain ⟨hp, howner, hname⟩ := mem_of_find?_byOwner hfind
  exact ⟨hp, howner, hname, hactor, hperm⟩

/-- In a tree, a permission with a name that is not empty is not the reserved one. -/
theorem PermissionTree.id_ne_zero {next : Nat} (ht : PermissionTree s.permissions next)
    {p : PermissionObject K} (hp : p ∈ s.permissions.rows) (hname : p.name.empty = false) :
    p.id ≠ 0 := by
  intro h0
  have hempty := (ht.root p hp h0).2
  rw [hempty] at hname
  exact absurd hname (by decide)

/-- `create_permission` adds the permission with the next id at the end of the table. -/
theorem createPermission_ok {account name : Name} {parent : Nat} {auth : Authority K}
    {perm : PermissionObject K} (h : createPermission cfg s account name parent auth = .ok (s', perm)) :
    perm = ⟨s.next_permission_id, parent, account, name, auth⟩ ∧
      s'.permissions.rows = s.permissions.rows ++ [perm] ∧
      s'.next_permission_id = s.next_permission_id + 1 := by
  simp only [createPermission, bind_eq_ok, eosAssert_eq_ok, liftDb_eq_ok, exists_const] at h
  obtain ⟨-, permissions, hcreate, hres⟩ := h
  simp only [pure, Except.pure, Except.ok.injEq, Prod.mk.injEq] at hres
  obtain ⟨rfl, rfl⟩ := hres
  exact ⟨rfl, rows_of_create hcreate, rfl⟩

/-- `create_permission` keeps the table a tree for an `owner` under `0` or another permission under
one of the same account. -/
theorem createPermission_tree {account name : Name} {parent : Nat} {auth : Authority K}
    {perm : PermissionObject K} (ht : PermissionTree s.permissions s.next_permission_id)
    (h : createPermission cfg s account name parent auth = .ok (s', perm))
    (howner : parent = 0 ↔ name = ownerName)
    (hparent : parent ≠ 0 → ∃ q ∈ s.permissions.rows, q.id = parent ∧ q.owner = account ∧
      (name = activeName → q.name = ownerName)) :
    PermissionTree s'.permissions s'.next_permission_id := by
  obtain ⟨rfl, hrows, hnext⟩ := createPermission_ok h
  rw [hnext]
  exact ht.create hrows rfl howner hparent

/-- `modify_permission` changes the authority of one permission only. -/
theorem modifyPermission_ok {permission : PermissionObject K} {auth : Authority K}
    (h : modifyPermission cfg s permission auth = .ok s') :
    s'.permissions.rows = mapSelected (byId permission.id) (fun p => { p with auth })
      s.permissions.rows ∧ s'.next_permission_id = s.next_permission_id := by
  simp only [modifyPermission, bind_eq_ok, eosAssert_eq_ok, liftDb_eq_ok, exists_const] at h
  obtain ⟨-, permissions, hmodify, hres⟩ := h
  simp only [pure, Except.pure, Except.ok.injEq] at hres
  subst hres
  exact ⟨rows_of_modify hmodify, rfl⟩

/-- `modify_permission` keeps the table a tree. -/
theorem modifyPermission_tree {permission : PermissionObject K} {auth : Authority K}
    (ht : PermissionTree s.permissions s.next_permission_id)
    (h : modifyPermission cfg s permission auth = .ok s') :
    PermissionTree s'.permissions s'.next_permission_id := by
  obtain ⟨hrows, hnext⟩ := modifyPermission_ok h
  rw [hnext]
  -- every row keeps its id, parent, owner and name, changed or not
  refine ht.map hrows (fun p => ?_) (fun p => ?_) (fun p => ?_) (fun p => ?_) <;>
    by_cases hp : byId permission.id p <;> simp [hp]

/-- `remove_permission` removes a permission without children. -/
theorem removePermission_ok {permission : PermissionObject K}
    (h : removePermission s permission = .ok s') :
    (∀ q ∈ s.permissions.rows, q.parent ≠ permission.id) ∧
      s'.permissions.rows = s.permissions.rows.filter (fun r => !byId permission.id r) ∧
      s'.next_permission_id = s.next_permission_id := by
  simp only [removePermission, bind_eq_ok, eosAssert_eq_ok, exists_const, List.all_eq_true,
    bne_iff_ne, ne_eq] at h
  obtain ⟨hchildren, hres⟩ := h
  simp only [pure, Except.pure, Except.ok.injEq] at hres
  subst hres
  exact ⟨hchildren, rows_remove _ _, rfl⟩

end Functions

/-! ## The native actions -/

section Actions

open Token (ApplyContext)

variable {cfg : AuthConfig K} {s s' : AuthState K}

/-- The `owner` and `active` permissions of a new account keep the table a tree. -/
theorem createAccountPermissions_tree {name : Name} {owner active : Authority K}
    (ht : PermissionTree s.permissions s.next_permission_id)
    (h : createAccountPermissions cfg s name owner active = .ok s') :
    PermissionTree s'.permissions s'.next_permission_id := by
  simp only [createAccountPermissions, bind_eq_ok] at h
  obtain ⟨⟨s₁, owner_permission⟩, h₁, ⟨s₂, active_permission⟩, h₂, hres⟩ := h
  simp only [pure, Except.pure, Except.ok.injEq] at hres
  subst hres
  -- `owner` goes under the reserved permission
  have ht₁ : PermissionTree s₁.permissions s₁.next_permission_id :=
    createPermission_tree ht h₁ (by simp) (fun h => absurd rfl h)
  obtain ⟨rfl, hrows₁, -⟩ := createPermission_ok h₁
  -- `active` goes under the new `owner`, whose id is not `0`
  have hid : s.next_permission_id ≠ 0 := ht.next_ne_zero
  have hactive : activeName ≠ ownerName := by decide
  have howner_mem : (⟨s.next_permission_id, 0, name, ownerName, owner⟩ : PermissionObject K) ∈
      s₁.permissions.rows := by
    rw [hrows₁]
    exact List.mem_append_right _ (List.mem_singleton_self _)
  have ht₂ : PermissionTree s₂.permissions s₂.next_permission_id :=
    createPermission_tree ht₁ h₂ ⟨fun h => absurd h hid, fun h => absurd h hactive⟩
      (fun _ => ⟨_, howner_mem, rfl, rfl, fun _ => rfl⟩)
  exact ht₂

/-- `newaccount` creates the account's `owner` and `active` on a table with its permissions. -/
theorem applyNewaccount_ok [LT K] [DecidableLT K] {ctx : ApplyContext} {create : Newaccount K}
    (h : applyNewaccount cfg ctx s create = .ok s') :
    ∃ accounts, createAccountPermissions cfg { s with accounts } create.name create.owner
      create.active = .ok s' := by
  simp only [applyNewaccount, bind_eq_ok, eosAssert_eq_ok, liftDb_eq_ok, exists_const] at h
  obtain ⟨-, -, -, -, -, -, -, -, -, -, -, accounts, -, -, -, -, -, hcreate⟩ := h
  exact ⟨accounts, hcreate⟩

/-- `find_permission` answers the lookup by owner and name. -/
theorem findPermission_ok {level : PermissionLevel} {r : Option (PermissionObject K)}
    (h : findPermission s level = .ok r) :
    r = s.permissions.find? (byOwner level.actor level.permission) := by
  simp only [findPermission, bind_eq_ok, eosAssert_eq_ok, exists_const, pure, Except.pure,
    Except.ok.injEq] at h
  exact h.2.symm

/-- What the parent checks of `updateauth` let through. -/
theorem checkUpdateauthParent_ok {update : Updateauth K} {u : Unit}
    (h : checkUpdateauthParent update = .ok u) :
    (update.permission = activeName → update.parent = ownerName) ∧
      (update.permission ≠ ownerName → update.parent.empty = false) := by
  unfold checkUpdateauthParent at h
  by_cases hact : update.permission = activeName
  · -- `active` is not `owner`
    have hne : activeName ≠ ownerName := by decide
    simp only [hact, if_true, hne, if_false, bind_eq_ok, eosAssert_eq_ok, beq_iff_eq,
      exists_const, Bool.not_eq_eq_eq_not, Bool.not_true] at h
    exact ⟨fun _ => h.1, fun _ => h.2⟩
  · by_cases howner : update.permission = ownerName
    · exact ⟨fun h' => absurd h' hact, fun h' => absurd howner h'⟩
    · simp only [hact, if_false, howner, eosAssert_eq_ok, Bool.not_eq_eq_eq_not,
        Bool.not_true] at h
      exact ⟨fun h' => absurd h' hact, fun _ => h⟩

/-- The parent's id of `updateauth`: `0` for `owner`, else the id of a permission that
`get_permission` finds. -/
theorem updateauthParentId_ok {update : Updateauth K} {parent_id : Nat}
    (h : updateauthParentId s update = .ok parent_id) :
    (update.permission = ownerName → parent_id = 0) ∧
      (update.permission ≠ ownerName →
        ∃ q, getPermission s ⟨update.account, update.parent⟩ = .ok q ∧ q.id = parent_id) := by
  unfold updateauthParentId at h
  by_cases howner : update.permission = ownerName
  · simp only [howner, ne_eq, not_true_eq_false, if_false, pure, Except.pure,
      Except.ok.injEq] at h
    exact ⟨fun _ => h.symm, fun h' => absurd howner h'⟩
  · simp only [howner, ne_eq, not_false_eq_true, if_true] at h
    refine ⟨fun h' => absurd h' howner, fun _ => ?_⟩
    cases hq : getPermission s ⟨update.account, update.parent⟩ with
    | error e => simp [hq, Functor.map, Except.map] at h
    | ok q =>
      simp only [hq, Functor.map, Except.map, Except.ok.injEq] at h
      exact ⟨q, rfl, h⟩

/-- `updateauth` passes the parent checks and then changes the authority of the permission that
it finds, under the same parent, or creates the permission under the parent's id. -/
theorem applyUpdateauth_ok [LT K] [DecidableLT K] {ctx : ApplyContext} {update : Updateauth K}
    (h : applyUpdateauth cfg ctx s update = .ok s') :
    (update.permission = activeName → update.parent = ownerName) ∧
      (update.permission ≠ ownerName → update.parent.empty = false) ∧
      ∃ parent_id, updateauthParentId s update = .ok parent_id ∧
      ((∃ p, s.permissions.find? (byOwner update.account update.permission) = some p ∧
          parent_id = p.parent ∧ ∃ s₁, modifyPermission cfg s p update.auth = .ok s₁ ∧
            s'.permissions = s₁.permissions ∧ s'.next_permission_id = s₁.next_permission_id) ∨
        (s.permissions.find? (byOwner update.account update.permission) = none ∧
          ∃ s₁ p, createPermission cfg s update.account update.permission parent_id update.auth =
            .ok (s₁, p) ∧
            s'.permissions = s₁.permissions ∧ s'.next_permission_id = s₁.next_permission_id)) := by
  simp only [applyUpdateauth, bind_eq_ok, eosAssert_eq_ok, liftDb_eq_ok, exists_const] at h
  obtain ⟨-, -, -, -, -, -, -, -, u, hparent, -, -, -, -, permission, hfind, parent_id, hpid,
    hrest⟩ := h
  obtain ⟨hact, hempty⟩ := checkUpdateauthParent_ok hparent
  refine ⟨hact, hempty, parent_id, hpid, ?_⟩
  rw [findPermission_ok hfind] at hrest
  cases hp : s.permissions.find? (byOwner update.account update.permission) with
  | some p =>
    rw [hp] at hrest
    simp only [bind_eq_ok, eosAssert_eq_ok, beq_iff_eq, exists_const] at hrest
    obtain ⟨hpe, s₁, hmod, hres⟩ := hrest
    simp only [pure, Except.pure, Except.ok.injEq] at hres
    subst hres
    exact .inl ⟨p, rfl, hpe, s₁, hmod, rfl, rfl⟩
  | none =>
    rw [hp] at hrest
    simp only [bind_eq_ok] at hrest
    obtain ⟨⟨s₁, p⟩, hcreate, hres⟩ := hrest
    simp only [pure, Except.pure, Except.ok.injEq] at hres
    subst hres
    exact .inr ⟨rfl, s₁, p, hcreate, rfl, rfl⟩

/-- `deleteauth` removes a permission that `get_permission` finds. -/
theorem applyDeleteauth_ok {ctx : ApplyContext} {remove : Deleteauth}
    (h : applyDeleteauth cfg ctx s remove = .ok s') :
    ∃ p, getPermission s ⟨remove.account, remove.permission⟩ = .ok p ∧
      ∃ s₁, removePermission s p = .ok s₁ ∧ s'.permissions = s₁.permissions ∧
        s'.next_permission_id = s₁.next_permission_id := by
  simp only [applyDeleteauth, bind_eq_ok, eosAssert_eq_ok, exists_const] at h
  obtain ⟨-, -, -, -, -, p, hget, s₁, hremove, hres⟩ := h
  simp only [pure, Except.pure, Except.ok.injEq] at hres
  subst hres
  exact ⟨p, hget, s₁, hremove, rfl, rfl⟩

/-- `linkauth` changes the links only. -/
theorem applyLinkauth_ok {ctx : ApplyContext} {requirement : Linkauth}
    (h : applyLinkauth cfg ctx s requirement = .ok s') :
    s'.permissions = s.permissions ∧ s'.next_permission_id = s.next_permission_id := by
  simp only [applyLinkauth, bind_eq_ok, eosAssert_eq_ok, exists_const] at h
  obtain ⟨-, -, -, -, -, -, -, hrest⟩ := h
  cases hlink : s.links.find? (byActionName requirement.account requirement.code requirement.type)
    with
  | some link =>
    rw [hlink] at hrest
    simp only [bind_eq_ok, eosAssert_eq_ok, liftDb_eq_ok, exists_const] at hrest
    obtain ⟨-, links, -, hres⟩ := hrest
    simp only [pure, Except.pure, Except.ok.injEq] at hres
    subst hres
    exact ⟨rfl, rfl⟩
  | none =>
    rw [hlink] at hrest
    simp only [bind_eq_ok, liftDb_eq_ok] at hrest
    obtain ⟨links, -, hres⟩ := hrest
    simp only [pure, Except.pure, Except.ok.injEq] at hres
    subst hres
    exact ⟨rfl, rfl⟩

/-- `unlinkauth` changes the links only. -/
theorem applyUnlinkauth_ok {ctx : ApplyContext} {unlink : Unlinkauth}
    (h : applyUnlinkauth ctx s unlink = .ok s') :
    s'.permissions = s.permissions ∧ s'.next_permission_id = s.next_permission_id := by
  simp only [applyUnlinkauth, bind_eq_ok, liftDb_eq_ok] at h
  obtain ⟨-, -, link, -, hres⟩ := h
  simp only [pure, Except.pure, Except.ok.injEq] at hres
  subst hres
  exact ⟨rfl, rfl⟩

/-- `newaccount` keeps the table a tree. -/
theorem applyNewaccount_tree [LT K] [DecidableLT K] {ctx : ApplyContext} {create : Newaccount K}
    (ht : PermissionTree s.permissions s.next_permission_id)
    (h : applyNewaccount cfg ctx s create = .ok s') :
    PermissionTree s'.permissions s'.next_permission_id := by
  obtain ⟨accounts, hcreate⟩ := applyNewaccount_ok h
  -- the new account row leaves the permission table as it was
  have ht' : PermissionTree ({ s with accounts } : AuthState K).permissions
      ({ s with accounts } : AuthState K).next_permission_id := ht
  exact createAccountPermissions_tree ht' hcreate

/-- `updateauth` keeps the table a tree: a new permission goes under an existing permission of the
same account that is not the reserved one, unless it is an `owner`. -/
theorem applyUpdateauth_tree [LT K] [DecidableLT K] {ctx : ApplyContext} {update : Updateauth K}
    (ht : PermissionTree s.permissions s.next_permission_id)
    (h : applyUpdateauth cfg ctx s update = .ok s') :
    PermissionTree s'.permissions s'.next_permission_id := by
  obtain ⟨hact, hempty, parent_id, hpid, ⟨p, -, -, s₁, hmod, hperm, hnext⟩ |
    ⟨-, s₁, p, hcreate, hperm, hnext⟩⟩ := applyUpdateauth_ok h
  · rw [hperm, hnext]
    exact modifyPermission_tree ht hmod
  · rw [hperm, hnext]
    obtain ⟨hzero, hq⟩ := updateauthParentId_ok hpid
    by_cases howner : update.permission = ownerName
    · refine createPermission_tree ht hcreate ⟨fun _ => howner, fun _ => hzero howner⟩ ?_
      exact fun h0 => absurd (hzero howner) h0
    · obtain ⟨q, hget, hqid⟩ := hq howner
      obtain ⟨hqmem, hqowner, hqname, -, hqempty⟩ := getPermission_ok hget
      -- the parent has a name, so it is not the reserved permission
      have hq0 : q.id ≠ 0 := ht.id_ne_zero hqmem (by rw [hqname]; exact hempty howner)
      refine createPermission_tree ht hcreate
        ⟨fun h0 => absurd (hqid.trans h0) hq0, fun h' => absurd h' howner⟩ ?_
      intro _
      exact ⟨q, hqmem, hqid, hqowner, fun ha => by rw [hqname]; exact hact ha⟩

/-- `deleteauth` keeps the table a tree: it removes a named permission without children. -/
theorem applyDeleteauth_tree {ctx : ApplyContext} {remove : Deleteauth}
    (ht : PermissionTree s.permissions s.next_permission_id)
    (h : applyDeleteauth cfg ctx s remove = .ok s') :
    PermissionTree s'.permissions s'.next_permission_id := by
  obtain ⟨p, hget, s₁, hremove, hperm, hnext⟩ := applyDeleteauth_ok h
  obtain ⟨hpmem, -, hpname, -, hpempty⟩ := getPermission_ok hget
  obtain ⟨hchildren, hrows, hnext₁⟩ := removePermission_ok hremove
  rw [hperm, hnext, hnext₁]
  exact ht.remove (ht.id_ne_zero hpmem (by rw [hpname]; exact hpempty)) hchildren hrows

/-- Every native action keeps the permission table a tree. -/
theorem authStep_tree [LT K] [DecidableLT K] {r : AuthRequest K}
    (ht : PermissionTree s.permissions s.next_permission_id) (h : authStep cfg s r = .ok s') :
    PermissionTree s'.permissions s'.next_permission_id := by
  cases r with
  | newaccount ctx act => exact applyNewaccount_tree ht h
  | updateauth ctx act => exact applyUpdateauth_tree ht h
  | deleteauth ctx act => exact applyDeleteauth_tree ht h
  | linkauth ctx act =>
    obtain ⟨hperm, hnext⟩ := applyLinkauth_ok h
    rw [hperm, hnext]
    exact ht
  | unlinkauth ctx act =>
    obtain ⟨hperm, hnext⟩ := applyUnlinkauth_ok h
    rw [hperm, hnext]
    exact ht

/-- Every run of native actions from a tree leaves a tree. -/
theorem run_tree [LT K] [DecidableLT K] (reqs : List (AuthRequest K))
    (ht : PermissionTree s.permissions s.next_permission_id) :
    let s' := Machine.run (authStep cfg) s reqs
    PermissionTree s'.permissions s'.next_permission_id :=
  Machine.run_invariant (fun s : AuthState K => PermissionTree s.permissions s.next_permission_id)
    (fun _ _ _ hs h => authStep_tree hs h) reqs ht

end Actions

/-! ## Genesis -/

section Genesis

variable {cfg : AuthConfig K} {s s' : AuthState K}

/-- A native account keeps the table a tree. -/
theorem createNativeAccount_tree {name : Name} {owner active : Authority K} {is_privileged : Bool}
    (ht : PermissionTree s.permissions s.next_permission_id)
    (h : createNativeAccount cfg s name owner active is_privileged = .ok s') :
    PermissionTree s'.permissions s'.next_permission_id := by
  simp only [createNativeAccount, bind_eq_ok, liftDb_eq_ok] at h
  obtain ⟨accounts, -, hcreate⟩ := h
  have ht' : PermissionTree ({ s with accounts } : AuthState K).permissions
      ({ s with accounts } : AuthState K).next_permission_id := ht
  exact createAccountPermissions_tree ht' hcreate

/-- The permission table at genesis is a tree: the native accounts, and the producers' majority
and minority permissions under `eosio.prods@active`. -/
theorem initializeDatabase_tree {system_auth : Authority K}
    (h : initializeDatabase cfg system_auth = .ok s') :
    PermissionTree s'.permissions s'.next_permission_id := by
  simp only [initializeDatabase, bind_eq_ok] at h
  obtain ⟨s₁, h₁, s₂, h₂, s₃, h₃, active_permission, hget, ⟨s₄, majority⟩, h₄,
    ⟨s₅, minority⟩, h₅, hres⟩ := h
  simp only [pure, Except.pure, Except.ok.injEq] at hres
  subst hres
  have ht₃ : PermissionTree s₃.permissions s₃.next_permission_id :=
    createNativeAccount_tree (createNativeAccount_tree (createNativeAccount_tree
      PermissionTree.init h₁) h₂) h₃
  -- the majority permission goes under `eosio.prods@active`
  obtain ⟨hamem, haowner, haname, -, haempty⟩ := getPermission_ok hget
  have ha0 : active_permission.id ≠ 0 := ht₃.id_ne_zero hamem (by rw [haname]; exact haempty)
  have hmaj_owner : majorityProducersPermissionName ≠ ownerName := by decide
  have hmaj_active : majorityProducersPermissionName ≠ activeName := by decide
  have ht₄ : PermissionTree s₄.permissions s₄.next_permission_id :=
    createPermission_tree ht₃ h₄ ⟨fun h0 => absurd h0 ha0, fun h' => absurd h' hmaj_owner⟩
      (fun _ => ⟨active_permission, hamem, rfl, haowner, fun h' => absurd h' hmaj_active⟩)
  -- the minority permission goes under the majority permission
  obtain ⟨rfl, hrows₄, -⟩ := createPermission_ok h₄
  have hmin_owner : minorityProducersPermissionName ≠ ownerName := by decide
  have hmin_active : minorityProducersPermissionName ≠ activeName := by decide
  have hmaj0 : s₃.next_permission_id ≠ 0 := ht₃.next_ne_zero
  have hmaj_mem : (⟨s₃.next_permission_id, active_permission.id, producersAccountName,
      majorityProducersPermissionName, activeProducersAuthority⟩ : PermissionObject K) ∈
      s₄.permissions.rows := by
    rw [hrows₄]
    exact List.mem_append_right _ (List.mem_singleton_self _)
  exact createPermission_tree ht₄ h₅ ⟨fun h0 => absurd h0 hmaj0, fun h' => absurd h' hmin_owner⟩
    (fun _ => ⟨_, hmaj_mem, rfl, rfl, fun h' => absurd h' hmin_active⟩)

end Genesis

/-! ## Removed permissions -/

section Removal

variable {cfg : AuthConfig K} {s s' : AuthState K}

/-- Each permission of `s` keeps its id in `s'`, or had no children. -/
def KeepsParents (s s' : AuthState K) : Prop :=
  ∀ p ∈ s.permissions.rows,
    (∃ p' ∈ s'.permissions.rows, p'.id = p.id) ∨ ∀ q ∈ s.permissions.rows, q.parent ≠ p.id

/-- A step that keeps every permission keeps every id. -/
theorem KeepsParents.of_subset (h : ∀ p ∈ s.permissions.rows, p ∈ s'.permissions.rows) :
    KeepsParents s s' :=
  fun p hp => .inl ⟨p, h p hp, rfl⟩

/-- `create_permission` keeps every permission. -/
theorem createPermission_subset {account name : Name} {parent : Nat} {auth : Authority K}
    {perm : PermissionObject K} (h : createPermission cfg s account name parent auth = .ok (s', perm))
    {p : PermissionObject K} (hp : p ∈ s.permissions.rows) : p ∈ s'.permissions.rows := by
  rw [(createPermission_ok h).2.1]
  exact List.mem_append_left _ hp

/-- `newaccount` keeps every permission. -/
theorem applyNewaccount_keeps [LT K] [DecidableLT K] {ctx : Token.ApplyContext}
    {create : Newaccount K} (h : applyNewaccount cfg ctx s create = .ok s') :
    KeepsParents s s' := by
  obtain ⟨accounts, hcreate⟩ := applyNewaccount_ok h
  simp only [createAccountPermissions, bind_eq_ok] at hcreate
  obtain ⟨⟨s₁, _⟩, h₁, ⟨s₂, _⟩, h₂, hres⟩ := hcreate
  simp only [pure, Except.pure, Except.ok.injEq] at hres
  subst hres
  exact KeepsParents.of_subset fun p hp =>
    createPermission_subset h₂ (createPermission_subset h₁ hp)

/-- `updateauth` keeps every permission's id. -/
theorem applyUpdateauth_keeps [LT K] [DecidableLT K] {ctx : Token.ApplyContext}
    {update : Updateauth K} (h : applyUpdateauth cfg ctx s update = .ok s') :
    KeepsParents s s' := by
  obtain ⟨-, -, parent_id, -,
    ⟨perm, -, -, s₁, hmod, hperm, -⟩ | ⟨-, s₁, created, hcreate, hperm, -⟩⟩ := applyUpdateauth_ok h
  · -- the modified permission keeps its id
    intro p hp
    refine .inl ⟨if byId perm.id p then { p with auth := update.auth } else p, ?_, ?_⟩
    · rw [hperm, (modifyPermission_ok hmod).1]
      exact List.mem_map_of_mem hp
    · by_cases hsel : byId perm.id p <;> simp [hsel]
  · exact KeepsParents.of_subset fun p hp => hperm ▸ createPermission_subset hcreate hp

/-- `deleteauth` removes only a permission without children. -/
theorem applyDeleteauth_keeps {ctx : Token.ApplyContext} {remove : Deleteauth}
    (h : applyDeleteauth cfg ctx s remove = .ok s') : KeepsParents s s' := by
  obtain ⟨perm, -, s₁, hremove, hperm, -⟩ := applyDeleteauth_ok h
  obtain ⟨hchildren, hrows, -⟩ := removePermission_ok hremove
  intro p hp
  by_cases hid : p.id = perm.id
  · exact .inr fun q hq => hid ▸ hchildren q hq
  · refine .inl ⟨p, ?_, rfl⟩
    rw [hperm, hrows, List.mem_filter]
    exact ⟨hp, by simp [byId, hid]⟩

/-- Every native action removes only permissions without children. -/
theorem authStep_keeps [LT K] [DecidableLT K] {r : AuthRequest K}
    (h : authStep cfg s r = .ok s') : KeepsParents s s' := by
  cases r with
  | newaccount ctx act => exact applyNewaccount_keeps h
  | updateauth ctx act => exact applyUpdateauth_keeps h
  | deleteauth ctx act => exact applyDeleteauth_keeps h
  | linkauth ctx act =>
    exact KeepsParents.of_subset fun p hp => (applyLinkauth_ok h).1 ▸ hp
  | unlinkauth ctx act =>
    exact KeepsParents.of_subset fun p hp => (applyUnlinkauth_ok h).1 ▸ hp

end Removal

end InfraBlockchain.Auth
