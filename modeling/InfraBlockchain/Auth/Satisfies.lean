import Mathlib
import InfraBlockchain.Auth.Tree

/-!
# What `permission_object::satisfies` decides

`satisfies` walks up the parents of a permission: it answers whether a permission is another
one, its parent, or the parent of a permission met on the way up, in the same account. The source
loop has no bound; it ends because every parent has a smaller id than its child, until the
reserved permission `0`, which is nobody's child. Over a `PermissionTree` the model's walk
therefore ends within as many iterations as the id it starts from (`satisfiesWalk_spec`, an
induction on the fuel along the chain of parents), and `satisfies` answers whether the first
permission is the second or one of its ancestors (`satisfies_spec`).

Every state that genesis and the native actions reach is such a table, and no native action
removes a permission with children (`permission_tree_invariant`).
-/

namespace InfraBlockchain.Auth

open IndexedTable

variable {K : Type}

/-! ## Ancestors -/

section Ancestors

variable (t : IndexedTable (PermissionObject K) PermissionObject.clash)

/-- `parent` is the parent of `child` in the table; the reserved permission `0` is nobody's
child. -/
def IsParentOf (parent child : PermissionObject K) : Prop :=
  parent ∈ t.rows ∧ child ∈ t.rows ∧ child.id ≠ 0 ∧ child.parent = parent.id

/-- `a` is a proper ancestor of `b`: a chain of parents leads up from `b` to `a`. -/
def IsAncestorOf (a b : PermissionObject K) : Prop :=
  Relation.TransGen (IsParentOf t) a b

variable {t} {next : Nat}

/-- The reserved permission has no ancestor. -/
theorem not_isAncestorOf_of_id_eq_zero {a b : PermissionObject K} (hb : b.id = 0) :
    ¬ IsAncestorOf t a b := by
  intro h
  cases h with
  | single h => exact h.2.2.1 hb
  | tail _ h => exact h.2.2.1 hb

/-- A permission other than `0` has exactly one parent: the permission with its parent's id,
since ids are unique. -/
theorem isParentOf_iff {b q x : PermissionObject K}
    (hb : b ∈ t.rows) (hb0 : b.id ≠ 0) (hq : q ∈ t.rows) (hqb : q.id = b.parent) :
    IsParentOf t x b ↔ x = q := by
  constructor
  · rintro ⟨hx, -, -, hxb⟩
    exact eq_of_id_eq hx hq (hxb.symm.trans hqb.symm)
  · rintro rfl
    exact ⟨hq, hb, hb0, hqb.symm⟩

/-- The ancestors of a permission other than `0` are its parent and the parent's ancestors. -/
theorem isAncestorOf_iff {a b q : PermissionObject K}
    (hb : b ∈ t.rows) (hb0 : b.id ≠ 0) (hq : q ∈ t.rows) (hqb : q.id = b.parent) :
    IsAncestorOf t a b ↔ a = q ∨ IsAncestorOf t a q := by
  unfold IsAncestorOf
  rw [Relation.TransGen.tail'_iff]
  constructor
  · rintro ⟨x, hax, hxb⟩
    rw [isParentOf_iff hb hb0 hq hqb] at hxb
    subst hxb
    rcases Relation.reflTransGen_iff_eq_or_transGen.1 hax with rfl | h
    · exact .inl rfl
    · exact .inr h
  · intro h
    refine ⟨q, ?_, (isParentOf_iff hb hb0 hq hqb).2 rfl⟩
    rcases h with rfl | h
    · exact Relation.ReflTransGen.refl
    · exact h.to_reflTransGen

/-- Every permission has its parent in the table: the reserved permission `0` for an `owner`. -/
theorem PermissionTree.parent_find? (ht : PermissionTree t next) {b : PermissionObject K}
    (hb : b ∈ t.rows) : ∃ q ∈ t.rows, q.id = b.parent ∧ t.find? (byId b.parent) = some q := by
  obtain ⟨q, hq, hqb⟩ := ht.parent_mem b hb
  exact ⟨q, hq, hqb, find?_byId hq hqb⟩

end Ancestors

/-! ## The walk -/

section Walk

variable {t : IndexedTable (PermissionObject K) PermissionObject.clash} {next : Nat}

/-- The walk from a permission ends within as many iterations as its id, and finds the id it
looks for exactly when one of the permission's ancestors has it. At the reserved permission the
walk finds `0`, which no ancestor of it has, so that case is left out. -/
theorem satisfiesWalk_spec (ht : PermissionTree t next) (id : Nat) :
    ∀ (fuel : Nat) (P : PermissionObject K), P ∈ t.rows → P.id < fuel → (P.id = 0 → id ≠ 0) →
      ∃ r, satisfiesWalk t.rows id fuel P = some r ∧
        (r = true ↔ ∃ x, IsAncestorOf t x P ∧ x.id = id)
  | 0, _, _, hfuel, _ => absurd hfuel (Nat.not_lt_zero _)
  | fuel + 1, P, hP, hfuel, hid => by
    by_cases hP0 : P.id = 0
    · -- the reserved permission: its own parent, and nobody's child
      have hpar : P.parent = 0 := (ht.root P hP hP0).1
      refine ⟨false, ?_, ?_⟩
      · simp [satisfiesWalk, hpar, hid hP0]
      · simp only [Bool.false_eq_true, false_iff, not_exists, not_and]
        exact fun x hx _ => not_isAncestorOf_of_id_eq_zero hP0 hx
    obtain ⟨q, hq, hqP, hfind⟩ := ht.parent_find? hP
    -- the ancestors of `P` with the id: its parent `q`, or one of `q`'s
    have hanc : (∃ x, IsAncestorOf t x P ∧ x.id = id) ↔
        q.id = id ∨ ∃ x, IsAncestorOf t x q ∧ x.id = id := by
      simp only [isAncestorOf_iff hP hP0 hq hqP, or_and_right, exists_or, exists_eq_left]
    rw [hanc]
    by_cases hfound : id = P.parent
    · exact ⟨true, by simp [satisfiesWalk, hfound], by simp [hqP, hfound]⟩
    by_cases hroot : P.parent = 0
    · -- the parent is the reserved permission, which has no ancestor
      have hid0 : id ≠ 0 := hroot ▸ hfound
      refine ⟨false, by simp [satisfiesWalk, hroot, hid0], ?_⟩
      have hq0 : q.id = 0 := hqP.trans hroot
      simp only [Bool.false_eq_true, false_iff, not_or, not_exists, not_and]
      exact ⟨fun h => hfound (h.symm.trans hqP),
        fun x hx _ => not_isAncestorOf_of_id_eq_zero hq0 hx⟩
    · -- one iteration up, to a smaller id
      have hlt : q.id < fuel := by
        have := ht.parent_lt P hP hP0
        omega
      obtain ⟨r, hwalk, hr⟩ := satisfiesWalk_spec ht id fuel q hq hlt
        (fun hq0 => absurd (hqP.symm.trans hq0) hroot)
      refine ⟨r, ?_, ?_⟩
      · simp only [satisfiesWalk, if_neg hfound, if_neg hroot]
        rw [show t.rows.find? (byId P.parent) = some q from hfind]
        exact hwalk
      · rw [hr]
        exact ⟨.inr, fun h => h.resolve_left fun h' => hfound (h'.symm.trans hqP)⟩

/-- `permission_object::satisfies` over a tree, with at least as much fuel as the second
permission's id: it ends, and answers whether the first permission is the second or one of its
ancestors, in the same account. -/
theorem satisfies_spec (ht : PermissionTree t next) {a b : PermissionObject K} (ha : a ∈ t.rows)
    (hb : b ∈ t.rows) {fuel : Nat} (hfuel : b.id < fuel) :
    ∃ r, a.satisfies b t fuel = some r ∧
      (r = true ↔ a.owner = b.owner ∧ (a = b ∨ IsAncestorOf t a b)) := by
  by_cases howner : a.owner = b.owner
  swap
  · exact ⟨false, by simp [PermissionObject.satisfies, howner], by simp [howner]⟩
  obtain ⟨q, hq, hqb, hfind⟩ := ht.parent_find? hb
  by_cases hnear : a.id = b.id ∨ a.id = b.parent
  · -- `a` is `b`, or its parent
    refine ⟨true, by simp [PermissionObject.satisfies, howner, hnear], ?_⟩
    simp only [howner, true_and, true_iff]
    rcases hnear with hid | hpar
    · exact .inl (eq_of_id_eq ha hb hid)
    by_cases hb0 : b.id = 0
    · exact .inl (eq_of_id_eq ha hb (hpar.trans ((ht.root b hb hb0).1.trans hb0.symm)))
    · exact .inr (.single ⟨ha, hb, hb0, hpar.symm⟩)
  · -- the walk from the parent `q`
    have hne : a ≠ b := fun h => hnear (.inl (congrArg PermissionObject.id h))
    have haq : a.id ≠ q.id := fun h => hnear (.inr (h.trans hqb))
    have hqlt : q.id < fuel := by
      by_cases hb0 : b.id = 0
      · have := (ht.root b hb hb0).1
        omega
      · have := ht.parent_lt b hb hb0
        omega
    obtain ⟨r, hwalk, hr⟩ := satisfiesWalk_spec ht a.id fuel q hq hqlt
      (fun hq0 => fun ha0 => haq (ha0.trans hq0.symm))
    refine ⟨r, ?_, ?_⟩
    · simp only [PermissionObject.satisfies, howner, ne_eq, not_true_eq_false, if_false,
        if_neg hnear]
      rw [hfind]
      exact hwalk
    -- the ancestors of `b` that are `a` are those of `q`
    have hanc : IsAncestorOf t a b ↔ IsAncestorOf t a q := by
      by_cases hb0 : b.id = 0
      · have hq0 : q.id = 0 := hqb.trans (ht.root b hb hb0).1
        exact iff_of_false (not_isAncestorOf_of_id_eq_zero hb0)
          (not_isAncestorOf_of_id_eq_zero hq0)
      · rw [isAncestorOf_iff hb hb0 hq hqb]
        exact ⟨fun h => h.resolve_left fun h' => haq (congrArg PermissionObject.id h'), .inr⟩
    rw [hr, hanc]
    constructor
    · rintro ⟨x, hx, hxa⟩
      have hxt : x ∈ t.rows := by
        obtain ⟨y, hy, -⟩ := Relation.TransGen.head'_iff.1 hx
        exact hy.1
      exact ⟨howner, .inr (eq_of_id_eq hxt ha hxa ▸ hx)⟩
    · rintro ⟨-, h | h⟩
      · exact absurd h hne
      · exact ⟨a, h, rfl⟩

end Walk

/-! ## Reachable states -/

/-- From genesis, after any native actions: the permission table is a tree, an action that
removes a permission removes one without children, and `satisfies`, with fuel beyond the second
permission's id (the next id will do), ends and answers whether the first permission is the second
or one of its ancestors in the same account. -/
theorem permission_tree_invariant [LT K] [DecidableLT K] {cfg : AuthConfig K}
    {system_auth : Authority K} {s₀ : AuthState K}
    (hgen : initializeDatabase cfg system_auth = .ok s₀) (reqs : List (AuthRequest K)) :
    let s := Machine.run (authStep cfg) s₀ reqs
    PermissionTree s.permissions s.next_permission_id ∧
      (∀ r s', authStep cfg s r = .ok s' → ∀ p ∈ s.permissions.rows,
        (∀ p' ∈ s'.permissions.rows, p'.id ≠ p.id) → ∀ q ∈ s.permissions.rows, q.parent ≠ p.id) ∧
      ∀ a ∈ s.permissions.rows, ∀ b ∈ s.permissions.rows, ∀ fuel, b.id < fuel →
        ∃ r, a.satisfies b s.permissions fuel = some r ∧
          (r = true ↔ a.owner = b.owner ∧ (a = b ∨ IsAncestorOf s.permissions a b)) := by
  intro s
  have ht : PermissionTree s.permissions s.next_permission_id :=
    run_tree reqs (initializeDatabase_tree hgen)
  refine ⟨ht, ?_, fun a ha b hb fuel hfuel => satisfies_spec ht ha hb hfuel⟩
  intro r s' hstep p hp hgone
  -- the permission is gone, so the step kept no permission with its id
  rcases authStep_keeps hstep p hp with ⟨p', hp', hid⟩ | hchildren
  · exact absurd hid (hgone p' hp')
  · exact hchildren

/-- The configuration of a fresh chain: a delay of at most 45 days, authorities at most 6 deep,
one key type whose keys pack in 34 bytes. -/
def genesisConfig : AuthConfig Nat := ⟨3888000, 6, 1, fun _ => 0, fun _ => 34, true⟩

/-- A genesis key of weight `1`. -/
def genesisAuthority : Authority Nat := ⟨1, [⟨7, 1⟩], [], []⟩

/-- Genesis succeeds with the key, and its table is a tree. -/
theorem permission_tree_invariant_at_genesis :
    ∃ s₀ : AuthState Nat, initializeDatabase genesisConfig genesisAuthority = .ok s₀ ∧
      PermissionTree (Machine.run (authStep genesisConfig) s₀ []).permissions
        (Machine.run (authStep genesisConfig) s₀ []).next_permission_id := by
  have hok : (initializeDatabase genesisConfig genesisAuthority).isOk = true := by decide
  cases hgen : initializeDatabase genesisConfig genesisAuthority with
  | error e =>
    rw [hgen] at hok
    exact absurd hok (by simp [Except.isOk, Except.toBool])
  | ok s₀ => exact ⟨s₀, rfl, (permission_tree_invariant hgen []).1⟩

end InfraBlockchain.Auth
