import Mathlib
import InfraBlockchain.Lib.OrderedMultiset
import InfraBlockchain.Lib.WordArith
import InfraBlockchain.Auth.Permissions
import InfraBlockchain.Auth.Satisfies

/-!
# The account query database

`account_query_db_impl` (`account_query_db.cpp`) answers which permissions an account or a key
authorizes. `build_account_query_map` reads every permission of the chain and keeps a
`permission_info` for it (owner, name and threshold) and, in two `boost::bimap`s, an entry for
each account and each key that its authority lists: the weighted authorizer on the left, a
reference to the `permission_info` on the right. `get_accounts_by_authorizers` reads ranges of the
left sides: for a `permission_level` all the weights of that level, and for one with an empty
permission name every level of its actor, up to the lower bound of the next actor name,
`actor + 1`. For the largest name that sum wraps to the empty name, so the range ends at the first
entry; no account has that name, so the range starts at the end, and the loop steps past the end
of the bimap on every chain, from genesis on (`get_accounts_largest_actor_past_end`).

The left side of a bimap is an ordered multiset (`OrderedMultiset`) under the order of
`weighted<T>`: the value, then the weight. A `permission_level` is ordered by its actor, then its
permission, both as words, which is the order of `permissionLevelKey`. The reference to a
`permission_info` is its owner and name, the key of its unique index, and the results read the
`permission_info` through it.

Right after `build_account_query_map`, every query whose wildcards are not for the largest name
returns, up to order, one result per authorizer and per entry of an authority that lists it
(`getAccountsByAuthorizers_build`).

Not modelled: `last_updated_height`, which only the roll-back of `commit_block` reads, with the
time map that computes it, and the processing of the traces of committed blocks.
-/

namespace InfraBlockchain.ChainApis

open Auth OrderedMultiset

variable {K : Type} [LinearOrder K]

/-- `permission_info`, without `last_updated_height`. -/
structure PermissionInfo where
  /-- `owner`. -/
  owner : Name
  /-- `name`. -/
  name : Name
  /-- `threshold`. -/
  threshold : UInt32
  deriving DecidableEq, Repr

/-- `weighted<T>`. -/
structure Weighted (T : Type) where
  /-- `value`. -/
  value : T
  /-- `weight`. -/
  weight : UInt16
  deriving DecidableEq, Repr

/-- `weighted<T>::lower_bound_for(value)`: the least weight. -/
def Weighted.lowerBoundFor {T : Type} (value : T) : Weighted T := ⟨value, 0⟩

/-- `weighted<T>::upper_bound_for(value)`: the largest weight. -/
def Weighted.upperBoundFor {T : Type} (value : T) : Weighted T := ⟨value, 65535⟩

/-- The order of `permission_level`: the actor, then the permission, as words. -/
def permissionLevelKey (p : PermissionLevel) : Nat :=
  p.actor.value.toNat * 2 ^ 64 + p.permission.value.toNat

/-- The order of `weighted<T>`: the value, then the weight. -/
def weightedKey {T κ : Type} (f : T → κ) (w : Weighted T) : Lex (κ × Nat) :=
  toLex (f w.value, w.weight.toNat)

/-- An entry of `name_bimap`: a weighted account on the left, the owner and name of a
`permission_info` on the right. -/
abbrev NameEntry := Weighted PermissionLevel × PermissionLevel

/-- An entry of `key_bimap`. -/
abbrev KeyEntry (K : Type) := Weighted K × PermissionLevel

/-- The order of `name_bimap.left`. -/
def nameKey (e : NameEntry) : Lex (Nat × Nat) := weightedKey permissionLevelKey e.1

/-- The order of `key_bimap.left`. -/
def keyKey (e : KeyEntry K) : Lex (K × Nat) := weightedKey id e.1

/-- What `get_accounts_by_authorizers` reads of `account_query_db_impl`. -/
structure AccountQueryDbImpl (K : Type) where
  /-- `permission_info_index`, unique by owner and name. -/
  permission_info_index : List PermissionInfo
  /-- `name_bimap`, as its left side. -/
  name_bimap : List NameEntry
  /-- `key_bimap`, as its left side. -/
  key_bimap : List (KeyEntry K)

namespace AccountQueryDbImpl

/-- `permission_info_index.emplace(pi)`: a new `permission_info`, unless one with its owner and name
is there already. -/
def emplace (db : AccountQueryDbImpl K) (pi : PermissionInfo) : AccountQueryDbImpl K :=
  if db.permission_info_index.any (fun p => p.owner == pi.owner && p.name == pi.name) then db
  else { db with permission_info_index := db.permission_info_index ++ [pi] }

/-- The entries that `add_to_bimaps(pi, po)` inserts into `name_bimap`. -/
def nameEntries (pi : PermissionInfo) (po : PermissionObject K) : List NameEntry :=
  po.auth.accounts.map fun a => (⟨a.permission, a.weight⟩, ⟨pi.owner, pi.name⟩)

/-- The entries that `add_to_bimaps(pi, po)` inserts into `key_bimap`. -/
def keyEntries (pi : PermissionInfo) (po : PermissionObject K) : List (KeyEntry K) :=
  po.auth.keys.map fun k => (⟨k.key, k.weight⟩, ⟨pi.owner, pi.name⟩)

/-- `add_to_bimaps(pi, po)`. -/
def addToBimaps (db : AccountQueryDbImpl K) (pi : PermissionInfo) (po : PermissionObject K) :
    AccountQueryDbImpl K :=
  { db with
    name_bimap := (nameEntries pi po).foldl (insert nameKey) db.name_bimap
    key_bimap := (keyEntries pi po).foldl (insert keyKey) db.key_bimap }

/-- The `permission_info` of a permission object. -/
def permissionInfoOf (po : PermissionObject K) : PermissionInfo :=
  ⟨po.owner, po.name, po.auth.threshold⟩

/-- The body of the loop of `build_account_query_map` for the permission `po`. -/
def buildStep (db : AccountQueryDbImpl K) (po : PermissionObject K) : AccountQueryDbImpl K :=
  let pi := permissionInfoOf po
  (db.emplace pi).addToBimaps pi po

/-- `build_account_query_map()`, over the permissions of the chain in the order of their ids. -/
def buildAccountQueryMap (permissions : IndexedTable (PermissionObject K) PermissionObject.clash) :
    AccountQueryDbImpl K :=
  permissions.rows.foldl buildStep ⟨[], [], []⟩

/-- The `permission_info` that a bimap entry refers to. -/
def getPermissionInfo (db : AccountQueryDbImpl K) (ref : PermissionLevel) : Option PermissionInfo :=
  db.permission_info_index.find? fun p => p.owner == ref.actor && p.name == ref.permission

/-- `account_result`. -/
structure AccountResult (K : Type) where
  /-- `account_name`. -/
  account_name : Name
  /-- `permission_name`. -/
  permission_name : Name
  /-- `authorizing_account`. -/
  authorizing_account : Option PermissionLevel
  /-- `authorizing_key`. -/
  authorizing_key : Option K
  /-- `weight`. -/
  weight : UInt16
  /-- `threshold`. -/
  threshold : UInt32
  deriving DecidableEq, Repr

/-- `push_results(begin, end)` over the entries of a range: each entry's `permission_info`, with
the authorizer as an account or as a key. -/
def pushResults {T : Type} (db : AccountQueryDbImpl K) (authorizer : T → Option PermissionLevel)
    (key : T → Option K) (entries : List (Weighted T × PermissionLevel)) :
    Option (List (AccountResult K)) :=
  entries.mapM fun e => (db.getPermissionInfo e.2).map fun pi =>
    ⟨pi.owner, pi.name, authorizer e.1.value, key e.1.value, e.1.weight, pi.threshold⟩

/-- The range of `name_bimap` that `get_accounts_by_authorizers` reads for one `permission_level`:
with an empty permission, every level of the actor, up to the lower bound of the next name. -/
def accountRange (db : AccountQueryDbImpl K) (a : PermissionLevel) : Option (List NameEntry) :=
  let lower := fun w => lowerBound nameKey db.name_bimap (weightedKey permissionLevelKey w)
  if a.permission.empty then
    let next_account_name : Name := ⟨a.actor.value + 1⟩
    range db.name_bimap (lower (Weighted.lowerBoundFor ⟨a.actor, a.permission⟩))
      (lower (Weighted.lowerBoundFor ⟨next_account_name, a.permission⟩))
  else
    range db.name_bimap (lower (Weighted.lowerBoundFor a))
      (upperBound nameKey db.name_bimap (weightedKey permissionLevelKey (Weighted.upperBoundFor a)))

/-- The range of `key_bimap` for one key: all its weights. -/
def keyRange (db : AccountQueryDbImpl K) (k : K) : Option (List (KeyEntry K)) :=
  range db.key_bimap (lowerBound keyKey db.key_bimap (weightedKey id (Weighted.lowerBoundFor k)))
    (upperBound keyKey db.key_bimap (weightedKey id (Weighted.upperBoundFor k)))

/-- `std::set<permission_level>(accounts)`: sorted, without repetitions. -/
def accountSet (accounts : List PermissionLevel) : List PermissionLevel :=
  (accounts.mergeSort fun a b => permissionLevelKey a ≤ permissionLevelKey b).dedup

/-- `std::set<public_key_type>(keys)`. -/
def keySet (keys : List K) : List K := (keys.mergeSort fun a b => a ≤ b).dedup

/-- `get_accounts_by_authorizers({accounts, keys})`; `none` where a range loop passes the end of
its bimap, which the source leaves undefined. -/
def getAccountsByAuthorizers (db : AccountQueryDbImpl K) (accounts : List PermissionLevel)
    (keys : List K) : Option (List (AccountResult K)) := do
  let byAccount ← (accountSet accounts).mapM fun a => do
    pushResults db some (fun _ => none) (← db.accountRange a)
  let byKey ← (keySet keys).mapM fun k => do
    pushResults db (fun _ => none) some (← db.keyRange k)
  pure (byAccount.flatten ++ byKey.flatten)

/-! ## What a query asks for -/

/-- Whether an authority's entry for the level `p` is what a query for `a` asks for: every level
of `a`'s actor when `a`'s permission is empty, and `a` itself otherwise. -/
def authorizes (a p : PermissionLevel) : Bool :=
  if a.permission.empty then p.actor == a.actor else p == a

/-- The results that a query for the level `a` should give over the permissions `rows`: one for
each entry of an authority that it asks for, with the entry's weight and the permission's
threshold. -/
def expectedAccountResults (rows : List (PermissionObject K)) (a : PermissionLevel) :
    List (AccountResult K) :=
  rows.flatMap fun po => (po.auth.accounts.filter fun pw => authorizes a pw.permission).map fun pw =>
    ⟨po.owner, po.name, some pw.permission, none, pw.weight, po.auth.threshold⟩

/-- The results that a query for the key `k` should give. -/
def expectedKeyResults (rows : List (PermissionObject K)) (k : K) : List (AccountResult K) :=
  rows.flatMap fun po => (po.auth.keys.filter fun kw => kw.key == k).map fun kw =>
    ⟨po.owner, po.name, none, some kw.key, kw.weight, po.auth.threshold⟩

/-! ## The order of the bimaps -/

/-- Names are equal exactly when their values are. -/
theorem name_eq_iff_toNat {m n : Name} : m = n ↔ m.value.toNat = n.value.toNat := by
  obtain ⟨m⟩ := m
  obtain ⟨n⟩ := n
  rw [Name.mk.injEq, UInt64.toNat_inj]

/-- The order of levels is the order of their actors, then of their permissions. -/
theorem permissionLevelKey_inj {p q : PermissionLevel} :
    permissionLevelKey p = permissionLevelKey q ↔ p = q := by
  obtain ⟨⟨pa⟩, ⟨pp⟩⟩ := p
  obtain ⟨⟨qa⟩, ⟨qp⟩⟩ := q
  have := pa.toNat_lt
  have := pp.toNat_lt
  have := qa.toNat_lt
  have := qp.toNat_lt
  simp only [permissionLevelKey, PermissionLevel.mk.injEq, Name.mk.injEq, ← UInt64.toNat_inj]
  omega

/-- Between the bounds of all weights of `a` lie the entries of `a`. -/
theorem inRange_level (a : PermissionLevel) (e : NameEntry) :
    (decide (weightedKey permissionLevelKey (Weighted.lowerBoundFor a) ≤ nameKey e) &&
      decide (nameKey e ≤ weightedKey permissionLevelKey (Weighted.upperBoundFor a))) =
      (e.1.value == a) := by
  have hw := e.1.weight.toNat_lt
  have hkey := @permissionLevelKey_inj e.1.value a
  rw [Bool.eq_iff_iff]
  simp only [nameKey, weightedKey, Weighted.lowerBoundFor, Weighted.upperBoundFor,
    Bool.and_eq_true, decide_eq_true_eq, beq_iff_eq, Prod.Lex.toLex_le_toLex, ← hkey]
  simp only [UInt16.toNat_zero, UInt16.reduceToNat]
  omega

/-- Between the lower bounds of an actor with the empty permission and of the next name lie the
entries of the actor, when the next name does not wrap. -/
theorem inRange_actor {a : PermissionLevel} (hempty : a.permission.empty = true)
    (hmax : a.actor.value ≠ 18446744073709551615) (e : NameEntry) :
    (decide (weightedKey permissionLevelKey (Weighted.lowerBoundFor ⟨a.actor, a.permission⟩) ≤
        nameKey e) &&
      decide (nameKey e <
        weightedKey permissionLevelKey (Weighted.lowerBoundFor ⟨⟨a.actor.value + 1⟩, a.permission⟩))) =
      (e.1.value.actor == a.actor) := by
  have hperm : a.permission.value.toNat = 0 := by
    simp only [Name.empty, beq_iff_eq] at hempty
    rw [hempty]
    rfl
  have hnext := UInt64.toNat_add_one_of_ne_max hmax
  have hw := e.1.weight.toNat_lt
  have := e.1.value.permission.value.toNat_lt
  rw [Bool.eq_iff_iff]
  simp only [nameKey, weightedKey, Weighted.lowerBoundFor, permissionLevelKey, Bool.and_eq_true,
    decide_eq_true_eq, beq_iff_eq, Prod.Lex.toLex_le_toLex, Prod.Lex.toLex_lt_toLex, hperm, hnext,
    name_eq_iff_toNat]
  simp only [UInt16.toNat_zero]
  omega

/-- Between the bounds of all weights of `k` lie the entries of `k`. -/
theorem inRange_key (k : K) (e : KeyEntry K) :
    (decide (weightedKey id (Weighted.lowerBoundFor k) ≤ keyKey e) &&
      decide (keyKey e ≤ weightedKey id (Weighted.upperBoundFor k))) = (e.1.value == k) := by
  have hw := e.1.weight.toNat_lt
  rw [Bool.eq_iff_iff]
  simp only [keyKey, weightedKey, Weighted.lowerBoundFor, Weighted.upperBoundFor, id,
    Bool.and_eq_true, decide_eq_true_eq, beq_iff_eq, Prod.Lex.toLex_le_toLex]
  simp only [UInt16.toNat_zero, UInt16.reduceToNat]
  constructor
  · rintro ⟨h₁ | h₁, h₂ | h₂⟩
    · exact absurd (lt_trans h₁ h₂) (lt_irrefl k)
    · exact h₂.1
    · exact h₁.1.symm
    · exact h₂.1
  · intro h
    exact ⟨Or.inr ⟨h.symm, Nat.zero_le _⟩, Or.inr ⟨h, by omega⟩⟩

/-! ## The database that `build_account_query_map` builds -/

/-- The entries of a permission, as both bimaps hold them: an authorizer's weighted value and a
reference to the permission. -/
def entriesOf {T S : Type} (w : S → Weighted T) (po : PermissionObject K) (src : List S) :
    List (Weighted T × PermissionLevel) :=
  src.map fun x => (w x, ⟨po.owner, po.name⟩)

/-- One step of the build on a permission that clashes with none before it: its `permission_info`
is new, and its entries go into the bimaps, which stay sorted. -/
theorem buildStep_spec {db : AccountQueryDbImpl K} {pre : List (PermissionObject K)}
    {po : PermissionObject K} (hnew : ∀ r ∈ pre, ¬ PermissionObject.clash r po)
    (hindex : db.permission_info_index = pre.map permissionInfoOf)
    (hname : Sorted nameKey db.name_bimap) (hkey : Sorted keyKey db.key_bimap) :
    (buildStep db po).permission_info_index = (pre ++ [po]).map permissionInfoOf ∧
      Sorted nameKey (buildStep db po).name_bimap ∧
      (buildStep db po).name_bimap.Perm
        (db.name_bimap ++ entriesOf (fun a => ⟨a.permission, a.weight⟩) po po.auth.accounts) ∧
      Sorted keyKey (buildStep db po).key_bimap ∧
      (buildStep db po).key_bimap.Perm
        (db.key_bimap ++ entriesOf (fun k => ⟨k.key, k.weight⟩) po po.auth.keys) := by
  have hfresh : db.permission_info_index.any
      (fun p => p.owner == (permissionInfoOf po).owner && p.name == (permissionInfoOf po).name) =
        false := by
    rw [hindex, List.any_eq_false]
    intro p hp hsame
    obtain ⟨r, hr, rfl⟩ := List.mem_map.1 hp
    simp only [permissionInfoOf, Bool.and_eq_true, beq_iff_eq] at hsame
    exact hnew r hr (Or.inr hsame)
  obtain ⟨hns, hnp⟩ := foldl_insert (nameEntries (permissionInfoOf po) po) hname
  obtain ⟨hks, hkp⟩ := foldl_insert (keyEntries (permissionInfoOf po) po) hkey
  simp only [buildStep, emplace, hfresh, Bool.false_eq_true, if_false, addToBimaps]
  exact ⟨by rw [hindex, List.map_append, List.map_singleton], hns, hnp, hks, hkp⟩

/-- The build over the permissions `rs`, after those of `pre`: the index holds the
`permission_info`s of all of them, and the bimaps gain the entries of `rs`, sorted. By induction
on `rs`, each step by `buildStep_spec`. -/
theorem foldl_buildStep : ∀ (rs pre : List (PermissionObject K)) (db : AccountQueryDbImpl K),
    (pre ++ rs).Pairwise (fun a b => ¬ PermissionObject.clash a b) →
    db.permission_info_index = pre.map permissionInfoOf →
    Sorted nameKey db.name_bimap → Sorted keyKey db.key_bimap →
    (rs.foldl buildStep db).permission_info_index = (pre ++ rs).map permissionInfoOf ∧
      Sorted nameKey (rs.foldl buildStep db).name_bimap ∧
      (rs.foldl buildStep db).name_bimap.Perm (db.name_bimap ++
        rs.flatMap fun po => entriesOf (fun a => ⟨a.permission, a.weight⟩) po po.auth.accounts) ∧
      Sorted keyKey (rs.foldl buildStep db).key_bimap ∧
      (rs.foldl buildStep db).key_bimap.Perm (db.key_bimap ++
        rs.flatMap fun po => entriesOf (fun k => ⟨k.key, k.weight⟩) po po.auth.keys)
  | [], pre, db, _, hindex, hname, hkey => by simpa using ⟨hindex, hname, hkey⟩
  | po :: rs, pre, db, hnc, hindex, hname, hkey => by
    -- `po` clashes with no permission before it
    have hnew : ∀ r ∈ pre, ¬ PermissionObject.clash r po := fun r hr =>
      (List.pairwise_append.1 hnc).2.2 r hr po List.mem_cons_self
    obtain ⟨hidx₁, hns₁, hnp₁, hks₁, hkp₁⟩ := buildStep_spec hnew hindex hname hkey
    have hnc' : ((pre ++ [po]) ++ rs).Pairwise (fun a b => ¬ PermissionObject.clash a b) := by
      rw [List.append_assoc, List.singleton_append]
      exact hnc
    obtain ⟨hidx, hns, hnp, hks, hkp⟩ :=
      foldl_buildStep rs (pre ++ [po]) (buildStep db po) hnc' hidx₁ hns₁ hks₁
    rw [List.foldl_cons, List.flatMap_cons, List.flatMap_cons, ← List.append_assoc,
      ← List.append_assoc]
    refine ⟨?_, hns, hnp.trans (hnp₁.append_right _), hks, hkp.trans (hkp₁.append_right _)⟩
    rw [hidx, List.append_assoc, List.singleton_append]

/-- `build_account_query_map` keeps a `permission_info` for each permission, in order, and bimaps
that hold, sorted, the entries of all authorities. -/
theorem buildAccountQueryMap_spec (t : IndexedTable (PermissionObject K) PermissionObject.clash) :
    (buildAccountQueryMap t).permission_info_index = t.rows.map permissionInfoOf ∧
      Sorted nameKey (buildAccountQueryMap t).name_bimap ∧
      (buildAccountQueryMap t).name_bimap.Perm
        (t.rows.flatMap fun po => entriesOf (fun a => ⟨a.permission, a.weight⟩) po po.auth.accounts) ∧
      Sorted keyKey (buildAccountQueryMap t).key_bimap ∧
      (buildAccountQueryMap t).key_bimap.Perm
        (t.rows.flatMap fun po => entriesOf (fun k => ⟨k.key, k.weight⟩) po po.auth.keys) := by
  have h := foldl_buildStep t.rows [] ⟨[], [], []⟩ (by simpa using t.no_clash) rfl
    List.Pairwise.nil List.Pairwise.nil
  simpa [buildAccountQueryMap] using h

/-- Every entry of the built bimaps refers to a `permission_info` that is there: that of the
permission it came from, found by its owner and name, which no other permission shares. -/
theorem getPermissionInfo_build {t : IndexedTable (PermissionObject K) PermissionObject.clash}
    {po : PermissionObject K} (hpo : po ∈ t.rows) :
    (buildAccountQueryMap t).getPermissionInfo ⟨po.owner, po.name⟩ = some (permissionInfoOf po) := by
  have hfind : t.find? ((fun p => p.owner == po.owner && p.name == po.name) ∘ permissionInfoOf) =
      some po := by
    apply IndexedTable.find?_of_mem _ hpo (by simp [permissionInfoOf])
    intro a b ha hb
    simp only [Function.comp, permissionInfoOf, Bool.and_eq_true, beq_iff_eq] at ha hb
    exact Or.inr ⟨ha.1.trans hb.1.symm, ha.2.trans hb.2.symm⟩
  unfold getPermissionInfo
  rw [(buildAccountQueryMap_spec t).1, List.find?_map]
  exact congrArg (Option.map permissionInfoOf) hfind

/-- The `permission_info` that an entry's reference finds, or a blank one. -/
def infoAt (db : AccountQueryDbImpl K) (ref : PermissionLevel) : PermissionInfo :=
  (db.getPermissionInfo ref).getD ⟨ref.actor, ref.permission, 0⟩

/-- A `mapM` in `Option` whose every call succeeds maps. -/
theorem mapM_eq_some_map {α β : Type} {f : α → Option β} (g : α → β) :
    ∀ l : List α, (∀ x ∈ l, f x = some (g x)) → l.mapM f = some (l.map g)
  | [], _ => rfl
  | x :: l, h => by
    rw [List.mapM_cons, h x List.mem_cons_self,
      mapM_eq_some_map g l fun y hy => h y (List.mem_cons_of_mem _ hy)]
    rfl

/-- A `mapM` in `Option` whose calls give lists, each a permutation of a list `g x`, gives lists
whose concatenation is a permutation of that of the `g x`. -/
theorem mapM_flatten_perm {α β : Type} {f : α → Option (List β)} {g : α → List β} :
    ∀ l : List α, (∀ x ∈ l, ∃ L, f x = some L ∧ L.Perm (g x)) →
      ∃ Ls, l.mapM f = some Ls ∧ Ls.flatten.Perm (l.flatMap g)
  | [], _ => ⟨[], rfl, by simp⟩
  | x :: l, h => by
    obtain ⟨L, hL, hperm⟩ := h x List.mem_cons_self
    obtain ⟨Ls, hLs, hperms⟩ := mapM_flatten_perm l fun y hy => h y (List.mem_cons_of_mem _ hy)
    refine ⟨L :: Ls, ?_, ?_⟩
    · rw [List.mapM_cons, hL, hLs]
      rfl
    · rw [List.flatten_cons, List.flatMap_cons]
      exact hperm.append hperms

omit [LinearOrder K] in
/-- Over entries whose references all find their `permission_info`, `push_results` gives one
result per entry. -/
theorem pushResults_eq {T : Type} (db : AccountQueryDbImpl K) (au : T → Option PermissionLevel)
    (ky : T → Option K) {entries : List (Weighted T × PermissionLevel)}
    (h : ∀ e ∈ entries, (db.getPermissionInfo e.2).isSome) :
    pushResults db au ky entries = some (entries.map fun e =>
      ⟨(infoAt db e.2).owner, (infoAt db e.2).name, au e.1.value, ky e.1.value, e.1.weight,
        (infoAt db e.2).threshold⟩) := by
  unfold pushResults
  apply mapM_eq_some_map
  intro e he
  obtain ⟨pi, hpi⟩ := Option.isSome_iff_exists.1 (h e he)
  simp [infoAt, hpi]

/-- The results of a filtered bimap of the build, one per entry, are the results that the
permissions' authorities give for the entries that the filter keeps. -/
theorem results_perm {T S : Type} (t : IndexedTable (PermissionObject K) PermissionObject.clash)
    (w : S → Weighted T) (src : PermissionObject K → List S) {B : List (Weighted T × PermissionLevel)}
    (hB : B.Perm (t.rows.flatMap fun po => entriesOf w po (src po))) (p : Weighted T → Bool)
    (au : T → Option PermissionLevel) (ky : T → Option K) :
    ((B.filter fun e => p e.1).map fun e =>
      (⟨(infoAt (buildAccountQueryMap t) e.2).owner, (infoAt (buildAccountQueryMap t) e.2).name,
        au e.1.value, ky e.1.value, e.1.weight, (infoAt (buildAccountQueryMap t) e.2).threshold⟩ :
          AccountResult K)).Perm
      (t.rows.flatMap fun po => ((src po).filter fun x => p (w x)).map fun x =>
        ⟨po.owner, po.name, au (w x).value, ky (w x).value, (w x).weight, po.auth.threshold⟩) := by
  refine ((hB.filter _).map _).trans (List.Perm.of_eq ?_)
  rw [List.filter_flatMap, List.map_flatMap]
  apply List.flatMap_congr
  intro po hpo
  -- the entries of `po` refer to its own `permission_info`
  have hinfo : infoAt (buildAccountQueryMap t) ⟨po.owner, po.name⟩ = permissionInfoOf po := by
    rw [infoAt, getPermissionInfo_build hpo]
    rfl
  rw [entriesOf, List.filter_map, List.map_map]
  apply List.map_congr_left
  intro x _
  simp only [Function.comp, hinfo, permissionInfoOf]

/-- The references of the built bimaps all find their `permission_info`. -/
theorem isSome_getPermissionInfo_build {T S : Type}
    {t : IndexedTable (PermissionObject K) PermissionObject.clash} (w : S → Weighted T)
    (src : PermissionObject K → List S) {B : List (Weighted T × PermissionLevel)}
    (hB : B.Perm (t.rows.flatMap fun po => entriesOf w po (src po))) (p : Weighted T × PermissionLevel → Bool) :
    ∀ e ∈ B.filter p, ((buildAccountQueryMap t).getPermissionInfo e.2).isSome := by
  intro e he
  obtain ⟨po, hpo, he⟩ := List.mem_flatMap.1 (hB.mem_iff.1 (List.mem_of_mem_filter he))
  obtain ⟨x, -, rfl⟩ := List.mem_map.1 he
  rw [getPermissionInfo_build hpo]
  rfl

/-! ## Queries after the build -/

omit [LinearOrder K] in
/-- Over a sorted bimap, the range that a query reads for `a` holds the entries it asks for,
unless `a` is a wildcard for the largest name. -/
theorem accountRange_eq {db : AccountQueryDbImpl K} (hs : Sorted nameKey db.name_bimap)
    {a : PermissionLevel} (hwild : a.permission.empty = true → a.actor.value ≠ 18446744073709551615) :
    db.accountRange a = some (db.name_bimap.filter fun e => authorizes a e.1.value) := by
  unfold accountRange
  by_cases hempty : a.permission.empty = true
  · -- the wildcard: up to the lower bound of the next name, which does not wrap
    have hmax := hwild hempty
    have hle : weightedKey permissionLevelKey (Weighted.lowerBoundFor ⟨a.actor, a.permission⟩) ≤
        weightedKey permissionLevelKey
          (Weighted.lowerBoundFor ⟨⟨a.actor.value + 1⟩, a.permission⟩) := by
      have hnext := UInt64.toNat_add_one_of_ne_max hmax
      simp only [weightedKey, Weighted.lowerBoundFor, permissionLevelKey, Prod.Lex.toLex_le_toLex,
        hnext]
      omega
    simp only [hempty, if_true]
    rw [range_lowerBound_lowerBound hs hle]
    congr 1
    apply List.filter_congr
    intro e _
    rw [inRange_actor hempty hmax, authorizes, if_pos hempty]
  · -- one level: all its weights
    have hle : weightedKey permissionLevelKey (Weighted.lowerBoundFor a) ≤
        weightedKey permissionLevelKey (Weighted.upperBoundFor a) := by
      simp [weightedKey, Weighted.lowerBoundFor, Weighted.upperBoundFor, Prod.Lex.toLex_le_toLex]
    simp only [hempty, Bool.false_eq_true, if_false]
    rw [range_lowerBound_upperBound hs hle]
    congr 1
    apply List.filter_congr
    intro e _
    rw [inRange_level, authorizes, if_neg hempty]

/-- Over a sorted bimap, the range that a query reads for a key holds the entries of the key. -/
theorem keyRange_eq {db : AccountQueryDbImpl K} (hs : Sorted keyKey db.key_bimap) (k : K) :
    db.keyRange k = some (db.key_bimap.filter fun e => e.1.value == k) := by
  have hle : weightedKey id (Weighted.lowerBoundFor k) ≤ weightedKey id (Weighted.upperBoundFor k) := by
    simp [weightedKey, Weighted.lowerBoundFor, Weighted.upperBoundFor, Prod.Lex.toLex_le_toLex]
  rw [keyRange, range_lowerBound_upperBound hs hle]
  congr 1
  apply List.filter_congr
  intro e _
  exact inRange_key k e

/-- After the build, the results of a level that is not a wildcard for the largest name are, up to
order, those that the authorities give. -/
theorem accountResults_build (t : IndexedTable (PermissionObject K) PermissionObject.clash)
    {a : PermissionLevel} (hwild : a.permission.empty = true → a.actor.value ≠ 18446744073709551615) :
    ∃ L, ((buildAccountQueryMap t).accountRange a >>= fun r =>
        (buildAccountQueryMap t).pushResults some (fun _ => none) r) = some L ∧
      L.Perm (expectedAccountResults t.rows a) := by
  obtain ⟨-, hns, hnp, -, -⟩ := buildAccountQueryMap_spec t
  refine ⟨_, ?_, results_perm t _ _ hnp (fun w => authorizes a w.value) some (fun _ => none)⟩
  rw [accountRange_eq hns hwild, Option.bind_eq_bind, Option.bind_some]
  exact pushResults_eq _ _ _ (isSome_getPermissionInfo_build _ _ hnp _)

/-- After the build, the results of a key are, up to order, those that the authorities give. -/
theorem keyResults_build (t : IndexedTable (PermissionObject K) PermissionObject.clash) (k : K) :
    ∃ L, ((buildAccountQueryMap t).keyRange k >>= fun r =>
        (buildAccountQueryMap t).pushResults (fun _ => none) some r) = some L ∧
      L.Perm (expectedKeyResults t.rows k) := by
  obtain ⟨-, -, -, hks, hkp⟩ := buildAccountQueryMap_spec t
  refine ⟨_, ?_, results_perm t _ _ hkp (fun w => w.value == k) (fun _ => none) some⟩
  rw [keyRange_eq hks k, Option.bind_eq_bind, Option.bind_some]
  exact pushResults_eq _ _ _ (isSome_getPermissionInfo_build _ _ hkp _)

/-- Right after `build_account_query_map`, a query whose wildcards are not for the largest name
gives, up to order, one result per deduplicated authorizer and per entry of an authority that it
asks for, with the entry's weight and the permission's threshold. -/
theorem getAccountsByAuthorizers_build (t : IndexedTable (PermissionObject K) PermissionObject.clash)
    (accounts : List PermissionLevel) (keys : List K)
    (hwild : ∀ a ∈ accounts, a.permission.empty = true → a.actor.value ≠ 18446744073709551615) :
    ∃ result, (buildAccountQueryMap t).getAccountsByAuthorizers accounts keys = some result ∧
      result.Perm (accounts.dedup.flatMap (expectedAccountResults t.rows) ++
        keys.dedup.flatMap (expectedKeyResults t.rows)) := by
  -- `std::set` sorts and deduplicates
  have hset : (accountSet accounts).Perm accounts.dedup := (List.mergeSort_perm accounts _).dedup
  have hkset : (keySet keys).Perm keys.dedup := (List.mergeSort_perm keys _).dedup
  obtain ⟨As, hAs, hAperm⟩ := mapM_flatten_perm (g := expectedAccountResults t.rows)
    (f := fun a => (buildAccountQueryMap t).accountRange a >>= fun r =>
      (buildAccountQueryMap t).pushResults some (fun _ => none) r)
    (accountSet accounts) fun a ha => accountResults_build t
      (hwild a (List.mem_mergeSort.1 (List.mem_dedup.1 ha)))
  obtain ⟨Ks, hKs, hKperm⟩ := mapM_flatten_perm (g := expectedKeyResults t.rows)
    (f := fun k => (buildAccountQueryMap t).keyRange k >>= fun r =>
      (buildAccountQueryMap t).pushResults (fun _ => none) some r)
    (keySet keys) fun k _ => keyResults_build t k
  refine ⟨As.flatten ++ Ks.flatten, ?_, ?_⟩
  · simp only [getAccountsByAuthorizers, hAs, hKs]
    rfl
  · exact (hAperm.trans (hset.flatMap_right _)).append (hKperm.trans (hkset.flatMap_right _))

end AccountQueryDbImpl

open AccountQueryDbImpl

/-- At genesis, where the permissions of `eosio.prods` list `eosio@active`, no authority lists the
largest name, so the wildcard query for it should find nothing. Its range starts after every
entry, at the end of the bimap, and ends at the first entry: the loop steps past the end. -/
theorem get_accounts_largest_actor_past_end :
    ∃ s₀ : AuthState Nat, initializeDatabase genesisConfig genesisAuthority = .ok s₀ ∧
      expectedAccountResults s₀.permissions.rows ⟨⟨18446744073709551615⟩, ⟨0⟩⟩ = [] ∧
      (buildAccountQueryMap s₀.permissions).getAccountsByAuthorizers
        [⟨⟨18446744073709551615⟩, ⟨0⟩⟩] [] = none :=
  ⟨_, rfl, by decide +kernel, by decide +kernel⟩

end InfraBlockchain.ChainApis
