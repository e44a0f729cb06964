import Mathlib
import InfraBlockchain.Auth.Checker

/-!
# Soundness of the authority checker

A permission level has a derivation from the provided factors when it, or its actor with the empty
permission name, is a provided permission, or when its authority has entries that reach the
threshold: keys among the provided keys, waits no longer than the provided delay, and permission
levels that have derivations of their own. `Derivable` is that finite derivation, and the checker
is sound for it: a `true` answer always has one, for every permission table, cyclic or not.

The argument is an invariant of the permission cache, `CacheSound`: every level cached as
`permission_satisfied` is derivable. The initial cache of provided permissions has it, marking a
level `being_evaluated` or `permission_unsatisfied` keeps it, and a level is marked
`permission_satisfied` only after its authority is. A level found through its actor's entry rests
on `get_permission`, which raises `invalid_permission` for an empty permission name, so that no
such level is ever evaluated. The loop over an
authority's entries keeps the invariant and counts only entries that count (`tally_sound`); by
induction on the levels left, so does every check below (`satisfiedBelow_sound`).

The marks of used keys are given back by every failed check of an authority, so a permission
that is not satisfied leaves them as they were (`satisfiedWith_used_keys`).
-/

namespace InfraBlockchain.Auth

variable {K : Type}

/-! ## Derivations -/

/-- A derivation of a permission level from the checker's provided factors. -/
inductive Derivable (c : AuthorityChecker K) : PermissionLevel → Prop
  /-- The level, or its whole actor, is a provided permission. -/
  | provided {p : PermissionLevel} :
      p ∈ c.provided_permissions ∨ ⟨p.actor, emptyName⟩ ∈ c.provided_permissions →
      Derivable c p
  /-- Entries of the level's authority that count reach its threshold. -/
  | authority {p : PermissionLevel} {auth : Authority K}
      (accounts : List PermissionLevelWeight) (keys : List (KeyWeight K))
      (waits : List WaitWeight) :
      c.permission_to_authority p = .ok auth →
      accounts.Subperm auth.accounts → keys.Subperm auth.keys → waits.Subperm auth.waits →
      (∀ a ∈ accounts, Derivable c a.permission) →
      (∀ k ∈ keys, k.key ∈ c.provided_keys) →
      (∀ w ∈ waits, (w.wait_sec.toNat : Int) * 1000000 ≤ c.provided_delay) →
      auth.threshold.toNat ≤ (accounts.map (·.weight.toNat)).sum +
        (keys.map (·.weight.toNat)).sum + (waits.map (·.weight.toNat)).sum →
      Derivable c p

/-- What makes an entry of an authority count. -/
def EntryCounts (c : AuthorityChecker K) : MetaPermission K → Prop
  | .account p => Derivable c p.permission
  | .key k => k.key ∈ c.provided_keys
  | .wait w => (w.wait_sec.toNat : Int) * 1000000 ≤ c.provided_delay

/-- The total weight of some entries, in integers. -/
def weightSum (l : List (MetaPermission K)) : Nat :=
  (l.map fun e => e.weight.toNat).sum

/-- Some entries of the authority, in the checker's order, count and reach its threshold. -/
def Tallied (c : AuthorityChecker K) (auth : Authority K) : Prop :=
  ∃ chosen, chosen.Sublist (metaPermissions auth) ∧ (∀ e ∈ chosen, EntryCounts c e) ∧
    auth.threshold.toNat ≤ weightSum chosen

/-- `get_permission` gives no authority to a level with the empty permission name. -/
def NoEmptyAuthority (c : AuthorityChecker K) : Prop :=
  ∀ actor auth, c.permission_to_authority ⟨actor, emptyName⟩ ≠ .ok auth

/-! ## Entries of each kind -/

/-- The account entry, if it is one. -/
def MetaPermission.account? : MetaPermission K → Option PermissionLevelWeight
  | .account p => some p
  | .key _ => none
  | .wait _ => none

/-- The key entry, if it is one. -/
def MetaPermission.key? : MetaPermission K → Option (KeyWeight K)
  | .account _ => none
  | .key k => some k
  | .wait _ => none

/-- The wait entry, if it is one. -/
def MetaPermission.wait? : MetaPermission K → Option WaitWeight
  | .account _ => none
  | .key _ => none
  | .wait w => some w

@[simp] theorem filterMap_account?_entries (auth : Authority K) :
    (metaPermissionEntries auth).filterMap MetaPermission.account? = auth.accounts := by
  simp [metaPermissionEntries, List.filterMap_append, List.filterMap_map, Function.comp_def,
    MetaPermission.account?]

@[simp] theorem filterMap_key?_entries (auth : Authority K) :
    (metaPermissionEntries auth).filterMap MetaPermission.key? = auth.keys := by
  simp [metaPermissionEntries, List.filterMap_append, List.filterMap_map, Function.comp_def,
    MetaPermission.key?]

@[simp] theorem filterMap_wait?_entries (auth : Authority K) :
    (metaPermissionEntries auth).filterMap MetaPermission.wait? = auth.waits := by
  simp [metaPermissionEntries, List.filterMap_append, List.filterMap_map, Function.comp_def,
    MetaPermission.wait?]

/-- The weight of some entries is the weight of their accounts, keys and waits. -/
theorem weightSum_eq (l : List (MetaPermission K)) :
    weightSum l = ((l.filterMap MetaPermission.account?).map (·.weight.toNat)).sum +
      ((l.filterMap MetaPermission.key?).map (·.weight.toNat)).sum +
      ((l.filterMap MetaPermission.wait?).map (·.weight.toNat)).sum := by
  induction l with
  | nil => rfl
  | cons e l ih =>
    have hcons : weightSum (e :: l) = e.weight.toNat + weightSum l := by simp [weightSum]
    rw [hcons, ih]
    cases e <;>
      simp [List.filterMap_cons, MetaPermission.account?, MetaPermission.key?,
        MetaPermission.wait?, MetaPermission.weight] <;> omega

/-- Entries of one kind chosen in the checker's order are some of the authority's entries of that
kind. -/
theorem subperm_filterMap {β : Type} {auth : Authority K} {chosen : List (MetaPermission K)}
    (hchosen : chosen.Sublist (metaPermissions auth)) (f : MetaPermission K → Option β) :
    (chosen.filterMap f).Subperm ((metaPermissionEntries auth).filterMap f) :=
  ((hchosen.filterMap f).subperm).trans
    ((List.perm_insertionSort _ (metaPermissionEntries auth)).filterMap f).subperm

/-- Entries that the checker tallies up to the threshold of a level's authority derive it. -/
theorem Derivable.of_tallied {c : AuthorityChecker K} {p : PermissionLevel} {auth : Authority K}
    (hauth : c.permission_to_authority p = .ok auth) (h : Tallied c auth) : Derivable c p := by
  obtain ⟨chosen, hchosen, hcount, hthr⟩ := h
  refine .authority (chosen.filterMap MetaPermission.account?)
    (chosen.filterMap MetaPermission.key?) (chosen.filterMap MetaPermission.wait?) hauth
    (by simpa using subperm_filterMap hchosen MetaPermission.account?)
    (by simpa using subperm_filterMap hchosen MetaPermission.key?)
    (by simpa using subperm_filterMap hchosen MetaPermission.wait?) ?_ ?_ ?_ ?_
  · intro a ha
    obtain ⟨e, he, hea⟩ := List.mem_filterMap.1 ha
    cases e <;> simp only [MetaPermission.account?, reduceCtorEq, Option.some.injEq] at hea
    subst hea
    exact hcount _ he
  · intro k hk
    obtain ⟨e, he, hek⟩ := List.mem_filterMap.1 hk
    cases e <;> simp only [MetaPermission.key?, reduceCtorEq, Option.some.injEq] at hek
    subst hek
    exact hcount _ he
  · intro w hw
    obtain ⟨e, he, hew⟩ := List.mem_filterMap.1 hw
    cases e <;> simp only [MetaPermission.wait?, reduceCtorEq, Option.some.injEq] at hew
    subst hew
    exact hcount _ he
  · rw [← weightSum_eq]
    exact hthr

/-- With no authority for empty permission names, a whole actor is derivable only when it is
provided, and then so is each of its levels. -/
theorem Derivable.of_actor {c : AuthorityChecker K} (hc : NoEmptyAuthority c)
    {p : PermissionLevel} (h : Derivable c ⟨p.actor, emptyName⟩) : Derivable c p := by
  cases h with
  | provided hp => exact .provided (.inr (hp.elim id id))
  | authority _ _ _ hauth => exact absurd hauth (hc p.actor _)

/-- Derivations are monotone in the evidence: over the same authorities, more provided keys, more
provided permissions and a longer delay keep every derivation, as every entry that counts keeps
counting. By induction on the derivation. The checker's answer is not monotone so: extra evidence
can end an authority's loop early, before a level is cached that a deeper check needs. -/
theorem Derivable.mono {c d : AuthorityChecker K}
    (hauth : d.permission_to_authority = c.permission_to_authority)
    (hkeys : ∀ k ∈ c.provided_keys, k ∈ d.provided_keys)
    (hperms : ∀ l ∈ c.provided_permissions, l ∈ d.provided_permissions)
    (hdelay : c.provided_delay ≤ d.provided_delay) {p : PermissionLevel} (h : Derivable c p) :
    Derivable d p := by
  induction h with
  | provided hp => exact .provided (hp.imp (hperms _) (hperms _))
  | authority accounts keys waits hauth' hacc hk hw _ hkey hwait hthr ih =>
    exact .authority accounts keys waits (hauth ▸ hauth') hacc hk hw ih
      (fun k hk' => hkeys _ (hkey k hk')) (fun w hw' => (hwait w hw').trans hdelay) hthr


/-! ## The permission cache -/

/-- Every level cached as satisfied is derivable. -/
def CacheSound (c : AuthorityChecker K) (cache : PermissionLevel → Option PermissionCacheStatus) :
    Prop :=
  ∀ l, cache l = some .permission_satisfied → Derivable c l

/-- The cache of the provided permissions is sound. -/
theorem initializePermissionCache_sound (c : AuthorityChecker K) :
    CacheSound c (initializePermissionCache c) := by
  intro l hl
  have hmem : l ∈ c.provided_permissions := by
    by_contra hn
    simp [initializePermissionCache, hn] at hl
  exact .provided (.inl hmem)

/-- Caching a status keeps the cache sound when a satisfied status is derivable. -/
theorem setStatus_sound {c : AuthorityChecker K} {cache : PermissionLevel → Option PermissionCacheStatus}
    (hcache : CacheSound c cache) {level : PermissionLevel} {status : PermissionCacheStatus}
    (hstatus : status = .permission_satisfied → Derivable c level) :
    CacheSound c (setStatus cache level status) := by
  intro l hl
  by_cases hlev : l = level
  · subst hlev
    simp only [setStatus, if_pos, Option.some.injEq] at hl
    exact hstatus hl
  · simp only [setStatus, if_neg hlev] at hl
    exact hcache l hl

/-- A satisfied status found in a sound cache, by the level or by its actor, is derivable. -/
theorem permissionStatusInCache_sound {c : AuthorityChecker K} (hc : NoEmptyAuthority c)
    {cache : PermissionLevel → Option PermissionCacheStatus} (hcache : CacheSound c cache)
    {l : PermissionLevel} (h : permissionStatusInCache cache l = some .permission_satisfied) :
    Derivable c l := by
  unfold permissionStatusInCache at h
  cases hl : cache l with
  | some status =>
    rw [hl] at h
    exact hcache l (hl.trans h)
  | none =>
    rw [hl] at h
    exact Derivable.of_actor hc (hcache _ h)

/-! ## One entry -/

section Visits

variable {c : AuthorityChecker K}

/-- What a visit of a permission level can do: nothing, count a level cached as satisfied, or check
the authority of an uncached level one level down and settle the level by the answer. -/
theorem visitPermission_ok {below : CheckBelow K} {pw : PermissionLevelWeight}
    {total total' : UInt32} {st st' : CheckerState}
    (h : visitPermission c below pw total st = .ok (total', st')) :
    (total' = total ∧ st' = st) ∨
    (permissionStatusInCache st.cached_permissions pw.permission = some .permission_satisfied ∧
      total' = total + pw.weight.toUInt32 ∧ st' = st) ∨
    ∃ check auth r st₂, below = some check ∧
      c.permission_to_authority pw.permission = .ok auth ∧
      check auth { st with
        cached_permissions := setStatus st.cached_permissions pw.permission .being_evaluated } =
        .ok (r, st₂) ∧
      total' = (if r then total + pw.weight.toUInt32 else total) ∧
      st' = settle st₂ pw.permission r := by
  unfold visitPermission at h
  cases hstatus : permissionStatusInCache st.cached_permissions pw.permission with
  | some status =>
    cases status <;> simp only [hstatus, Except.ok.injEq, Prod.mk.injEq] at h <;>
      obtain ⟨rfl, rfl⟩ := h
    · exact .inl ⟨rfl, rfl⟩
    · exact .inl ⟨rfl, rfl⟩
    · exact .inr (.inl ⟨rfl, rfl, rfl⟩)
  | none =>
    cases below with
    | none =>
      simp only [hstatus, Except.ok.injEq, Prod.mk.injEq] at h
      obtain ⟨rfl, rfl⟩ := h
      exact .inl ⟨rfl, rfl⟩
    | some check =>
      cases hauth : c.permission_to_authority pw.permission with
      | error e =>
        -- only a level that does not exist is skipped
        by_cases hkind : e.kind = .permission_query_exception
        · simp only [hstatus, hauth, hkind, if_true, Except.ok.injEq, Prod.mk.injEq] at h
          obtain ⟨rfl, rfl⟩ := h
          exact .inl ⟨rfl, rfl⟩
        · simp [hstatus, hauth, hkind] at h
      | ok auth =>
        simp only [hstatus, hauth, bind_eq_ok] at h
        obtain ⟨⟨r, st₂⟩, hcheck, hres⟩ := h
        simp only [pure, Except.pure, Except.ok.injEq, Prod.mk.injEq] at hres
        obtain ⟨rfl, rfl⟩ := hres
        exact .inr (.inr ⟨check, auth, r, st₂, rfl, rfl, hcheck, rfl, rfl⟩)

/-- What a visit does to the total: nothing, or it adds the weight of an entry that counts. -/
def Counted (c : AuthorityChecker K) (e : MetaPermission K) (total total' : UInt32) : Prop :=
  total' = total ∨ (EntryCounts c e ∧ total' = total + e.weight.toUInt32)

/-- A check one level down keeps the cache sound, and its `true` is tallied. -/
def BelowSound (c : AuthorityChecker K) : CheckBelow K → Prop
  | none => True
  | some check => ∀ auth st r st', CacheSound c st.cached_permissions →
      check auth st = .ok (r, st') → CacheSound c st'.cached_permissions ∧ (r = true → Tallied c auth)

/-- Settling a level keeps the cache sound when a satisfied level is derivable. -/
theorem settle_sound {cache : CheckerState} (hcache : CacheSound c cache.cached_permissions)
    {level : PermissionLevel} {r : Bool} (hr : r = true → Derivable c level) :
    CacheSound c (settle cache level r).cached_permissions := by
  apply setStatus_sound hcache
  intro hsat
  cases r with
  | true => exact hr rfl
  | false => cases hsat

/-- The visit of a permission level keeps the cache sound and counts the level only when it is
derivable. -/
theorem visitPermission_sound (hc : NoEmptyAuthority c) {below : CheckBelow K}
    (hbelow : BelowSound c below) {pw : PermissionLevelWeight} {total total' : UInt32}
    {st st' : CheckerState} (hst : CacheSound c st.cached_permissions)
    (h : visitPermission c below pw total st = .ok (total', st')) :
    CacheSound c st'.cached_permissions ∧ Counted c (.account pw) total total' := by
  rcases visitPermission_ok h with ⟨rfl, rfl⟩ | ⟨hstatus, rfl, rfl⟩ |
    ⟨check, auth, r, st₂, rfl, hauth, hcheck, rfl, rfl⟩
  · exact ⟨hst, .inl rfl⟩
  · exact ⟨hst, .inr ⟨permissionStatusInCache_sound hc hst hstatus, rfl⟩⟩
  · -- the level is `being_evaluated` while its authority is checked
    have h₁ : CacheSound c (setStatus st.cached_permissions pw.permission .being_evaluated) :=
      setStatus_sound hst (fun h => by cases h)
    obtain ⟨h₂, htrue⟩ := hbelow auth _ r st₂ h₁ hcheck
    have hder : r = true → Derivable c pw.permission := fun hr =>
      Derivable.of_tallied hauth (htrue hr)
    refine ⟨settle_sound h₂ hder, ?_⟩
    cases r with
    | true => exact .inr ⟨hder rfl, rfl⟩
    | false => exact .inl rfl

/-- The visit of an entry keeps the cache sound and counts the entry only when it counts. -/
theorem visit_sound [DecidableEq K] (hc : NoEmptyAuthority c) {below : CheckBelow K}
    (hbelow : BelowSound c below) {total total' : UInt32} {st st' : CheckerState}
    (hst : CacheSound c st.cached_permissions) {e : MetaPermission K}
    (h : visit c below total st e = .ok (total', st')) :
    CacheSound c st'.cached_permissions ∧ Counted c e total total' := by
  cases e with
  | account pw => exact visitPermission_sound hc hbelow hst h
  | key k =>
    simp only [visit, visitKey, Except.ok.injEq] at h
    cases hidx : c.provided_keys.idxOf? k.key with
    | none =>
      simp only [hidx, Prod.mk.injEq] at h
      obtain ⟨rfl, rfl⟩ := h
      exact ⟨hst, .inl rfl⟩
    | some i =>
      simp only [hidx, Prod.mk.injEq] at h
      obtain ⟨rfl, rfl⟩ := h
      have hmem : k.key ∈ c.provided_keys :=
        List.isSome_idxOf?.1 (by rw [hidx]; rfl)
      exact ⟨hst, .inr ⟨hmem, rfl⟩⟩
  | wait w =>
    simp only [visit, visitWait, Except.ok.injEq, Prod.mk.injEq] at h
    obtain ⟨rfl, rfl⟩ := h
    by_cases hdelay : c.provided_delay ≥ w.wait_sec.toNat * 1000000
    · rw [if_pos hdelay]
      exact ⟨hst, .inr ⟨hdelay, rfl⟩⟩
    · rw [if_neg hdelay]
      exact ⟨hst, .inl rfl⟩

/-- A weight added to a running total adds at most itself to it, wrapping or not. -/
theorem toNat_add_weight_le (total : UInt32) (w : UInt16) :
    (total + w.toUInt32).toNat ≤ total.toNat + w.toNat := by
  rw [UInt32.toNat_add, UInt16.toNat_toUInt32]
  exact Nat.mod_le _ _

/-- A counted visit adds to the total at most the weight of the entries that it counted. -/
theorem Counted.toNat_le {e : MetaPermission K} {total total' : UInt32}
    (h : Counted c e total total') :
    ∃ chosen, chosen.Sublist [e] ∧ (∀ e' ∈ chosen, EntryCounts c e') ∧
      total'.toNat ≤ total.toNat + weightSum chosen := by
  rcases h with rfl | ⟨hcount, rfl⟩
  · exact ⟨[], List.nil_sublist _, by simp, by simp [weightSum]⟩
  · refine ⟨[e], List.Sublist.refl _, by simpa using hcount, ?_⟩
    simpa [weightSum] using toNat_add_weight_le total e.weight

end Visits

/-! ## The loop and the recursion -/

section Checks

variable [DecidableEq K] {c : AuthorityChecker K}

/-- The loop keeps the cache sound, and when it reaches the threshold, entries that count reach it
from the total it started with. The induction is on the entries left, the total and the state
changing from one visit to the next. -/
theorem tally_sound (hc : NoEmptyAuthority c) {below : CheckBelow K}
    (hbelow : BelowSound c below) (threshold : UInt32) (ps : List (MetaPermission K)) :
    ∀ {total : UInt32} {st st' : CheckerState} {r : Bool}, CacheSound c st.cached_permissions →
      tally c below threshold ps total st = .ok (r, st') →
      CacheSound c st'.cached_permissions ∧
        (r = true → ∃ chosen, chosen.Sublist ps ∧ (∀ e ∈ chosen, EntryCounts c e) ∧
          threshold.toNat ≤ total.toNat + weightSum chosen) := by
  induction ps with
  | nil =>
    intro total st st' r hst h
    simp only [tally, Except.ok.injEq, Prod.mk.injEq] at h
    obtain ⟨rfl, rfl⟩ := h
    exact ⟨hst, fun h => by cases h⟩
  | cons e ps ih =>
    intro total st st' r hst h
    simp only [tally, bind_eq_ok] at h
    obtain ⟨⟨total₁, st₁⟩, hvisit, hrest⟩ := h
    obtain ⟨hst₁, hcounted⟩ := visit_sound hc hbelow hst hvisit
    obtain ⟨first, hfirst, hfcount, hle₁⟩ := hcounted.toNat_le
    by_cases hreach : total₁ ≥ threshold
    · -- the threshold is reached at this entry
      simp only [hreach, if_true, pure, Except.pure, Except.ok.injEq, Prod.mk.injEq] at hrest
      obtain ⟨rfl, rfl⟩ := hrest
      refine ⟨hst₁, fun _ => ⟨first, hfirst.trans (List.singleton_sublist.2 List.mem_cons_self),
        hfcount, ?_⟩⟩
      have hge : threshold.toNat ≤ total₁.toNat := UInt32.le_iff_toNat_le.1 hreach
      omega
    · simp only [hreach, if_false] at hrest
      obtain ⟨hst₂, hrest⟩ := ih hst₁ hrest
      refine ⟨hst₂, fun htrue => ?_⟩
      obtain ⟨rest, hsub, hcount, hle⟩ := hrest htrue
      -- the entries counted here come before those counted by the rest of the loop
      have hsub' : (first ++ rest).Sublist (e :: ps) := by
        have := List.Sublist.append hfirst hsub
        simpa using this
      refine ⟨first ++ rest, hsub', ?_, ?_⟩
      · intro e' he'
        rcases List.mem_append.1 he' with h | h
        · exact hfcount e' h
        · exact hcount e' h
      · have hsum : weightSum (first ++ rest) = weightSum first + weightSum rest := by
          simp [weightSum]
        omega

/-- A check of an authority keeps the cache sound, and its `true` is tallied. -/
theorem satisfiedAuthority_sound (hc : NoEmptyAuthority c) {below : CheckBelow K}
    (hbelow : BelowSound c below) : BelowSound c (some (satisfiedAuthority c below)) := by
  intro auth st r st' hst h
  simp only [satisfiedAuthority, bind_eq_ok] at h
  obtain ⟨⟨r₁, st₁⟩, htally, hres⟩ := h
  simp only [pure, Except.pure, Except.ok.injEq, Prod.mk.injEq] at hres
  obtain ⟨rfl, rfl⟩ := hres
  obtain ⟨hcache, htrue⟩ := tally_sound hc hbelow auth.threshold (metaPermissions auth) hst htally
  -- giving back the marks of used keys leaves the cache as the loop left it
  have hcache' : CacheSound c
      (if r₁ then st₁ else { st₁ with used_keys := st.used_keys }).cached_permissions := by
    cases r₁ <;> exact hcache
  refine ⟨hcache', fun hr => ?_⟩
  obtain ⟨chosen, hsub, hcount, hle⟩ := htrue hr
  exact ⟨chosen, hsub, hcount, by simpa using hle⟩

/-- Every check below a depth keeps the cache sound and is tallied when `true`: by induction on
the levels left. -/
theorem satisfiedBelow_sound (hc : NoEmptyAuthority c) :
    ∀ budget, BelowSound c (satisfiedBelow c budget)
  | 0 => trivial
  | budget + 1 => satisfiedAuthority_sound hc (satisfiedBelow_sound hc budget)

/-- `satisfied(permission)` with a sound cache answers `true` only for a derivable level. -/
theorem satisfiedWith_sound (hc : NoEmptyAuthority c) {p : PermissionLevel} {st st' : CheckerState}
    (hst : CacheSound c st.cached_permissions) (h : satisfiedWith c p st = .ok (true, st')) :
    Derivable c p := by
  simp only [satisfiedWith, bind_eq_ok] at h
  obtain ⟨⟨total, st₁⟩, hvisit, hres⟩ := h
  simp only [pure, Except.pure, Except.ok.injEq, Prod.mk.injEq] at hres
  obtain ⟨-, hcounted⟩ :=
    visitPermission_sound hc (satisfiedBelow_sound hc c.recursion_depth_limit.toNat) hst hvisit
  -- a positive total is the level's own weight, counted
  rcases hcounted with rfl | ⟨hder, -⟩
  · simp at hres
  · exact hder

end Checks

/-! ## Used keys -/

section Keys

variable {c : AuthorityChecker K}

/-- A failed check of an authority gives back the marks of used keys (`KeyReverter`). -/
theorem satisfiedAuthority_used_keys [DecidableEq K] {below : CheckBelow K} {auth : Authority K}
    {st st' : CheckerState} (h : satisfiedAuthority c below auth st = .ok (false, st')) :
    st'.used_keys = st.used_keys := by
  simp only [satisfiedAuthority, bind_eq_ok] at h
  obtain ⟨⟨r, st₁⟩, -, hres⟩ := h
  simp only [pure, Except.pure, Except.ok.injEq, Prod.mk.injEq] at hres
  obtain ⟨rfl, rfl⟩ := hres
  rfl

/-- A check one level down gives back the marks of used keys when it fails. -/
def KeysRestored : CheckBelow K → Prop
  | none => True
  | some check => ∀ auth st st', check auth st = .ok (false, st') → st'.used_keys = st.used_keys

/-- Every check below a depth gives back the marks of used keys when it fails. -/
theorem satisfiedBelow_restores [DecidableEq K] : ∀ budget, KeysRestored (satisfiedBelow c budget)
  | 0 => trivial
  | _ + 1 => fun _ _ _ h => satisfiedAuthority_used_keys h

/-- A visit of a permission level that does not add the level's weight leaves the marks of used
keys as they were. -/
theorem visitPermission_used_keys {below : CheckBelow K} (hbelow : KeysRestored below)
    {pw : PermissionLevelWeight} {total total' : UInt32} {st st' : CheckerState}
    (h : visitPermission c below pw total st = .ok (total', st'))
    (hne : total' ≠ total + pw.weight.toUInt32) : st'.used_keys = st.used_keys := by
  rcases visitPermission_ok h with ⟨-, rfl⟩ | ⟨-, -, rfl⟩ |
    ⟨check, auth, r, st₂, rfl, -, hcheck, rfl, rfl⟩
  · rfl
  · rfl
  · cases r with
    -- a satisfied level adds its weight
    | true => exact absurd rfl hne
    | false =>
      have hkeys := hbelow _ _ _ hcheck
      exact hkeys

/-- `satisfied(permission)` that answers `false` leaves the marks of used keys as they were. -/
theorem satisfiedWith_used_keys [DecidableEq K] {p : PermissionLevel} {st st' : CheckerState}
    (h : satisfiedWith c p st = .ok (false, st')) : st'.used_keys = st.used_keys := by
  simp only [satisfiedWith, bind_eq_ok] at h
  obtain ⟨⟨total, st₁⟩, hvisit, hres⟩ := h
  simp only [pure, Except.pure, Except.ok.injEq, Prod.mk.injEq] at hres
  obtain ⟨hzero, rfl⟩ := hres
  -- a `false` answer is a zero total, and the level's weight is one
  have htotal : total = 0 := by simpa using hzero
  subst htotal
  exact visitPermission_used_keys (satisfiedBelow_restores _) hvisit (by simp)

end Keys

/-! ## The checker of the authorization manager -/

/-- `get_permission` gives no authority to a level with the empty permission name. -/
theorem makeAuthChecker_noEmptyAuthority (table : PermissionLevel → Option (Authority K))
    (recursion_depth_limit : UInt16) (provided_keys : List K)
    (provided_permissions : List PermissionLevel) (provided_delay : Int) :
    NoEmptyAuthority (makeAuthChecker table recursion_depth_limit provided_keys
      provided_permissions provided_delay) := by
  intro actor auth h
  simp [makeAuthChecker, getPermissionAuth, emptyName, Name.empty, eosAssert, bind,
    Except.bind] at h

/-- The authority checker is sound, over every permission table, cyclic or not: a permission that
it satisfies has a derivation from the provided keys, permissions and delay, and one that it does
not satisfy leaves the marks of used keys as they were. -/
theorem authority_checker_sound [DecidableEq K] (table : PermissionLevel → Option (Authority K))
    (recursion_depth_limit : UInt16) (provided_keys : List K)
    (provided_permissions : List PermissionLevel) (provided_delay : Int) (p : PermissionLevel) :
    let c := makeAuthChecker table recursion_depth_limit provided_keys provided_permissions
      provided_delay
    (∀ st', satisfied c p = .ok (true, st') → Derivable c p) ∧
      ∀ st st', satisfiedWith c p st = .ok (false, st') → st'.used_keys = st.used_keys := by
  intro c
  have hc : NoEmptyAuthority c := makeAuthChecker_noEmptyAuthority table recursion_depth_limit
    provided_keys provided_permissions provided_delay
  refine ⟨fun st' h => satisfiedWith_sound hc (initializePermissionCache_sound c) h, ?_⟩
  intro st st' h
  exact satisfiedWith_used_keys h

/-- An extra provided key can make a satisfied permission unsatisfied, at a depth limit of `3`.
Level `1` needs both `2` and `3`; `2` is satisfied by key `1` or by level `5`, and `3` only through
`4` and `5`, one level deeper. Without key `1`, checking `2` visits `5` (keys come first among
entries of one weight) and caches it satisfied, so that `4` finds it in the cache at the depth
limit. With key `1`, `2` is satisfied by its key alone, `5` is never checked, and `4` reaches it
at the depth limit uncached, so that `3` and then `1` fail. -/
theorem authority_checker_extra_key_fails :
    let level : UInt64 → PermissionLevel := fun a => ⟨⟨a⟩, ⟨1⟩⟩
    let table : PermissionLevel → Option (Authority Nat) := fun l =>
      [(level 1, ⟨2, [], [⟨level 2, 1⟩, ⟨level 3, 1⟩], []⟩),
        (level 2, ⟨1, [⟨1, 1⟩], [⟨level 5, 1⟩], []⟩),
        (level 3, ⟨1, [], [⟨level 4, 1⟩], []⟩),
        (level 4, ⟨1, [], [⟨level 5, 1⟩], []⟩),
        (level 5, ⟨1, [⟨5, 1⟩], [], []⟩)].lookup l
    (satisfied (makeAuthChecker table 3 [5] [] 0) (level 1)).map Prod.fst = .ok true ∧
      (satisfied (makeAuthChecker table 3 [1, 5] [] 0) (level 1)).map Prod.fst = .ok false := by
  decide

end InfraBlockchain.Auth
