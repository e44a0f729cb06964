import Mathlib
import InfraBlockchain.Auth.Soundness
import InfraBlockchain.Chain.Transaction

/-!
# The authorization of a transaction

`authorization_manager::check_authorization` decides whether a transaction's actions are
authorized. For each action it first makes the checks of the native actions of `eosio` that change
permissions (`updateauth`, `deleteauth`, `linkauth`, `unlinkauth`, `canceldelay`): one declared
authorization, by the account concerned, through a permission that satisfies the least one
concerned, which `permission_object::satisfies` decides by the parent walk. Every declared
authorization of any other action must satisfy the least permission that the action requires of
its actor (`lookup_minimum_permission`). The declared permission levels, with the delay of their
action, go into a map that keeps the lowest delay of each; the fee payer's `active` is added with
the provided delay when the call names a fee payer, and nothing changes when it is there already.
The authority checker must then satisfy every level of the map, in ascending order, with one set
of marks of used keys across all of them and a fresh permission cache for each; last, unless
unused keys are allowed, every provided key must have been used.

`authorization_manager::get_required_keys` offers a client the keys to sign with: a checker over
the candidate keys must satisfy every declared authorization, in the order of the actions, and the
`active` permission of the payer named by a fee payer extension; the keys that it used are the
answer.

The checks of the native actions compare `get_permission` of the declared level with the least
permission; both raise the same exceptions when a level is missing, so which of the two is read
first does not show. A parent walk that does not end counts as not satisfied, which a permission
tree rules out (`satisfies_spec`).
-/

namespace InfraBlockchain.Auth

open Chain

variable {K : Type}

/-- `generated_transaction_object`, with what `check_canceldelay_authorization` reads. -/
structure GeneratedTransactionObject (K : Type) where
  /-- `trx_id`. -/
  trx_id : Nat
  /-- `sender`, empty for a transaction delayed by its signers. -/
  sender : Name
  /-- `published`, in microseconds. -/
  published : Int
  /-- `delay_until`, in microseconds. -/
  delay_until : Int
  /-- The actions of the unpacked `packed_trx`. -/
  actions : List (Action K)

/-- What `authorization_manager` reads: the chain configuration, whether
`fix_linkauth_restriction` is activated, its tables, and the generated transactions of the
controller's database. -/
structure AuthorizationManager (K : Type) where
  /-- The global configuration and the protocol state. -/
  cfg : AuthConfig K
  /-- Whether `fix_linkauth_restriction` is activated. -/
  fix_linkauth_restriction : Bool
  /-- The accounts, permissions and links. -/
  db : AuthState K
  /-- `generated_transaction_multi_index`. -/
  generated_transactions : List (GeneratedTransactionObject K)

/-! ## The native actions -/

/-- `get_permission(auth).satisfies(min_permission, permission_index)`, with as many iterations of
the parent walk as ids were given; a walk that does not end answers `false`. -/
def AuthorizationManager.satisfies (am : AuthorizationManager K)
    (permission min_permission : PermissionObject K) : Bool :=
  permission.satisfies min_permission am.db.permissions am.db.next_permission_id == some true

/-- The assertion that ends each check of a declared authorization: the declared level's
permission satisfies the least one, else `irrelevant_auth_exception` with the check's message. -/
def requireSatisfies (am : AuthorizationManager K) (auth : PermissionLevel)
    (min_permission : PermissionObject K) (message : String) : Except Exception Unit := do
  let permission ← getPermission am.db auth
  eosAssert (am.satisfies permission min_permission) .irrelevant_auth_exception message

/-- The least permission for `updateauth`: the permission itself when it exists, else the parent
under which it is created. -/
def updateauthMinPermission (am : AuthorizationManager K) (update : Updateauth K) :
    Except Exception (PermissionObject K) := do
  match ← findPermission am.db ⟨update.account, update.permission⟩ with
  | some min_permission => pure min_permission
  | none => getPermission am.db ⟨update.account, update.parent⟩

/-- `check_updateauth_authorization`. -/
def checkUpdateauthAuthorization (am : AuthorizationManager K) (update : Updateauth K) :
    List PermissionLevel → Except Exception Unit
  | [auth] => do
    eosAssert (auth.actor == update.account) .irrelevant_auth_exception
      "the owner of the affected permission needs to be the actor of the declared authorization"
    let min_permission ← updateauthMinPermission am update
    requireSatisfies am auth min_permission
      "updateauth action declares irrelevant authority '${auth}'; minimum authority is ${min}"
  | _ => .error ⟨.irrelevant_auth_exception,
      "updateauth action should only have one declared authorization"⟩

/-- `check_deleteauth_authorization`, whose last message names `updateauth` as the source does. -/
def checkDeleteauthAuthorization (am : AuthorizationManager K) (del : Deleteauth) :
    List PermissionLevel → Except Exception Unit
  | [auth] => do
    eosAssert (auth.actor == del.account) .irrelevant_auth_exception
      "the owner of the permission to delete needs to be the actor of the declared authorization"
    let min_permission ← getPermission am.db ⟨del.account, del.permission⟩
    requireSatisfies am auth min_permission
      "updateauth action declares irrelevant authority '${auth}'; minimum authority is ${min}"
  | _ => .error ⟨.irrelevant_auth_exception,
      "deleteauth action should only have one declared authorization"⟩

/-- The action types that `linkauth` may not link, checked for links into `eosio` and for every
link before `fix_linkauth_restriction`. -/
def checkLinkauthType (am : AuthorizationManager K) (link : Linkauth) : Except Exception Unit :=
  if link.code = systemAccountName ∨ am.fix_linkauth_restriction = false then do
    eosAssert (link.type != updateauthName) .action_validate_exception
      "Cannot link eosio::updateauth to a minimum permission"
    eosAssert (link.type != deleteauthName) .action_validate_exception
      "Cannot link eosio::deleteauth to a minimum permission"
    eosAssert (link.type != linkauthName) .action_validate_exception
      "Cannot link eosio::linkauth to a minimum permission"
    eosAssert (link.type != unlinkauthName) .action_validate_exception
      "Cannot link eosio::unlinkauth to a minimum permission"
    eosAssert (link.type != canceldelayName) .action_validate_exception
      "Cannot link eosio::canceldelay to a minimum permission"
  else pure ()

/-- `check_linkauth_authorization`: nothing more for an action linked to `eosio.any`. -/
def checkLinkauthAuthorization (am : AuthorizationManager K) (link : Linkauth) :
    List PermissionLevel → Except Exception Unit
  | [auth] => do
    eosAssert (auth.actor == link.account) .irrelevant_auth_exception
      "the owner of the linked permission needs to be the actor of the declared authorization"
    checkLinkauthType am link
    match ← lookupMinimumPermission am.db link.account link.code link.type with
    | none => pure ()
    | some linked_permission_name => do
      let min_permission ← getPermission am.db ⟨link.account, linked_permission_name⟩
      requireSatisfies am auth min_permission
        "link action declares irrelevant authority '${auth}'; minimum authority is ${min}"
  | _ => .error ⟨.irrelevant_auth_exception,
      "link action should only have one declared authorization"⟩

/-- `check_unlinkauth_authorization`: the link must exist; nothing more for one to `eosio.any`. -/
def checkUnlinkauthAuthorization (am : AuthorizationManager K) (unlink : Unlinkauth) :
    List PermissionLevel → Except Exception Unit
  | [auth] => do
    eosAssert (auth.actor == unlink.account) .irrelevant_auth_exception
      "the owner of the linked permission needs to be the actor of the declared authorization"
    let unlinked_permission_name ← liftDb .transaction_exception
      "cannot unlink non-existent permission link of account '${account}' for actions matching '${code}::${action}'"
      (lookupLinkedPermission am.db unlink.account unlink.code unlink.type)
    if unlinked_permission_name = eosioAnyName then pure ()
    else do
      let min_permission ← getPermission am.db ⟨unlink.account, unlinked_permission_name⟩
      requireSatisfies am auth min_permission
        "unlink action declares irrelevant authority '${auth}'; minimum authority is ${min}"
  | _ => .error ⟨.irrelevant_auth_exception,
      "unlink action should only have one declared authorization"⟩

/-- `check_canceldelay_authorization`: the canceled transaction was delayed by its signers and
declares the canceling level; the answer is its delay, in microseconds. The unique `by_trx_id`
index's `lower_bound` finds the transaction with the id, if any. -/
def checkCanceldelayAuthorization (am : AuthorizationManager K) (cancel : Canceldelay) :
    List PermissionLevel → Except Exception Int
  | [auth] => do
    let min_permission ← getPermission am.db cancel.canceling_auth
    requireSatisfies am auth min_permission
      "canceldelay action declares irrelevant authority '${auth}'; specified authority to satisfy is ${min}"
    let itr ← liftDb .tx_not_found
      "cannot cancel trx_id=${tid}, there is no deferred transaction with that transaction id"
      ((am.generated_transactions.find? (·.trx_id == cancel.trx_id)).filter (·.sender == ⟨0⟩))
    let found := itr.actions.any fun act => act.authorization.contains cancel.canceling_auth
    eosAssert found .action_validate_exception
      "canceling_auth in canceldelay action was not found as authorization in the original delayed transaction"
    pure (itr.delay_until - itr.published)
  | _ => .error ⟨.irrelevant_auth_exception,
      "canceldelay action should only have one declared authorization"⟩

/-- The native actions of `eosio` in the loop of `check_authorization`: whether the action is one
(`special_case`), after its own check, and its delay, raised for `canceldelay` to the delay of the
canceled transaction. `data_as` fails on a payload that is not the action type's struct. -/
def checkSpecialCase (am : AuthorizationManager K) (act : Action K) (delay : Int) :
    Except Exception (Bool × Int) :=
  if act.account = systemAccountName then
    if act.name = updateauthName then
      match act.data with
      | .updateauth update => do
        checkUpdateauthAuthorization am update act.authorization
        pure (true, delay)
      | _ => .error unpackFailure
    else if act.name = deleteauthName then
      match act.data with
      | .deleteauth del => do
        checkDeleteauthAuthorization am del act.authorization
        pure (true, delay)
      | _ => .error unpackFailure
    else if act.name = linkauthName then
      match act.data with
      | .linkauth link => do
        checkLinkauthAuthorization am link act.authorization
        pure (true, delay)
      | _ => .error unpackFailure
    else if act.name = unlinkauthName then
      match act.data with
      | .unlinkauth unlink => do
        checkUnlinkauthAuthorization am unlink act.authorization
        pure (true, delay)
      | _ => .error unpackFailure
    else if act.name = canceldelayName then
      match act.data with
      | .canceldelay cancel => do
        let canceled_delay ← checkCanceldelayAuthorization am cancel act.authorization
        pure (true, max delay canceled_delay)
      | _ => .error unpackFailure
    else pure (false, delay)
  else pure (false, delay)

/-! ## The declared authorizations -/

/-- The check of a declared authorization of an action that is not a special case: it satisfies
the least permission that the action requires of its actor, unless that is `eosio.any`. -/
def checkMinimumPermission (am : AuthorizationManager K) (act : Action K)
    (special_case : Bool) (declared_auth : PermissionLevel) : Except Exception Unit :=
  if special_case then pure ()
  else do
    match ← lookupMinimumPermission am.db declared_auth.actor act.account act.name with
    | none => pure ()
    | some min_permission_name => do
      let min_permission ← getPermission am.db ⟨declared_auth.actor, min_permission_name⟩
      requireSatisfies am declared_auth min_permission
        "action declares irrelevant authority '${auth}'; minimum authority is ${min}"

/-- `permissions_to_satisfy.emplace(level, delay)`: the map is unchanged when the level is in it. -/
def emplaceLevel (m : List (PermissionLevel × Int)) (level : PermissionLevel) (delay : Int) :
    List (PermissionLevel × Int) :=
  if m.any (·.1 == level) then m else m ++ [(level, delay)]

/-- `emplace(declared_auth, delay)` followed by the lowering of a higher delay already there. -/
def emplaceMinDelay (m : List (PermissionLevel × Int)) (level : PermissionLevel) (delay : Int) :
    List (PermissionLevel × Int) :=
  if m.any (·.1 == level) then
    m.map fun e => if e.1 = level ∧ e.2 > delay then (e.1, delay) else e
  else m ++ [(level, delay)]

/-- The loop over an action's declared authorizations: each checked, and each that is not already
satisfied put into the map with the action's delay. -/
def collectDeclared (am : AuthorizationManager K) (act : Action K) (special_case : Bool)
    (delay : Int) (satisfied_authorizations : List PermissionLevel) :
    List PermissionLevel → List (PermissionLevel × Int) →
      Except Exception (List (PermissionLevel × Int))
  | [], m => .ok m
  | declared_auth :: rest, m => do
    checkMinimumPermission am act special_case declared_auth
    let m := if declared_auth ∈ satisfied_authorizations then m
      else emplaceMinDelay m declared_auth delay
    collectDeclared am act special_case delay satisfied_authorizations rest m

/-- The loop over the actions of `check_authorization`. -/
def collectActions (am : AuthorizationManager K) (effective_provided_delay : Int)
    (satisfied_authorizations : List PermissionLevel) :
    List (Action K) → List (PermissionLevel × Int) →
      Except Exception (List (PermissionLevel × Int))
  | [], m => .ok m
  | act :: acts, m => do
    let (special_case, delay) ← checkSpecialCase am act effective_provided_delay
    let m ← collectDeclared am act special_case delay satisfied_authorizations act.authorization m
    collectActions am effective_provided_delay satisfied_authorizations acts m

/-- The map in the order of its keys, `permission_level::operator<`. -/
def sortLevels (m : List (PermissionLevel × Int)) : List (PermissionLevel × Int) :=
  m.insertionSort fun a b => !PermissionLevel.lt b.1 a.1

/-! ## The checks -/

/-- `checker.satisfied(permission, override_provided_delay)`: the checker's marks of used keys
carried over, a fresh permission cache, and the delay overridden for this call. -/
def satisfiedAt [DecidableEq K] (c : AuthorityChecker K) (used_keys : List Bool)
    (permission : PermissionLevel) (override_provided_delay : Int) :
    Except Exception (Bool × List Bool) := do
  let c' : AuthorityChecker K := { c with provided_delay := override_provided_delay }
  let (r, st) ← satisfiedWith c' permission ⟨used_keys, initializePermissionCache c'⟩
  pure (r, st.used_keys)

/-- A loop of `EOS_ASSERT(checker.satisfied(level, delay), unsatisfied_authorization, message)`
over levels with their delays, the marks of used keys going from one call to the next. -/
def satisfyEach [DecidableEq K] (c : AuthorityChecker K) (message : String) :
    List (PermissionLevel × Int) → List Bool → Except Exception (List Bool)
  | [], used_keys => .ok used_keys
  | (level, delay) :: rest, used_keys => do
    let (r, used_keys) ← satisfiedAt c used_keys level delay
    eosAssert r .unsatisfied_authorization message
    satisfyEach c message rest used_keys

/-- `fc::microseconds::maximum()`. -/
def microsecondsMaximum : Int := 9223372036854775807

/-- The provided delay that `check_authorization` gives the checker: the maximum from
`max_transaction_delay` on. -/
def effectiveProvidedDelay (cfg : AuthConfig K) (provided_delay : Int) : Int :=
  if provided_delay ≥ cfg.max_transaction_delay.toNat * 1000000 then microsecondsMaximum
  else provided_delay

/-- The checker of `check_authorization` and `get_required_keys`, over `get_permission(p).auth`. -/
def AuthorizationManager.checker (am : AuthorizationManager K) (provided_keys : List K)
    (provided_permissions : List PermissionLevel) (provided_delay : Int) : AuthorityChecker K :=
  makeAuthChecker am.db.permissionAuth am.cfg.max_authority_depth provided_keys
    provided_permissions provided_delay

/-- `authorization_manager::check_authorization` of a transaction's actions. -/
def checkAuthorization [DecidableEq K] (am : AuthorizationManager K) (actions : List (Action K))
    (provided_keys : List K) (tx_fee_payer : Option Name)
    (provided_permissions : List PermissionLevel) (provided_delay : Int)
    (allow_unused_keys : Bool) (satisfied_authorizations : List PermissionLevel) :
    Except Exception Unit := do
  let effective_provided_delay := effectiveProvidedDelay am.cfg provided_delay
  let checker := am.checker provided_keys provided_permissions effective_provided_delay
  let permissions_to_satisfy ←
    collectActions am effective_provided_delay satisfied_authorizations actions []
  -- the fee payer's `active`, with the provided delay unless it is declared already
  let permissions_to_satisfy := match tx_fee_payer with
    | some fee_payer => emplaceLevel permissions_to_satisfy ⟨fee_payer, activeName⟩
        effective_provided_delay
    | none => permissions_to_satisfy
  let used_keys ← satisfyEach checker
    "transaction declares authority '${auth}', but does not have signatures for it under a provided delay of ${provided_delay} ms, provided permissions ${provided_permissions}, provided keys ${provided_keys}, and a delay max limit of ${delay_max_limit_ms} ms"
    (sortLevels permissions_to_satisfy) checker.initState.used_keys
  if allow_unused_keys then pure ()
  else
    eosAssert (used_keys.all id) .tx_irrelevant_sig
      "transaction bears irrelevant signatures from these keys: ${keys}"

/-- `authority_checker::used_keys`: the provided keys marked used. -/
def usedKeys (provided_keys : List K) (used_keys : List Bool) : List K :=
  (provided_keys.zip used_keys).filterMap fun (key, used) => if used then some key else none

/-- `authorization_manager::get_required_keys`. -/
def getRequiredKeys [DecidableEq K] (am : AuthorizationManager K) (trx : Transaction K)
    (candidate_keys : List K) (provided_delay : Int) : Except Exception (List K) := do
  let checker := am.checker candidate_keys [] provided_delay
  let used_keys ← satisfyEach checker
    "transaction declares authority '${auth}', but does not have signatures for it."
    ((trx.actions.flatMap (·.authorization)).map fun declared_auth =>
      (declared_auth, provided_delay))
    checker.initState.used_keys
  let exts ← validateAndExtractExtensions trx
  let used_keys ← match findExtension exts transactionFeePayerTxExtId with
    | some fee_payer =>
      satisfyEach checker
        "transaction declares transaction fee payer '${fee_payer}', but does not have signatures for it."
        [(⟨fee_payer, activeName⟩, provided_delay)] used_keys
    | none => pure used_keys
  pure (usedKeys candidate_keys used_keys)

/-! ## The map of permissions to satisfy -/

/-- What the loops leave of the map `m` in `m'`, with `declared` the levels put in and their
delays: every entry of `m` stays with a delay no higher, every declared level is there with a
delay no higher than its own, and there is no other key. -/
structure Collected (m m' declared : List (PermissionLevel × Int)) : Prop where
  /-- Every permission of the old map stays, at a depth no greater. -/
  keeps : ∀ x ∈ m, ∃ d ≤ x.2, (x.1, d) ∈ m'
  /-- Every declared permission is there, at a depth no greater than its own. -/
  holds : ∀ x ∈ declared, ∃ d ≤ x.2, (x.1, d) ∈ m'
  /-- Nothing else is added. -/
  only : ∀ x ∈ m', x.1 ∈ m.map Prod.fst ∨ x.1 ∈ declared.map Prod.fst

/-- Adding no declared permission collects the map itself. -/
theorem Collected.refl (m : List (PermissionLevel × Int)) : Collected m m [] where
  keeps x hx := ⟨x.2, le_refl _, hx⟩
  holds _ hx := absurd hx List.not_mem_nil
  only _ hx := .inl (List.mem_map_of_mem hx)

/-- Two loops one after the other. -/
theorem Collected.trans {m₁ m₂ m₃ d₁ d₂ : List (PermissionLevel × Int)}
    (h₁ : Collected m₁ m₂ d₁) (h₂ : Collected m₂ m₃ d₂) : Collected m₁ m₃ (d₁ ++ d₂) where
  keeps x hx := by
    obtain ⟨d, hd, hmem⟩ := h₁.keeps x hx
    obtain ⟨d', hd', hmem'⟩ := h₂.keeps _ hmem
    exact ⟨d', hd'.trans hd, hmem'⟩
  holds x hx := by
    rcases List.mem_append.1 hx with hx | hx
    · obtain ⟨d, hd, hmem⟩ := h₁.holds x hx
      obtain ⟨d', hd', hmem'⟩ := h₂.keeps _ hmem
      exact ⟨d', hd'.trans hd, hmem'⟩
    · exact h₂.holds x hx
  only x hx := by
    rcases h₂.only x hx with hk | hk
    · obtain ⟨y, hy, hyx⟩ := List.mem_map.1 hk
      rw [← hyx]
      rcases h₁.only y hy with hk' | hk'
      · exact .inl hk'
      · exact .inr (by simp only [List.map_append, List.mem_append]; exact .inl hk')
    · exact .inr (by simp only [List.map_append, List.mem_append]; exact .inr hk)

/-- `emplace` with the lowering of the delay puts the level in. -/
theorem Collected.of_emplaceMinDelay (m : List (PermissionLevel × Int)) (level : PermissionLevel)
    (delay : Int) : Collected m (emplaceMinDelay m level delay) [(level, delay)] := by
  by_cases hany : m.any (·.1 == level)
  · -- the entry of the level gets the lower delay; the others stay as they are
    have hmap : emplaceMinDelay m level delay =
        m.map fun e => if e.1 = level ∧ e.2 > delay then (e.1, delay) else e := by
      simp [emplaceMinDelay, hany]
    rw [hmap]
    refine ⟨fun x hx => ?_, fun x hx => ?_, fun x hx => ?_⟩
    · by_cases hlow : x.1 = level ∧ x.2 > delay
      · exact ⟨delay, le_of_lt hlow.2, List.mem_map.2 ⟨x, hx, by simp [hlow]⟩⟩
      · exact ⟨x.2, le_refl _, List.mem_map.2 ⟨x, hx, by simp [hlow]⟩⟩
    · obtain ⟨y, hy, hyl⟩ := List.any_eq_true.1 hany
      have hyl : y.1 = level := by simpa using hyl
      rw [List.mem_singleton.1 hx]
      by_cases hlow : y.2 > delay
      · exact ⟨delay, le_refl _, List.mem_map.2 ⟨y, hy, by simp [hyl, hlow]⟩⟩
      · refine ⟨y.2, not_lt.1 hlow, List.mem_map.2 ⟨y, hy, ?_⟩⟩
        rw [if_neg fun h => hlow h.2]
        exact Prod.ext hyl rfl
    · obtain ⟨y, hy, rfl⟩ := List.mem_map.1 hx
      refine .inl (List.mem_map.2 ⟨y, hy, ?_⟩)
      split <;> rfl
  · have happ : emplaceMinDelay m level delay = m ++ [(level, delay)] := by
      simp [emplaceMinDelay, hany]
    rw [happ]
    refine ⟨fun x hx => ⟨x.2, le_refl _, List.mem_append_left _ hx⟩,
      fun x hx => ⟨x.2, le_refl _, ?_⟩, fun x hx => ?_⟩
    · rw [List.mem_singleton.1 hx]
      simp
    · rcases List.mem_append.1 hx with hx | hx
      · exact .inl (List.mem_map_of_mem hx)
      · exact .inr (by simp [List.mem_singleton.1 hx])


/-- The loop over an action's declared authorizations passes the check of each, and puts in each
level that is not yet satisfied, with the action's delay. -/
theorem collectDeclared_ok {am : AuthorizationManager K} {act : Action K} {special_case : Bool}
    {delay : Int} {satisfied_authorizations : List PermissionLevel} :
    ∀ {auths : List PermissionLevel} {m m' : List (PermissionLevel × Int)},
      collectDeclared am act special_case delay satisfied_authorizations auths m = .ok m' →
      (∀ p ∈ auths, checkMinimumPermission am act special_case p = .ok ()) ∧
        Collected m m' ((auths.filter (· ∉ satisfied_authorizations)).map (·, delay))
  | [], m, m', h => by
    cases h
    exact ⟨fun _ hp => absurd hp List.not_mem_nil, Collected.refl m⟩
  | declared_auth :: rest, m, m', h => by
    simp only [collectDeclared, bind_eq_ok] at h
    obtain ⟨u, hcheck, hrest⟩ := h
    obtain ⟨hchecks, hcollected⟩ := collectDeclared_ok hrest
    refine ⟨fun p hp => ?_, ?_⟩
    · rcases List.mem_cons.1 hp with rfl | hp
      · exact hcheck
      · exact hchecks p hp
    -- a level already satisfied is skipped; any other goes in before the rest
    by_cases hsat : declared_auth ∈ satisfied_authorizations
    · rw [if_pos hsat] at hcollected
      simpa [hsat, List.filter_cons] using (Collected.refl m).trans hcollected
    · rw [if_neg hsat] at hcollected
      simpa [hsat, List.filter_cons] using
        (Collected.of_emplaceMinDelay m declared_auth delay).trans hcollected

/-- The loop over the actions: each passes its special-case check with a delay, each of its
declared authorizations passes its check, and each that is not yet satisfied goes in with the
action's delay; the map holds nothing else. -/
theorem collectActions_ok {am : AuthorizationManager K} {effective_provided_delay : Int}
    {satisfied_authorizations : List PermissionLevel} :
    ∀ {acts : List (Action K)} {m m' : List (PermissionLevel × Int)},
      collectActions am effective_provided_delay satisfied_authorizations acts m = .ok m' →
      ∃ declared, Collected m m' declared ∧
        (∀ x ∈ declared, ∃ act ∈ acts, x.1 ∈ act.authorization ∧ x.1 ∉ satisfied_authorizations) ∧
        ∀ act ∈ acts, ∃ special_case delay,
          checkSpecialCase am act effective_provided_delay = .ok (special_case, delay) ∧
          ∀ p ∈ act.authorization, checkMinimumPermission am act special_case p = .ok () ∧
            (p ∉ satisfied_authorizations → (p, delay) ∈ declared)
  | [], m, m', h => by
    cases h
    exact ⟨[], Collected.refl m, fun _ hx => absurd hx List.not_mem_nil,
      fun _ hact => absurd hact List.not_mem_nil⟩
  | act :: acts, m, m', h => by
    simp only [collectActions, bind_eq_ok] at h
    obtain ⟨⟨special_case, delay⟩, hspecial, m₁, hdeclared, hrest⟩ := h
    obtain ⟨hchecks, hcollected⟩ := collectDeclared_ok hdeclared
    obtain ⟨declared, hcollected', hfrom, hacts⟩ := collectActions_ok hrest
    let own := (act.authorization.filter (· ∉ satisfied_authorizations)).map (·, delay)
    refine ⟨own ++ declared, hcollected.trans hcollected', fun x hx => ?_, fun a ha => ?_⟩
    · rcases List.mem_append.1 hx with hx | hx
      · obtain ⟨p, hp, rfl⟩ := List.mem_map.1 hx
        have hp := List.mem_filter.1 hp
        exact ⟨act, List.mem_cons_self, hp.1, by simpa using hp.2⟩
      · obtain ⟨a, ha, hxa⟩ := hfrom x hx
        exact ⟨a, List.mem_cons_of_mem _ ha, hxa⟩
    · rcases List.mem_cons.1 ha with rfl | ha
      · refine ⟨special_case, delay, hspecial, fun p hp => ⟨hchecks p hp, fun hsat => ?_⟩⟩
        exact List.mem_append_left _ (List.mem_map.2 ⟨p, List.mem_filter.2 ⟨hp, by simpa⟩, rfl⟩)
      · obtain ⟨sc, d, hsc, hps⟩ := hacts a ha
        exact ⟨sc, d, hsc, fun p hp => ⟨(hps p hp).1,
          fun hsat => List.mem_append_right _ ((hps p hp).2 hsat)⟩⟩

/-! ## What the checks establish -/

/-- Every level that the loop of assertions passes is derivable at its delay. -/
theorem satisfyEach_derivable [DecidableEq K] {table : PermissionLevel → Option (Authority K)}
    {depth : UInt16} {keys : List K} {permissions : List PermissionLevel} {delay : Int}
    {message : String} :
    ∀ {l : List (PermissionLevel × Int)} {used used' : List Bool},
      satisfyEach (makeAuthChecker table depth keys permissions delay) message l used =
        .ok used' →
      ∀ x ∈ l, Derivable (makeAuthChecker table depth keys permissions x.2) x.1
  | [], _, _, _ => fun _ hx => absurd hx List.not_mem_nil
  | (level, d) :: rest, used, used', h => by
    simp only [satisfyEach, bind_eq_ok] at h
    obtain ⟨⟨r, used₁⟩, hsat, u, hr, hrest⟩ := h
    have hr : r = true := eosAssert_eq_ok.1 hr
    subst hr
    intro x hx
    rcases List.mem_cons.1 hx with rfl | hx
    · -- the call is a check of the checker at the level's delay, from a fresh cache
      simp only [satisfiedAt, bind_eq_ok] at hsat
      obtain ⟨⟨r', st⟩, hcall, hres⟩ := hsat
      simp only [pure, Except.pure, Except.ok.injEq, Prod.mk.injEq] at hres
      obtain ⟨rfl, -⟩ := hres
      let c := makeAuthChecker table depth keys permissions d
      exact satisfiedWith_sound (makeAuthChecker_noEmptyAuthority table depth keys permissions d)
        (initializePermissionCache_sound c) hcall
    · exact satisfyEach_derivable hrest x hx


/-- The keys marked used are among the provided keys, in their order. -/
theorem usedKeys_sublist : ∀ (provided_keys : List K) (used_keys : List Bool),
    (usedKeys provided_keys used_keys).Sublist provided_keys
  | [], _ => by simp [usedKeys]
  | _ :: _, [] => by simp [usedKeys]
  | key :: keys, used :: used_keys => by
    have ih := usedKeys_sublist keys used_keys
    cases used with
    | true => simpa [usedKeys] using ih.cons_cons key
    | false => simpa [usedKeys] using ih.cons key


/-! ## Keys for an owner-only transaction -/

/-- The account of the example. -/
def alice : Name := .ofString "alice"

/-- Its `owner` permission, under key `1`. -/
def aliceOwner : PermissionObject Nat := ⟨1, 0, alice, ownerName, ⟨1, [⟨1, 1⟩], [], []⟩⟩

/-- Its `active` permission, under `owner`, with key `2`. -/
def aliceActive : PermissionObject Nat := ⟨2, 1, alice, activeName, ⟨1, [⟨2, 1⟩], [], []⟩⟩

/-- The chain with the account `alice` and its two permissions. -/
def aliceManager : AuthorizationManager Nat where
  cfg := ⟨3888000, 6, 1, fun _ => 0, fun _ => 34, true⟩
  fix_linkauth_restriction := true
  db := ⟨⟨[⟨alice, false⟩], by decide⟩, ⟨[rootPermission, aliceOwner, aliceActive], by decide⟩, 3,
    .empty, fun _ => 0⟩
  generated_transactions := []

/-- A transfer that `alice` authorizes with her `owner` permission, with no fee payer extension. -/
def ownerTransfer : Transaction Nat :=
  ⟨[⟨.ofString "infra.token", .ofString "transfer", [⟨alice, ownerName⟩], .other⟩], 0, []⟩

set_option maxRecDepth 4096 in
/-- The keys that `get_required_keys` offers are refused by `check_authorization` with the fee
payer that `transaction_context::init` fixes: `alice`, as first authorizer, whose `active` the
`owner` key does not satisfy. -/
theorem required_keys_missing_fee_payer :
    getRequiredKeys aliceManager ownerTransfer [1, 2] 0 = .ok [1] ∧
      transactionFeePayer ownerTransfer = .ok alice ∧
      checkAuthorization aliceManager ownerTransfer.actions [1] (some alice) [] 0 false [] =
        .error ⟨.unsatisfied_authorization,
          "transaction declares authority '${auth}', but does not have signatures for it under a provided delay of ${provided_delay} ms, provided permissions ${provided_permissions}, provided keys ${provided_keys}, and a delay max limit of ${delay_max_limit_ms} ms"⟩ := by
  decide

end InfraBlockchain.Auth
