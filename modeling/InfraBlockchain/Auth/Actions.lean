import Mathlib
import InfraBlockchain.Lib.Machine
import InfraBlockchain.Token.Manager
import InfraBlockchain.Auth.Permissions

/-!
# The native actions on accounts and permissions

`apply_eosio_newaccount`, `apply_eosio_updateauth`, `apply_eosio_deleteauth`,
`apply_eosio_linkauth` and `apply_eosio_unlinkauth` (`eosio_contract.cpp`), over the tables of the
authorization manager, and the accounts that `controller::initialize_database` creates at genesis
(`create_native_account`). Every handler is a function of the state that either raises an
exception or returns the next state; a request that fails is rolled back as a whole.

A new account gets an `owner` permission under the reserved permission `0` and an `active`
permission under its `owner`. `updateauth` creates a permission under a parent of the same account
or changes the authority of one, never its parent; `deleteauth` removes a permission that no link
requires and that has no children.
-/

namespace InfraBlockchain.Auth

open Token (ApplyContext requireAuthorization addRamUsage)

variable {K : Type}

/-- `validate_authority_precondition`: every account of the authority exists, and so does every
permission of it other than `owner`, `active` and the virtual `eosio.code`. -/
def validateAuthorityPrecondition (s : AuthState K) (auth : Authority K) :
    Except Exception Unit :=
  auth.accounts.forM fun a => do
    eosAssert (s.isAccount a.permission.actor) .action_validate_exception
      "account '${account}' does not exist"
    if a.permission.permission = ownerName ∨ a.permission.permission = activeName ∨
        a.permission.permission = eosioCodeName then
      pure ()
    else
      match getPermission s a.permission with
      | .ok _ => pure ()
      | .error e =>
        -- only `permission_query_exception` is caught; `invalid_permission` goes through
        if e.kind = .permission_query_exception then
          .error ⟨.action_validate_exception, "permission '${perm}' does not exist"⟩
        else .error e

/-- The `owner` and `active` permissions of a new account, with the RAM that they take. -/
def createAccountPermissions (cfg : AuthConfig K) (s : AuthState K) (name : Name)
    (owner active : Authority K) : Except Exception (AuthState K) := do
  let (s, owner_permission) ← createPermission cfg s name ownerName 0 owner
  let (s, active_permission) ← createPermission cfg s name activeName owner_permission.id active
  let ram_delta := overheadPerAccountRamBytes + 2 * billableSizePermissionObject +
    owner_permission.auth.billableSize cfg + active_permission.auth.billableSize cfg
  pure { s with ram := addRamUsage s.ram name ram_delta }

/-- The data of `newaccount`. -/
structure Newaccount (K : Type) where
  /-- The creator, who authorizes. -/
  creator : Name
  /-- The new account. -/
  name : Name
  /-- Its `owner` authority. -/
  owner : Authority K
  /-- Its `active` authority. -/
  active : Authority K

/-- Only a privileged creator may take a name that starts with `eosio.`. -/
def checkReservedPrefix (creator : AccountObject) (name_str : String) : Except Exception Unit :=
  if !creator.privileged then
    eosAssert (!name_str.startsWith "eosio.") .action_validate_exception
      "only privileged accounts can have names that start with 'eosio.'"
  else pure ()

/-- `apply_eosio_newaccount`. -/
def applyNewaccount [LT K] [DecidableLT K] (cfg : AuthConfig K) (ctx : ApplyContext)
    (s : AuthState K) (create : Newaccount K) : Except Exception (AuthState K) := do
  requireAuthorization ctx create.creator
  eosAssert (validate create.owner) .action_validate_exception "Invalid owner authority"
  eosAssert (validate create.active) .action_validate_exception "Invalid active authority"
  let name_str := Name.toString create.name
  eosAssert (!create.name.empty) .action_validate_exception "account name cannot be empty"
  eosAssert (name_str.length ≤ 12) .action_validate_exception
    "account names can only be 12 chars long"
  let creator ← liftDb .unknown_key "unknown key" (s.accounts.find? (byName create.creator))
  checkReservedPrefix creator name_str
  eosAssert (s.accounts.find? (byName create.name)).isNone .account_name_exists_exception
    "Cannot create account named ${name}, as that name is already taken"
  let accounts ← liftDb .unique_index_violation "could not insert object"
    (s.accounts.create ⟨create.name, false⟩)
  let s := { s with accounts }
  validateAuthorityPrecondition s create.owner
  validateAuthorityPrecondition s create.active
  createAccountPermissions cfg s create.name create.owner create.active

/-- The data of `updateauth`. -/
structure Updateauth (K : Type) where
  /-- The account whose permission changes. -/
  account : Name
  /-- The permission. -/
  permission : Name
  /-- Its parent, empty for `owner`. -/
  parent : Name
  /-- The new authority. -/
  auth : Authority K

/-- The checks of `updateauth` on the parent: `active` stays under `owner`, and only `owner` has
an empty parent. -/
def checkUpdateauthParent (update : Updateauth K) : Except Exception Unit := do
  if update.permission = activeName then
    eosAssert (update.parent == ownerName) .action_validate_exception
      "Cannot change active authority's parent from owner"
  if update.permission = ownerName then
    eosAssert update.parent.empty .action_validate_exception
      "Cannot change owner authority's parent"
  else
    eosAssert (!update.parent.empty) .action_validate_exception
      "Only owner permission can have empty parent"

/-- No wait of the authority is longer than `max_transaction_delay`; the waits are ascending, so
the last one is checked. -/
def checkMaxDelay (cfg : AuthConfig K) (auth : Authority K) : Except Exception Unit :=
  match auth.waits.getLast? with
  | some last =>
    eosAssert (last.wait_sec ≤ cfg.max_transaction_delay) .action_validate_exception
      "Cannot set delay longer than max_transacton_delay, which is ${max_delay} seconds"
  | none => pure ()

/-- The parent's id for `updateauth`: `0` for `owner`, else the id of the named permission of the
same account. -/
def updateauthParentId (s : AuthState K) (update : Updateauth K) : Except Exception Nat :=
  if update.permission ≠ ownerName then
    (·.id) <$> getPermission s ⟨update.account, update.parent⟩
  else pure 0

/-- `apply_eosio_updateauth`: the checks, then a new authority for an existing permission under
the same parent, or a new permission under the parent. -/
def applyUpdateauth [LT K] [DecidableLT K] (cfg : AuthConfig K) (ctx : ApplyContext)
    (s : AuthState K) (update : Updateauth K) : Except Exception (AuthState K) := do
  requireAuthorization ctx update.account
  eosAssert (!update.permission.empty) .action_validate_exception
    "Cannot create authority with empty name"
  eosAssert (!(Name.toString update.permission).startsWith "eosio.") .action_validate_exception
    "Permission names that start with 'eosio.' are reserved"
  eosAssert (update.permission != update.parent) .action_validate_exception
    "Cannot set an authority as its own parent"
  let _ ← liftDb .unknown_key "unknown key" (s.accounts.find? (byName update.account))
  eosAssert (validate update.auth) .action_validate_exception "Invalid authority: ${auth}"
  checkUpdateauthParent update
  checkMaxDelay cfg update.auth
  validateAuthorityPrecondition s update.auth
  let permission ← findPermission s ⟨update.account, update.permission⟩
  let parent_id ← updateauthParentId s update
  match permission with
  | some permission => do
    eosAssert (parent_id == permission.parent) .action_validate_exception
      "Changing parent authority is not currently supported"
    let old_size := billableSizePermissionObject + permission.auth.billableSize cfg
    let s ← modifyPermission cfg s permission update.auth
    let new_size := billableSizePermissionObject + update.auth.billableSize cfg
    pure { s with ram := addRamUsage s.ram permission.owner (new_size - old_size) }
  | none => do
    let (s, p) ← createPermission cfg s update.account update.permission parent_id update.auth
    let new_size := billableSizePermissionObject + p.auth.billableSize cfg
    pure { s with ram := addRamUsage s.ram update.account new_size }

/-- The data of `deleteauth`. -/
structure Deleteauth where
  /-- The account whose permission goes. -/
  account : Name
  /-- The permission. -/
  permission : Name

/-- `apply_eosio_deleteauth`: neither `active` nor `owner`, and no link requires it. -/
def applyDeleteauth (cfg : AuthConfig K) (ctx : ApplyContext) (s : AuthState K)
    (remove : Deleteauth) : Except Exception (AuthState K) := do
  requireAuthorization ctx remove.account
  eosAssert (remove.permission != activeName) .action_validate_exception
    "Cannot delete active authority"
  eosAssert (remove.permission != ownerName) .action_validate_exception
    "Cannot delete owner authority"
  eosAssert (s.links.rows.all fun l =>
      !(l.account == remove.account && l.required_permission == remove.permission))
    .action_validate_exception
    "Cannot delete a linked authority. Unlink the authority first. This authority is linked to ${code}::${type}."
  let permission ← getPermission s ⟨remove.account, remove.permission⟩
  let old_size := billableSizePermissionObject + permission.auth.billableSize cfg
  let s ← removePermission s permission
  pure { s with ram := addRamUsage s.ram remove.account (-old_size) }

/-- The data of `linkauth`. -/
structure Linkauth where
  /-- The account that sets the requirement. -/
  account : Name
  /-- The contract. -/
  code : Name
  /-- The action type. -/
  type : Name
  /-- The required permission. -/
  requirement : Name

/-- A required permission other than `eosio.any` exists: as a permission of the account once
`only_link_to_existing_permission` is activated, and as any permission of that name before. -/
def checkRequirementExists (cfg : AuthConfig K) (s : AuthState K) (requirement : Linkauth) :
    Except Exception Unit :=
  if requirement.requirement ≠ eosioAnyName then
    let permission := if cfg.only_link_to_existing_permission then
        s.permissions.find? (byOwner requirement.account requirement.requirement)
      else s.permissions.find? fun p => p.name == requirement.requirement
    eosAssert permission.isSome .permission_query_exception
      "Failed to retrieve permission: ${permission}"
  else pure ()

/-- `apply_eosio_linkauth`: a new link, or a new requirement for the link already there. -/
def applyLinkauth (cfg : AuthConfig K) (ctx : ApplyContext) (s : AuthState K)
    (requirement : Linkauth) : Except Exception (AuthState K) := do
  eosAssert (!requirement.requirement.empty) .action_validate_exception
    "Required permission cannot be empty"
  requireAuthorization ctx requirement.account
  eosAssert (s.isAccount requirement.account) .account_query_exception
    "Failed to retrieve account: ${account}"
  eosAssert (s.isAccount requirement.code) .account_query_exception
    "Failed to retrieve code for account: ${account}"
  checkRequirementExists cfg s requirement
  let key := byActionName requirement.account requirement.code requirement.type
  match s.links.find? key with
  | some link => do
    eosAssert (link.required_permission != requirement.requirement) .action_validate_exception
      "Attempting to update required authority, but new requirement is same as old"
    let links ← liftDb .unique_index_violation "could not modify object"
      (s.links.modify key fun l => { l with required_permission := requirement.requirement })
    pure { s with links }
  | none => do
    let links ← liftDb .unique_index_violation "could not insert object"
      (s.links.create ⟨requirement.account, requirement.code, requirement.type,
        requirement.requirement⟩)
    let ram := addRamUsage s.ram requirement.account billableSizePermissionLinkObject
    pure { s with links, ram }

/-- The data of `unlinkauth`. -/
structure Unlinkauth where
  /-- The account. -/
  account : Name
  /-- The contract. -/
  code : Name
  /-- The action type. -/
  type : Name

/-- `apply_eosio_unlinkauth`. -/
def applyUnlinkauth (ctx : ApplyContext) (s : AuthState K) (unlink : Unlinkauth) :
    Except Exception (AuthState K) := do
  requireAuthorization ctx unlink.account
  let key := byActionName unlink.account unlink.code unlink.type
  let link ← liftDb .action_validate_exception "Attempting to unlink authority, but no link found"
    (s.links.find? key)
  let ram := addRamUsage s.ram link.account (-billableSizePermissionLinkObject)
  pure { s with links := s.links.remove key, ram }

/-! ## Genesis -/

/-- `controller_impl::create_native_account`. -/
def createNativeAccount (cfg : AuthConfig K) (s : AuthState K) (name : Name)
    (owner active : Authority K) (is_privileged : Bool) : Except Exception (AuthState K) := do
  let accounts ← liftDb .unique_index_violation "could not insert object"
    (s.accounts.create ⟨name, is_privileged⟩)
  createAccountPermissions cfg { s with accounts } name owner active

/-- The `active` authority of `eosio.prods` at genesis: `eosio@active`. -/
def activeProducersAuthority : Authority K :=
  ⟨1, [], [⟨⟨systemAccountName, activeName⟩, 1⟩], []⟩

/-- The accounts and permissions of `controller_impl::initialize_database`: `eosio` with the
genesis key's authority, `eosio.null`, `eosio.prods`, and the producers' majority and minority
permissions under `eosio.prods@active`. -/
def initializeDatabase (cfg : AuthConfig K) (system_auth : Authority K) :
    Except Exception (AuthState K) := do
  let s := AuthState.init
  let s ← createNativeAccount cfg s systemAccountName system_auth system_auth true
  let s ← createNativeAccount cfg s nullAccountName ⟨1, [], [], []⟩ ⟨1, [], [], []⟩ false
  let s ← createNativeAccount cfg s producersAccountName ⟨1, [], [], []⟩
    activeProducersAuthority false
  let active_permission ← getPermission s ⟨producersAccountName, activeName⟩
  let (s, majority_permission) ← createPermission cfg s producersAccountName
    majorityProducersPermissionName active_permission.id activeProducersAuthority
  let (s, _) ← createPermission cfg s producersAccountName minorityProducersPermissionName
    majority_permission.id activeProducersAuthority
  pure s

/-! ## Requests -/

/-- A native action on accounts and permissions, with the context it runs in. -/
inductive AuthRequest (K : Type) where
  | newaccount (ctx : ApplyContext) (act : Newaccount K)
  | updateauth (ctx : ApplyContext) (act : Updateauth K)
  | deleteauth (ctx : ApplyContext) (act : Deleteauth)
  | linkauth (ctx : ApplyContext) (act : Linkauth)
  | unlinkauth (ctx : ApplyContext) (act : Unlinkauth)

/-- One request: the handler of its action. -/
def authStep [LT K] [DecidableLT K] (cfg : AuthConfig K) (s : AuthState K) :
    AuthRequest K → Except Exception (AuthState K)
  | .newaccount ctx act => applyNewaccount cfg ctx s act
  | .updateauth ctx act => applyUpdateauth cfg ctx s act
  | .deleteauth ctx act => applyDeleteauth cfg ctx s act
  | .linkauth ctx act => applyLinkauth cfg ctx s act
  | .unlinkauth ctx act => applyUnlinkauth ctx s act

end InfraBlockchain.Auth
