import Mathlib
import InfraBlockchain.Lib.IndexedTable
import InfraBlockchain.Auth.Checker

/-!
# Permissions, links and accounts

The authorization manager's tables (`permission_object.hpp`, `permission_link_object.hpp`,
`authorization_manager.cpp`). A permission has an id, its parent's id, an owner account, a name and
an authority; the table is unique in the id and in the pair of owner and name, and the database
gives each new row the next id. The row with id `0` is reserved when the database is created: its
parent is `0`, its owner and name are empty, and every `owner` permission has it as parent.

`permission_object::satisfies` walks up the parents of a permission. The loop ends only because
the parents end at `0`; the model gives it an explicit bound on its iterations (`fuel`) and
answers `none` when the bound runs out or a parent is missing (in the source, the dereference of
the index's end).

Permission links name, for an account, a contract and an action type, the least permission that
may authorize it; `lookup_minimum_permission` falls back to the contract-wide link, and then to
`active`.
-/

namespace InfraBlockchain.Auth

variable {K : Type}

/-! ## Names and sizes -/

/-- `config::null_account_name`. -/
def nullAccountName : Name := .ofString "eosio.null"

/-- `config::producers_account_name`. -/
def producersAccountName : Name := .ofString "eosio.prods"

/-- `config::majority_producers_permission_name`. -/
def majorityProducersPermissionName : Name := .ofString "prod.major"

/-- `config::minority_producers_permission_name`. -/
def minorityProducersPermissionName : Name := .ofString "prod.minor"

/-- `updateauth::get_name()`. -/
def updateauthName : Name := .ofString "updateauth"

/-- `deleteauth::get_name()`. -/
def deleteauthName : Name := .ofString "deleteauth"

/-- `linkauth::get_name()`. -/
def linkauthName : Name := .ofString "linkauth"

/-- `unlinkauth::get_name()`. -/
def unlinkauthName : Name := .ofString "unlinkauth"

/-- `canceldelay::get_name()`. -/
def canceldelayName : Name := .ofString "canceldelay"

/-- The characters of `name::to_string` by their five-bit codes. -/
def nameCharmap : List Char := ".12345abcdefghijklmnopqrstuvwxyz".toList

/-- `name::to_string`: character `12 - i` from the four low bits when `i = 0` and from the next
five bits for each later `i`, with the trailing dots trimmed. -/
def Name.toString (n : Name) : String :=
  let symbol (i : Nat) : Char :=
    let code := if i = 0 then n.value &&& 0x0f else (n.value >>> (4 + 5 * (i - 1)).toUInt64) &&& 0x1f
    nameCharmap.getD code.toNat '.'
  let str := (List.range 13).reverse.map symbol
  String.ofList (str.reverse.dropWhile (· = '.')).reverse

/-- `config::fixed_overhead_shared_vector_ram_bytes`. -/
def fixedOverheadSharedVectorRamBytes : Int := 16

/-- `config::overhead_per_row_per_index_ram_bytes`. -/
def overheadPerRowPerIndexRamBytes : Int := 32

/-- `config::overhead_per_account_ram_bytes`. -/
def overheadPerAccountRamBytes : Int := 2 * 1024

/-- `billable_size_v<shared_authority>`. -/
def billableSizeSharedAuthority : Int := 3 * fixedOverheadSharedVectorRamBytes + 4

/-- `billable_size_v<permission_object>`, which counts the usage row too. -/
def billableSizePermissionObject : Int :=
  (billableSizeSharedAuthority + 64) + 5 * overheadPerRowPerIndexRamBytes

/-- `billable_size_v<permission_link_object>`. -/
def billableSizePermissionLinkObject : Int := 40 + 3 * overheadPerRowPerIndexRamBytes

/-- The chain's configuration that the authorization code reads. -/
structure AuthConfig (K : Type) where
  /-- `max_transaction_delay` of the global configuration, in seconds. -/
  max_transaction_delay : UInt32
  /-- `max_authority_depth` of the global configuration. -/
  max_authority_depth : UInt16
  /-- `protocol_state_object::num_supported_key_types`. -/
  num_supported_key_types : Nat
  /-- `public_key_type::which()`, the type of a key. -/
  key_type : K → Nat
  /-- `fc::raw::pack_size` of a key. -/
  key_pack_size : K → Nat
  /-- Whether `only_link_to_existing_permission` is activated. -/
  only_link_to_existing_permission : Bool

/-- `authority::get_billable_size`. -/
def Authority.billableSize (cfg : AuthConfig K) (auth : Authority K) : Int :=
  auth.accounts.length * 24 + auth.waits.length * 16 +
    (auth.keys.map fun k => (8 + cfg.key_pack_size k.key : Int)).sum

/-! ## Validation of an authority -/

/-- `permission_level::operator<`: by actor, then by permission name. -/
def PermissionLevel.lt (a b : PermissionLevel) : Bool :=
  a.actor.value < b.actor.value || (a.actor == b.actor && a.permission.value < b.permission.value)

/-- Each element is `lt` the next: the loops of `validate` with their `prev` pointer. -/
def ascending {α : Type} (lt : α → α → Bool) : List α → Bool
  | a :: b :: l => lt a b && ascending lt (b :: l)
  | _ => true

/-- `validate(authority)`: at most `2^16` entries, a threshold, keys, accounts and waits each in
strictly ascending order, no zero wait, and a total weight that reaches the threshold. -/
def validate [LT K] [DecidableLT K] (auth : Authority K) : Bool :=
  if auth.keys.length + auth.accounts.length + auth.waits.length > 2 ^ 16 then false
  else if auth.threshold = 0 then false
  else
    let total_weight : UInt32 :=
      auth.waits.foldl (fun t w => t + w.weight.toUInt32)
        (auth.accounts.foldl (fun t a => t + a.weight.toUInt32)
          (auth.keys.foldl (fun t k => t + k.weight.toUInt32) 0))
    ascending (fun a b : KeyWeight K => decide (a.key < b.key)) auth.keys &&
      ascending (fun a b : PermissionLevelWeight => PermissionLevel.lt a.permission b.permission)
        auth.accounts &&
      (match auth.waits with
        | w :: _ => w.wait_sec != 0
        | [] => true) &&
      ascending (fun a b : WaitWeight => decide (a.wait_sec < b.wait_sec)) auth.waits &&
      decide (total_weight ≥ auth.threshold)

/-! ## The tables -/

/-- `account_object`, with `is_privileged` of its `account_metadata_object`. -/
structure AccountObject where
  /-- The account name, unique. -/
  name : Name
  /-- `account_metadata_object::is_privileged()`. -/
  privileged : Bool

/-- Two accounts clash in the name index. -/
def AccountObject.clash (a b : AccountObject) : Prop := a.name = b.name

instance : DecidableRel AccountObject.clash := fun a b =>
  inferInstanceAs (Decidable (a.name = b.name))

/-- `permission_object`, without its usage and its times. -/
structure PermissionObject (K : Type) where
  /-- The id. -/
  id : Nat
  /-- The parent's id, `0` for an `owner` permission. -/
  parent : Nat
  /-- The account that it belongs to. -/
  owner : Name
  /-- Its name. -/
  name : Name
  /-- The authority that it requires. -/
  auth : Authority K

/-- Two permissions clash in the id index or in the index of owner and name. -/
def PermissionObject.clash (a b : PermissionObject K) : Prop :=
  a.id = b.id ∨ (a.owner = b.owner ∧ a.name = b.name)

instance : DecidableRel (PermissionObject.clash (K := K)) := fun a b =>
  inferInstanceAs (Decidable (a.id = b.id ∨ (a.owner = b.owner ∧ a.name = b.name)))

/-- `permission_link_object`. -/
structure PermissionLinkObject where
  /-- The account that sets the requirement. -/
  account : Name
  /-- The contract. -/
  code : Name
  /-- The action type, empty for every action of the contract. -/
  message_type : Name
  /-- The least permission that may authorize it. -/
  required_permission : Name

/-- Two links clash in the index of account, contract and action type. -/
def PermissionLinkObject.clash (a b : PermissionLinkObject) : Prop :=
  a.account = b.account ∧ a.code = b.code ∧ a.message_type = b.message_type

instance : DecidableRel PermissionLinkObject.clash := fun a b =>
  inferInstanceAs (Decidable (a.account = b.account ∧ a.code = b.code ∧
    a.message_type = b.message_type))

/-- The tables that the authorization code reads and writes, with the next id of the permission
table and the RAM charged to each account. -/
structure AuthState (K : Type) where
  /-- The accounts. -/
  accounts : IndexedTable AccountObject AccountObject.clash
  /-- The permissions. -/
  permissions : IndexedTable (PermissionObject K) PermissionObject.clash
  /-- The id that the next permission gets. -/
  next_permission_id : Nat
  /-- The permission links. -/
  links : IndexedTable PermissionLinkObject PermissionLinkObject.clash
  /-- The RAM charged to each account. -/
  ram : Name → Int

/-- The reserved permission `0`, as `_db.create<permission_object>([](auto&){})` leaves it. -/
def rootPermission : PermissionObject K := ⟨0, 0, ⟨0⟩, ⟨0⟩, ⟨0, [], [], []⟩⟩

/-- `authorization_manager::initialize_database`: no account, and the reserved permission. -/
def AuthState.init : AuthState K where
  accounts := .empty
  permissions := ⟨[rootPermission], List.pairwise_singleton _ _⟩
  next_permission_id := 1
  links := .empty
  ram := fun _ => 0

/-- The lookup of account `n`. -/
def byName (n : Name) (a : AccountObject) : Bool := a.name == n

/-- The lookup `by_owner` of a permission. -/
def byOwner (owner name : Name) (p : PermissionObject K) : Bool := p.owner == owner && p.name == name

/-- The lookup `by_id` of a permission. -/
def byId (id : Nat) (p : PermissionObject K) : Bool := p.id == id

/-- The lookup `by_action_name` of a link. -/
def byActionName (account code message_type : Name) (l : PermissionLinkObject) : Bool :=
  l.account == account && l.code == code && l.message_type == message_type

/-- `apply_context::is_account`. -/
def AuthState.isAccount (s : AuthState K) (n : Name) : Bool := s.accounts.rows.any (byName n)

/-- `authorization_manager::find_permission`. -/
def findPermission (s : AuthState K) (level : PermissionLevel) :
    Except Exception (Option (PermissionObject K)) := do
  eosAssert (!level.actor.empty && !level.permission.empty) .invalid_permission "Invalid permission"
  pure (s.permissions.find? (byOwner level.actor level.permission))

/-- `authorization_manager::get_permission`. -/
def getPermission (s : AuthState K) (level : PermissionLevel) :
    Except Exception (PermissionObject K) := do
  eosAssert (!level.actor.empty && !level.permission.empty) .invalid_permission "Invalid permission"
  liftDb .permission_query_exception "Failed to retrieve permission: ${level}"
    (s.permissions.find? (byOwner level.actor level.permission))

/-- The permission table as the authority checker reads it. -/
def AuthState.permissionAuth (s : AuthState K) (level : PermissionLevel) : Option (Authority K) :=
  (s.permissions.find? (byOwner level.actor level.permission)).map (·.auth)

/-- `authorization_manager::create_permission`: every key of a supported type, and a new row
with the next id. -/
def createPermission (cfg : AuthConfig K) (s : AuthState K) (account name : Name) (parent : Nat)
    (auth : Authority K) : Except Exception (AuthState K × PermissionObject K) := do
  eosAssert (auth.keys.all fun k => cfg.key_type k.key < cfg.num_supported_key_types)
    .unactivated_key_type "Unactivated key type used when creating permission"
  let perm : PermissionObject K := ⟨s.next_permission_id, parent, account, name, auth⟩
  let permissions ← liftDb .unique_index_violation "could not insert object"
    (s.permissions.create perm)
  pure ({ s with permissions, next_permission_id := s.next_permission_id + 1 }, perm)

/-- `authorization_manager::modify_permission`: a new authority for the row. -/
def modifyPermission (cfg : AuthConfig K) (s : AuthState K) (permission : PermissionObject K)
    (auth : Authority K) : Except Exception (AuthState K) := do
  eosAssert (auth.keys.all fun k => cfg.key_type k.key < cfg.num_supported_key_types)
    .unactivated_key_type "Unactivated key type used when modifying permission"
  let permissions ← liftDb .unique_index_violation "could not modify object"
    (s.permissions.modify (byId permission.id) fun p => { p with auth })
  pure { s with permissions }

/-- `authorization_manager::remove_permission`: only a permission with no children. -/
def removePermission (s : AuthState K) (permission : PermissionObject K) :
    Except Exception (AuthState K) := do
  eosAssert (s.permissions.rows.all fun p => p.parent != permission.id) .action_validate_exception
    "Cannot remove a permission which has children. Remove the children first."
  pure { s with permissions := s.permissions.remove (byId permission.id) }

/-! ## Links -/

/-- `authorization_manager::lookup_linked_permission`: the link of the action, else the link of the
contract. -/
def lookupLinkedPermission (s : AuthState K) (authorizer_account scope act_name : Name) :
    Option Name :=
  match s.links.find? (byActionName authorizer_account scope act_name) with
  | some link => some link.required_permission
  | none => (s.links.find? (byActionName authorizer_account scope emptyName)).map
      (·.required_permission)

/-- `authorization_manager::lookup_minimum_permission`: none for `eosio.any`, `active` without a
link; native actions of `eosio` that cannot be linked are refused. -/
def lookupMinimumPermission (s : AuthState K) (authorizer_account scope act_name : Name) :
    Except Exception (Option Name) := do
  if scope = systemAccountName then
    eosAssert (act_name != updateauthName && act_name != deleteauthName &&
        act_name != linkauthName && act_name != unlinkauthName && act_name != canceldelayName)
      .unlinkable_min_permission_action
      "cannot call lookup_minimum_permission on native actions that are not allowed to be linked to minimum permissions"
  match lookupLinkedPermission s authorizer_account scope act_name with
  | none => pure (some activeName)
  | some linked => pure (if linked = eosioAnyName then none else some linked)

/-! ## The parent walk -/

/-- The loop of `permission_object::satisfies` from the permission `parent`, looking for the id
`id` among the parents, with `fuel` iterations left. -/
def satisfiesWalk (rows : List (PermissionObject K)) (id : Nat) :
    Nat → PermissionObject K → Option Bool
  | 0, _ => none
  | fuel + 1, parent =>
    if id = parent.parent then some true
    else if parent.parent = 0 then some false
    else match rows.find? (byId parent.parent) with
      | some next => satisfiesWalk rows id fuel next
      | none => none

/-- `permission_object::satisfies`: whether `self` is `other` or one of its ancestors, in the same
account; `none` when the walk up `other`'s parents does not end within `fuel` iterations or
reaches a missing parent. -/
def PermissionObject.satisfies (self other : PermissionObject K)
    (permission_index : IndexedTable (PermissionObject K) PermissionObject.clash) (fuel : Nat) :
    Option Bool :=
  if self.owner ≠ other.owner then some false
  else if self.id = other.id ∨ self.id = other.parent then some true
  else match permission_index.find? (byId other.parent) with
    | some parent => satisfiesWalk permission_index.rows self.id fuel parent
    | none => none

end InfraBlockchain.Auth
