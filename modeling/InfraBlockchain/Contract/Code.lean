import Mathlib
import InfraBlockchain.Lib.Machine
import InfraBlockchain.Lib.IndexedTable
import InfraBlockchain.Token.Ram
import InfraBlockchain.Auth.Satisfies

/-!
# Contract code and its reference counts

`apply_eosio_setcode` (`eosio_contract.cpp`) keeps one `code_object` for each code that some
account runs, keyed by the code's hash and its VM, with the number of accounts that run it
(`code_ref_count`); an account's `account_metadata_object` names its code by the same key, the
all-zero hash meaning no code. Setting code releases the account's old code, removing its row when
the account was its last user and decrementing the count otherwise, then takes the new code,
incrementing the count of a row already there or creating one, and charges the account ten bytes of
RAM for each byte of the new code less as much for the old. `apply_eosio_newaccount` creates the
metadata row of a new account, with no code.

The invariant (`CodeInv`) says that the row at each key counts the accounts that name it, and is
there exactly when that count is positive (`CodeInv.counts`), and that each row holds a code of the
run with its hash (`CodeInv.stored`). A setcode changes the key of one account only, so the count of
a key moves by at most one (`refCount_replace`), which the row of that key follows
(`applySetcode_spec`, with `releasedCodes` and `takenCodes` for the two halves); no count wraps,
because the accounts have distinct non-empty names (`refCount_lt`). With a hash that separates the
codes of the run and never gives the zero hash to a non-empty code, each setcode charges an account
ten bytes for each byte by which its code grew (`CodeInv.ram_setcode`), and these charges telescope
over a run (`CodeInv.run`): from genesis, what setcode has charged each account is ten times the
size of the code it runs.

Not modelled: the WASM validation, which is a parameter that may reject a code; the cache of the
WASM interface (`code_block_num_last_used`); the other fields of the metadata row
(`recv_sequence`, `auth_sequence`, `abi_sequence`, `abi`), which neither action reads; and
`is_privileged`, which the authorization model keeps on the account row. The hash is taken of the
whole code, where the source casts the size to 32 bits: an action's data is far below 4 GiB.
-/

namespace InfraBlockchain.Contract

open IndexedTable
open Token (ApplyContext requireAuthorization addRamUsage)
open Auth (AuthState AuthConfig Newaccount)

variable {K H : Type}

/-- `config::setcode_ram_bytes_multiplier`. -/
def setcodeRamBytesMultiplier : Int := 10

/-- What `setcode` uses besides the tables: the hash, the zero hash, and the WASM validator. -/
structure CodeConfig (H : Type) where
  /-- `fc::sha256::hash` of a code. -/
  hash : List UInt8 → H
  /-- `digest_type()`: the all-zero hash, for no code. -/
  zero : H
  /-- `wasm_interface::validate`. -/
  validate : List UInt8 → Except Exception Unit

/-- `account_metadata_object`, with the fields that `setcode` and `newaccount` write. -/
structure AccountMetadataObject (H : Type) where
  /-- `name`, unique. -/
  name : Name
  /-- `code_sequence`. -/
  code_sequence : UInt64
  /-- `code_hash`: the zero hash when the account has no code. -/
  code_hash : H
  /-- `vm_type`. -/
  vm_type : UInt8
  /-- `vm_version`. -/
  vm_version : UInt8
  /-- `last_code_update`, in microseconds. -/
  last_code_update : UInt64

/-- Two metadata rows clash in the name index. -/
def AccountMetadataObject.clash (a b : AccountMetadataObject H) : Prop := a.name = b.name

instance : DecidableRel (@AccountMetadataObject.clash H) := fun a b =>
  inferInstanceAs (Decidable (a.name = b.name))

/-- The key of the code row that a metadata row names. -/
def AccountMetadataObject.codeKey (m : AccountMetadataObject H) : H × UInt8 × UInt8 :=
  (m.code_hash, m.vm_type, m.vm_version)

/-- `code_object`. -/
structure CodeObject (H : Type) where
  /-- `code_hash`. -/
  code_hash : H
  /-- `code`. -/
  code : List UInt8
  /-- `code_ref_count`. -/
  code_ref_count : UInt64
  /-- `first_block_used`. -/
  first_block_used : UInt32
  /-- `vm_type`. -/
  vm_type : UInt8
  /-- `vm_version`. -/
  vm_version : UInt8

/-- The key of the `by_code_hash` index. -/
def CodeObject.key (o : CodeObject H) : H × UInt8 × UInt8 := (o.code_hash, o.vm_type, o.vm_version)

/-- Two code rows clash in the `by_code_hash` index. -/
def CodeObject.clash (a b : CodeObject H) : Prop := a.key = b.key

instance [DecidableEq H] : DecidableRel (@CodeObject.clash H) := fun a b =>
  inferInstanceAs (Decidable (a.key = b.key))

/-- What `setcode` and `newaccount` read and write: the authorization manager's tables with the
RAM ledger, the metadata rows and the code rows. -/
structure CodeState (K H : Type) where
  /-- Accounts, permissions, links and the RAM charged to each account. -/
  auth : AuthState K
  /-- The `account_metadata_object`s. -/
  metadata : IndexedTable (AccountMetadataObject H) AccountMetadataObject.clash
  /-- The `code_object`s. -/
  codes : IndexedTable (CodeObject H) CodeObject.clash

/-- The data of `setcode`. -/
structure Setcode where
  /-- The account whose code is set. -/
  account : Name
  /-- `vmtype`. -/
  vmtype : UInt8
  /-- `vmversion`. -/
  vmversion : UInt8
  /-- The code, empty to clear it. -/
  code : List UInt8

/-- The metadata row of a new account: no code. -/
def AccountMetadataObject.new (name : Name) (zero : H) : AccountMetadataObject H :=
  ⟨name, 0, zero, 0, 0, 0⟩

/-- `apply_eosio_newaccount`: the authorization model's handler, and the metadata row that it
creates right after the account row. -/
def applyNewaccount [LT K] [DecidableLT K] (acfg : AuthConfig K) (cfg : CodeConfig H)
    (ctx : ApplyContext) (s : CodeState K H) (create : Newaccount K) :
    Except Exception (CodeState K H) := do
  let auth ← Auth.applyNewaccount acfg ctx s.auth create
  let metadata ← liftDb .unique_index_violation "could not insert object"
    (s.metadata.create (.new create.name cfg.zero))
  pure { s with auth, metadata }

/-- The release of an account's old code in `setcode`: the row is removed when the account was its
last user and its count decremented otherwise; with the RAM that the old code took. -/
def releaseOldCode [DecidableEq H] (codes : IndexedTable (CodeObject H) CodeObject.clash)
    (account : AccountMetadataObject H) (code_hash : H) :
    Except Exception (IndexedTable (CodeObject H) CodeObject.clash × Int) := do
  let old_code_entry ← liftDb .unknown_key "unknown key"
    (codes.lookup CodeObject.key account.codeKey)
  eosAssert (old_code_entry.code_hash != code_hash) .set_exact_code
    "contract is already running this version of code"
  let old_size : Int := old_code_entry.code.length * setcodeRamBytesMultiplier
  if old_code_entry.code_ref_count == 1 then
    pure (codes.remove (fun o => o.key == account.codeKey), old_size)
  else
    let codes ← liftDb .unique_index_violation "could not modify object"
      (codes.modify (fun o => o.key == account.codeKey)
        fun o => { o with code_ref_count := o.code_ref_count - 1 })
    pure (codes, old_size)

/-- The new code taken in `setcode`: the count of its row incremented, or a row created. -/
def takeNewCode [DecidableEq H] (codes : IndexedTable (CodeObject H) CodeObject.clash)
    (code_hash : H) (act : Setcode) (head_block_num : UInt32) :
    Except Exception (IndexedTable (CodeObject H) CodeObject.clash) :=
  match codes.lookup CodeObject.key (code_hash, act.vmtype, act.vmversion) with
  | some _ => liftDb .unique_index_violation "could not modify object"
      (codes.modify (fun o => o.key == (code_hash, act.vmtype, act.vmversion))
        fun o => { o with code_ref_count := o.code_ref_count + 1 })
  | none => liftDb .unique_index_violation "could not insert object"
      (codes.create ⟨code_hash, act.code, 1, head_block_num + 1, act.vmtype, act.vmversion⟩)

/-- The update of the account's metadata row in `setcode`. -/
def setMetadata (code_hash : H) (act : Setcode) (pending_block_time : UInt64)
    (a : AccountMetadataObject H) : AccountMetadataObject H :=
  { a with
    code_sequence := a.code_sequence + 1
    code_hash
    vm_type := act.vmtype
    vm_version := act.vmversion
    last_code_update := pending_block_time }

/-- `apply_eosio_setcode`. -/
def applySetcode [DecidableEq H] (cfg : CodeConfig H) (ctx : ApplyContext) (head_block_num : UInt32)
    (pending_block_time : UInt64) (s : CodeState K H) (act : Setcode) :
    Except Exception (CodeState K H) := do
  requireAuthorization ctx act.account
  eosAssert (act.vmtype == 0) .invalid_contract_vm_type "code should be 0"
  eosAssert (act.vmversion == 0) .invalid_contract_vm_version "version should be 0"
  let code_size : Int := act.code.length
  let code_hash := if code_size > 0 then cfg.hash act.code else cfg.zero
  (if code_size > 0 then cfg.validate act.code else pure ())
  let account ← liftDb .unknown_key "unknown key" (s.metadata.lookup (·.name) act.account)
  let existing_code := account.code_hash != cfg.zero
  eosAssert (code_size > 0 || existing_code) .set_exact_code "contract is already cleared"
  let new_size := code_size * setcodeRamBytesMultiplier
  let released ← (if existing_code then releaseOldCode s.codes account code_hash
    else pure (s.codes, 0))
  let codes ← (if code_size > 0 then takeNewCode released.1 code_hash act head_block_num
    else pure released.1)
  let metadata ← liftDb .unique_index_violation "could not modify object"
    (s.metadata.modify (fun a => a.name == act.account)
      (setMetadata code_hash act pending_block_time))
  let s := { s with codes, metadata }
  if new_size != released.2 then
    let ram := addRamUsage s.auth.ram act.account (new_size - released.2)
    pure { s with auth := { s.auth with ram } }
  else pure s

/-- A native action on accounts and code, with the context it runs in. -/
inductive CodeRequest (K : Type) where
  | newaccount (ctx : ApplyContext) (act : Newaccount K)
  | setcode (ctx : ApplyContext) (head_block_num : UInt32) (pending_block_time : UInt64)
      (act : Setcode)

/-- One request: the handler of its action. -/
def codeStep [LT K] [DecidableLT K] [DecidableEq H] (acfg : AuthConfig K) (cfg : CodeConfig H)
    (s : CodeState K H) : CodeRequest K → Except Exception (CodeState K H)
  | .newaccount ctx act => applyNewaccount acfg cfg ctx s act
  | .setcode ctx head_block_num pending_block_time act =>
    applySetcode cfg ctx head_block_num pending_block_time s act

/-- The metadata rows of the accounts of an authorization state, none with code, and no code
row: the state before any `setcode`. -/
def CodeState.ofAuth (auth : AuthState K) (zero : H) : CodeState K H where
  auth := auth
  metadata := ⟨auth.accounts.rows.map (fun a => .new a.name zero),
    List.Pairwise.map _ (fun _ _ h h' => h h') auth.accounts.no_clash⟩
  codes := .empty

/-- The codes that the `setcode`s of a run set. -/
def setcodeCodes (reqs : List (CodeRequest K)) : List (List UInt8) :=
  reqs.filterMap fun
    | .setcode _ _ _ act => some act.code
    | .newaccount .. => none

/-- What request `r` from `s` to `s'` charged account `a` if it is a `setcode`. -/
def setcodeCharge (a : Name) (s : CodeState K H) (r : CodeRequest K) (s' : CodeState K H) : Int :=
  match r with
  | .newaccount .. => 0
  | .setcode .. => s'.auth.ram a - s.auth.ram a

/-- What the `setcode`s of a run have charged account `a`. -/
def setcodeCharged [LT K] [DecidableLT K] [DecidableEq H] (acfg : AuthConfig K)
    (cfg : CodeConfig H) (a : Name) (s : CodeState K H) (reqs : List (CodeRequest K)) : Int :=
  Machine.runSum (codeStep acfg cfg) (setcodeCharge a) s reqs

/-! ## What each handler does -/

/-- Equal keys clash in the code index. -/
theorem CodeObject.clash_of_key {a b : CodeObject H} (h : a.key = b.key) : CodeObject.clash a b := h

/-- Equal names clash in the metadata index. -/
theorem AccountMetadataObject.clash_of_name {a b : AccountMetadataObject H} (h : a.name = b.name) :
    AccountMetadataObject.clash a b := h

/-- What a successful `newaccount` does to the code tables: the new account, with a non-empty name
that no metadata row had, gets a row without code. -/
theorem applyNewaccount_ok [LT K] [DecidableLT K] {acfg : AuthConfig K} {cfg : CodeConfig H}
    {ctx : ApplyContext} {s s' : CodeState K H} {create : Newaccount K}
    (h : applyNewaccount acfg cfg ctx s create = .ok s') :
    create.name.empty = false ∧ s'.codes = s.codes ∧
      s.metadata.lookup (·.name) create.name = none ∧
      s'.metadata.rows = s.metadata.rows ++ [.new create.name cfg.zero] := by
  unfold applyNewaccount at h
  rw [bind_eq_ok] at h
  obtain ⟨auth, hauth, h⟩ := h
  rw [liftDb_bind] at h
  rcases hmd : s.metadata.create (.new create.name cfg.zero) with _ | metadata
  · simp [hmd] at h
  · simp only [hmd, pure, Except.pure, Except.ok.injEq] at h
    subst h
    have hname : create.name.empty = false := by
      simp only [Auth.applyNewaccount, bind_eq_ok, eosAssert_eq_ok] at hauth
      obtain ⟨-, -, -, -, -, -, -, hne, -⟩ := hauth
      simpa using hne
    obtain ⟨hfresh, -⟩ := lookup_of_create
      (fun a b (e : a.name = b.name) => AccountMetadataObject.clash_of_name e) hmd create.name
    exact ⟨hname, rfl, hfresh, rows_of_create hmd⟩

section Handlers

variable [DecidableEq H]

/-- `add_ram_usage` of nothing changes nothing. -/
theorem addRamUsage_zero (ram : Name → Int) (a : Name) : addRamUsage ram a 0 = ram := by
  simp [addRamUsage]

/-- A successful release found the old row, with another hash than the new code's, and left the
lookup at its key empty or decremented. -/
theorem releaseOldCode_lookup {codes codes' : IndexedTable (CodeObject H) CodeObject.clash}
    {account : AccountMetadataObject H} {code_hash : H} {old_size : Int}
    (h : releaseOldCode codes account code_hash = .ok (codes', old_size)) :
    ∃ old, codes.lookup CodeObject.key account.codeKey = some old ∧ old.code_hash ≠ code_hash ∧
      old_size = old.code.length * setcodeRamBytesMultiplier ∧
      ∀ k, codes'.lookup CodeObject.key k =
        if k = account.codeKey then
          (if old.code_ref_count = 1 then none else some { old with code_ref_count := old.code_ref_count - 1 })
        else codes.lookup CodeObject.key k := by
  unfold releaseOldCode at h
  rw [liftDb_bind] at h
  rcases hold : codes.lookup CodeObject.key account.codeKey with _ | old
  · simp [hold] at h
  · simp only [hold, eosAssert_bind] at h
    split_ifs at h with hne hone
    · -- the account was the last user: the row goes
      simp only [pure, Except.pure, Except.ok.injEq, Prod.mk.injEq] at h
      obtain ⟨rfl, rfl⟩ := h
      refine ⟨old, rfl, by simpa using hne, rfl, fun k => ?_⟩
      rw [lookup_remove]
      split_ifs <;> simp_all
    · -- another account still runs it: the count goes down
      rw [liftDb_bind] at h
      rcases hmod : codes.modify (fun o => o.key == account.codeKey)
          (fun o => { o with code_ref_count := o.code_ref_count - 1 }) with _ | codes₁
      · simp [hmod] at h
      · simp only [hmod, pure, Except.pure, Except.ok.injEq, Prod.mk.injEq] at h
        obtain ⟨rfl, rfl⟩ := h
        refine ⟨old, rfl, by simpa using hne, rfl, fun k => ?_⟩
        rw [lookup_of_modify hmod (fun _ => rfl), hold]
        split_ifs <;> simp_all

/-- A successful take set the lookup at the new code's key to its row, incremented or created, and
left the others. -/
theorem takeNewCode_lookup {codes codes' : IndexedTable (CodeObject H) CodeObject.clash}
    {code_hash : H} {act : Setcode} {head_block_num : UInt32}
    (h : takeNewCode codes code_hash act head_block_num = .ok codes') (k : H × UInt8 × UInt8) :
    codes'.lookup CodeObject.key k =
      if k = (code_hash, act.vmtype, act.vmversion) then
        some (match codes.lookup CodeObject.key (code_hash, act.vmtype, act.vmversion) with
          | some o => { o with code_ref_count := o.code_ref_count + 1 }
          | none => ⟨code_hash, act.code, 1, head_block_num + 1, act.vmtype, act.vmversion⟩)
      else codes.lookup CodeObject.key k := by
  unfold takeNewCode at h
  rcases hnew : codes.lookup CodeObject.key (code_hash, act.vmtype, act.vmversion) with _ | o
  · -- no account runs the code: a row is created
    rw [hnew, liftDb_eq_ok] at h
    obtain ⟨-, hk⟩ := lookup_of_create (fun a b (e : a.key = b.key) => CodeObject.clash_of_key e) h k
    rw [hk]
    rfl
  · rw [hnew, liftDb_eq_ok] at h
    rw [lookup_of_modify h (fun _ => rfl), hnew]
    rfl

/-- The hash that `setcode` gives the account: the code's, or zero to clear it. -/
def setcodeHash (cfg : CodeConfig H) (act : Setcode) : H :=
  if 0 < act.code.length then cfg.hash act.code else cfg.zero

/-- What a successful `setcode` checked and did, one part after the other. -/
theorem applySetcode_ok {cfg : CodeConfig H} {ctx : ApplyContext} {head_block_num : UInt32}
    {pending_block_time : UInt64} {s s' : CodeState K H} {act : Setcode}
    (h : applySetcode cfg ctx head_block_num pending_block_time s act = .ok s') :
    ∃ account released codes metadata,
      act.vmtype = 0 ∧ act.vmversion = 0 ∧
      s.metadata.lookup (·.name) act.account = some account ∧
      (0 < act.code.length ∨ account.code_hash ≠ cfg.zero) ∧
      (if account.code_hash ≠ cfg.zero then
        releaseOldCode s.codes account (setcodeHash cfg act) = .ok released
      else released = (s.codes, 0)) ∧
      (if 0 < act.code.length then
        takeNewCode released.1 (setcodeHash cfg act) act head_block_num = .ok codes
      else codes = released.1) ∧
      s.metadata.modify (fun a => a.name == act.account)
        (setMetadata (setcodeHash cfg act) act pending_block_time) = some metadata ∧
      s'.codes = codes ∧ s'.metadata = metadata ∧
      s'.auth.ram = addRamUsage s.auth.ram act.account
        (act.code.length * setcodeRamBytesMultiplier - released.2) := by
  simp only [applySetcode, bind_eq_ok, eosAssert_eq_ok, liftDb_eq_ok] at h
  obtain ⟨-, -, -, hvt, -, hvv, -, -, account, hacc, -, hex, released, hrel, codes, htake,
    metadata, hmd, hfin⟩ := h
  have hhash : (if (act.code.length : Int) > 0 then cfg.hash act.code else cfg.zero) =
      setcodeHash cfg act := by
    simp [setcodeHash]
  rw [hhash] at hrel htake hmd
  refine ⟨account, released, codes, metadata, by simpa using hvt, by simpa using hvv, hacc,
    by simpa using hex, ?_, ?_, hmd, ?_⟩
  · -- the old code is released only when the account has one
    split_ifs at hrel with hc
    · rw [if_pos (by simpa using hc)]
      exact hrel
    · rw [if_neg (by simpa using hc)]
      exact (Except.ok.inj hrel).symm
  · split_ifs at htake with hl
    · rw [if_pos (by simpa using hl)]
      exact htake
    · rw [if_neg (by simpa using hl)]
      exact (Except.ok.inj htake).symm
  · split_ifs at hfin with hne
    · cases hfin
      exact ⟨rfl, rfl, rfl⟩
    · cases hfin
      have hzero : (act.code.length : Int) * setcodeRamBytesMultiplier - released.2 = 0 := by
        simp only [bne_iff_ne, ne_eq, not_not] at hne
        omega
      refine ⟨rfl, rfl, ?_⟩
      rw [hzero, addRamUsage_zero]

end Handlers

/-! ## The counts of the code rows -/

section Counts

variable [DecidableEq H]

/-- Whether metadata row `m` names code row `k` with code. -/
def names (zero : H) (m : AccountMetadataObject H) (k : H × UInt8 × UInt8) : Bool :=
  m.code_hash != zero && m.codeKey == k

/-- The number of accounts whose metadata names code row `k` with code. -/
def refCount (zero : H) (rows : List (AccountMetadataObject H)) (k : H × UInt8 × UInt8) : Nat :=
  rows.countP (names zero · k)

/-- The count that a row must hold for `n` users: none without users. -/
def countOf (n : Nat) : Option Nat := if n = 0 then none else some n

/-- The size of the code that account `a` runs, zero without code. -/
def codeSize (zero : H) (s : CodeState K H) (a : Name) : Nat :=
  match s.metadata.lookup (·.name) a with
  | some m =>
    if m.code_hash = zero then 0
    else ((s.codes.lookup CodeObject.key m.codeKey).map (·.code.length)).getD 0
  | none => 0

/-- The invariant of the code tables, for the codes `C` of a run. -/
structure CodeInv (cfg : CodeConfig H) (C : List (List UInt8)) (s : CodeState K H) : Prop where
  /-- The row at each key counts the accounts that name it, and is there exactly when one does. -/
  counts : ∀ k, (s.codes.lookup CodeObject.key k).map (·.code_ref_count.toNat) =
    countOf (refCount cfg.zero s.metadata.rows k)
  /-- Each row holds a code of the run, with its hash. -/
  stored : ∀ k o, s.codes.lookup CodeObject.key k = some o → o.code ∈ C ∧ cfg.hash o.code = o.code_hash
  /-- No account has the empty name. -/
  nonempty : ∀ m ∈ s.metadata.rows, m.name.value ≠ 0

/-- Replacing one metadata row moves each count by what the two rows name. -/
theorem refCount_replace (zero : H) (l₁ l₂ : List (AccountMetadataObject H))
    (r r' : AccountMetadataObject H) (k : H × UInt8 × UInt8) :
    refCount zero (l₁ ++ r' :: l₂) k + (if names zero r k then 1 else 0) =
      refCount zero (l₁ ++ r :: l₂) k + (if names zero r' k then 1 else 0) := by
  simp only [refCount, List.countP_append, List.countP_cons]
  omega

/-- Accounts with distinct non-empty names are fewer than `2^64`, so a count of the accounts that
name a key, one of them excluded, can be incremented without wrapping. -/
theorem refCount_lt {zero : H} {rows : List (AccountMetadataObject H)}
    (hnodup : rows.Pairwise fun a b => ¬ AccountMetadataObject.clash a b)
    (hname : ∀ m ∈ rows, m.name.value ≠ 0) {r : AccountMetadataObject H} (hr : r ∈ rows)
    {k : H × UInt8 × UInt8} (hk : names zero r k = false) : refCount zero rows k + 1 < 2 ^ 64 := by
  have hlt : refCount zero rows k < rows.length := by
    rw [refCount, List.countP_eq_length_filter]
    exact List.length_filter_lt_length_iff_exists.2 ⟨r, hr, by simp [hk]⟩
  -- the names, as numbers, are distinct and lie in `[1, 2^64)`
  have hsub : (rows.map (·.name.value.toNat)).Subperm (List.range' 1 (2 ^ 64 - 1)) := by
    apply List.Nodup.subperm
    · refine List.Pairwise.map _ (fun a b hab e => hab ?_) hnodup
      exact congrArg Name.mk (UInt64.toNat_inj.1 e)
    · intro x hx
      obtain ⟨m, hm, rfl⟩ := List.mem_map.1 hx
      have h0 : m.name.value.toNat ≠ 0 := fun e => hname m hm (UInt64.toNat_inj.1 (by simpa using e))
      have hlt := m.name.value.toNat_lt
      rw [List.mem_range']
      exact ⟨m.name.value.toNat - 1, by omega, by omega⟩
  have hlen := hsub.length_le
  simp only [List.length_map, List.length_range'] at hlen
  omega

/-- The code rows at each key after the release of `account`'s old code. -/
def releasedCodes (zero : H) (codes : H × UInt8 × UInt8 → Option (CodeObject H))
    (account : AccountMetadataObject H) (k : H × UInt8 × UInt8) : Option (CodeObject H) :=
  if account.code_hash ≠ zero ∧ k = account.codeKey then
    (codes k).bind fun old =>
      if old.code_ref_count = 1 then none
      else some { old with code_ref_count := old.code_ref_count - 1 }
  else codes k

/-- The code rows at each key after the new code of `act` is taken. -/
def takenCodes (codes : H × UInt8 × UInt8 → Option (CodeObject H)) (code_hash : H) (act : Setcode)
    (head_block_num : UInt32) (k : H × UInt8 × UInt8) : Option (CodeObject H) :=
  if 0 < act.code.length ∧ k = (code_hash, act.vmtype, act.vmversion) then
    some (match codes k with
      | some o => { o with code_ref_count := o.code_ref_count + 1 }
      | none => ⟨code_hash, act.code, 1, head_block_num + 1, act.vmtype, act.vmversion⟩)
  else codes k

/-- A successful `setcode`, at the level of lookups: the account's metadata row is replaced in its
place, the code rows are its old code released and its new code taken, and the account is charged
the new code's RAM less the old's. -/
theorem applySetcode_spec {cfg : CodeConfig H} {ctx : ApplyContext} {head_block_num : UInt32}
    {pending_block_time : UInt64} {s s' : CodeState K H} {act : Setcode}
    (h : applySetcode cfg ctx head_block_num pending_block_time s act = .ok s') :
    ∃ account, s.metadata.lookup (·.name) act.account = some account ∧
      act.vmtype = 0 ∧ act.vmversion = 0 ∧
      (0 < act.code.length ∨ account.code_hash ≠ cfg.zero) ∧
      (account.code_hash ≠ cfg.zero → ∃ old, s.codes.lookup CodeObject.key account.codeKey = some old ∧
        old.code_hash ≠ setcodeHash cfg act) ∧
      (∀ k, s'.codes.lookup CodeObject.key k = takenCodes
        (releasedCodes cfg.zero (s.codes.lookup CodeObject.key) account) (setcodeHash cfg act) act
        head_block_num k) ∧
      (∃ l₁ l₂, s.metadata.rows = l₁ ++ account :: l₂ ∧
        s'.metadata.rows = l₁ ++ setMetadata (setcodeHash cfg act) act pending_block_time account :: l₂) ∧
      (∀ b, s'.metadata.lookup (·.name) b = if b = act.account then
        some (setMetadata (setcodeHash cfg act) act pending_block_time account)
        else s.metadata.lookup (·.name) b) ∧
      s'.auth.ram = addRamUsage s.auth.ram act.account
        ((act.code.length : Int) * setcodeRamBytesMultiplier -
          codeSize cfg.zero s act.account * setcodeRamBytesMultiplier) := by
  obtain ⟨account, released, codes, metadata, hvt, hvv, hacc, hcode, hrel, htake, hmd, hcodes, hmeta,
    hram⟩ := applySetcode_ok h
  have hkey : ∀ a b : AccountMetadataObject H, a.name = b.name → AccountMetadataObject.clash a b :=
    fun _ _ e => e
  obtain ⟨l₁, l₂, hrows, hrows'⟩ := rows_of_modify_lookup hkey hacc hmd
  have hmeta_lookup := lookup_of_modify hmd (fun _ => rfl)
  -- the released rows and the RAM that the old code took
  have hreleased : (∀ k, released.1.lookup CodeObject.key k =
      releasedCodes cfg.zero (s.codes.lookup CodeObject.key) account k) ∧
      released.2 = codeSize cfg.zero s act.account * setcodeRamBytesMultiplier ∧
      (account.code_hash ≠ cfg.zero → ∃ old, s.codes.lookup CodeObject.key account.codeKey = some old ∧
        old.code_hash ≠ setcodeHash cfg act) := by
    by_cases hc : account.code_hash = cfg.zero
    · rw [if_neg (not_not.2 hc)] at hrel
      subst hrel
      refine ⟨fun k => by simp [releasedCodes, hc], by simp [codeSize, hacc, hc], fun h => absurd hc h⟩
    · rw [if_pos hc] at hrel
      obtain ⟨old, hold, hne, hsize, hlook⟩ := releaseOldCode_lookup hrel
      refine ⟨fun k => ?_, ?_, fun _ => ⟨old, hold, hne⟩⟩
      · rw [hlook]
        by_cases hk : k = account.codeKey
        · subst hk
          simp [releasedCodes, hc, hold]
        · simp [releasedCodes, hk]
      · rw [hsize]
        simp [codeSize, hacc, hc, hold]
  obtain ⟨hrel_lookup, hrel_size, hold⟩ := hreleased
  refine ⟨account, hacc, hvt, hvv, hcode, hold, fun k => ?_, ⟨l₁, l₂, hrows, hmeta ▸ hrows'⟩,
    fun b => by rw [hmeta, hmeta_lookup, hacc]; rfl, by rw [hram, hrel_size]⟩
  rw [hcodes]
  by_cases hl : 0 < act.code.length
  · rw [if_pos hl] at htake
    rw [takeNewCode_lookup htake, hrel_lookup, hrel_lookup]
    by_cases hk : k = (setcodeHash cfg act, act.vmtype, act.vmversion)
    · subst hk
      simp [takenCodes, hl]
    · simp [takenCodes, hk]
  · rw [if_neg hl] at htake
    rw [htake, hrel_lookup]
    simp [takenCodes, hl]

/-- What the updated metadata row names: the new code's key, when there is new code. -/
theorem names_setMetadata {cfg : CodeConfig H} {act : Setcode}
    (hz : 0 < act.code.length → cfg.hash act.code ≠ cfg.zero) (t : UInt64)
    (a : AccountMetadataObject H) (k : H × UInt8 × UInt8) :
    names cfg.zero (setMetadata (setcodeHash cfg act) act t a) k =
      decide (0 < act.code.length ∧ k = (setcodeHash cfg act, act.vmtype, act.vmversion)) := by
  by_cases hl : 0 < act.code.length
  · have hne : (cfg.hash act.code != cfg.zero) = true := bne_iff_ne.2 (hz hl)
    simp only [names, setMetadata, AccountMetadataObject.codeKey, setcodeHash, hl, ↓reduceIte, hne,
      Bool.true_and, true_and]
    exact Bool.eq_iff_iff.2 (by rw [beq_iff_eq, decide_eq_true_iff, eq_comm])
  · simp [names, setMetadata, setcodeHash, hl]

/-- A row of a lookup has the key it was looked up at. -/
theorem CodeObject.key_of_lookup {codes : IndexedTable (CodeObject H) CodeObject.clash}
    {k : H × UInt8 × UInt8} {o : CodeObject H} (h : codes.lookup CodeObject.key k = some o) :
    o.key = k :=
  (mem_of_lookup h).2

omit [DecidableEq H] in
/-- A count read off a row that is there, and the row that is there for a positive count. -/
theorem map_count_eq_countOf {o : Option (CodeObject H)} {n : Nat} :
    o.map (·.code_ref_count.toNat) = countOf n ↔
      (o = none ∧ n = 0) ∨ ∃ x, o = some x ∧ x.code_ref_count.toNat = n ∧ n ≠ 0 := by
  rcases o with _ | x <;> by_cases hn : n = 0 <;> simp [countOf, hn, eq_comm]

section Step

variable {cfg : CodeConfig H} {C : List (List UInt8)} {s : CodeState K H}

/-- After the release, the count at the key of the account's old code is one lower. -/
theorem CodeInv.releasedCodes_counts (hinv : CodeInv cfg C s) {account : AccountMetadataObject H}
    (hacc : account ∈ s.metadata.rows) (k : H × UInt8 × UInt8) :
    (releasedCodes cfg.zero (s.codes.lookup CodeObject.key) account k).map
        (·.code_ref_count.toNat) =
      countOf (refCount cfg.zero s.metadata.rows k - if names cfg.zero account k then 1 else 0) := by
  by_cases hk : account.code_hash ≠ cfg.zero ∧ k = account.codeKey
  · obtain ⟨hc, rfl⟩ := hk
    have hnames : names cfg.zero account account.codeKey = true := by simp [names, hc]
    have hpos : 0 < refCount cfg.zero s.metadata.rows account.codeKey :=
      List.countP_pos_iff.2 ⟨account, hacc, hnames⟩
    -- the account's old code has a row, which counts the account
    obtain ⟨-, hzero⟩ | ⟨old, hold, hcount, -⟩ := map_count_eq_countOf.1 (hinv.counts account.codeKey)
    · omega
    · by_cases hone : old.code_ref_count = 1
      · have : refCount cfg.zero s.metadata.rows account.codeKey = 1 := by
          rw [← hcount, hone]; rfl
        simp [releasedCodes, hc, hold, hone, hnames, this, countOf]
      · have hge : 1 ≤ old.code_ref_count := by
          rw [UInt64.le_iff_toNat_le]
          have : old.code_ref_count.toNat ≠ 0 := by omega
          simpa using Nat.one_le_iff_ne_zero.2 this
        have hne : old.code_ref_count.toNat ≠ 1 := fun e => hone (UInt64.toNat_inj.1 (by simpa using e))
        simp [releasedCodes, hc, hold, hone, hnames, countOf, UInt64.toNat_sub_of_le _ _ hge]
        omega
  · have hnames : names cfg.zero account k = false := by
      by_contra hn
      simp only [names, Bool.not_eq_false, Bool.and_eq_true, bne_iff_ne, beq_iff_eq] at hn
      exact hk ⟨hn.1, hn.2.symm⟩
    simp only [releasedCodes, if_neg hk, hnames, Bool.false_eq_true, if_false, Nat.sub_zero]
    exact hinv.counts k

/-- The release keeps the code and the hash of each row it leaves. -/
theorem releasedCodes_some {zero : H} {codes : H × UInt8 × UInt8 → Option (CodeObject H)}
    {account : AccountMetadataObject H} {k : H × UInt8 × UInt8} {o : CodeObject H}
    (h : releasedCodes zero codes account k = some o) :
    ∃ o₀, codes k = some o₀ ∧ o.code = o₀.code ∧ o.code_hash = o₀.code_hash := by
  unfold releasedCodes at h
  split_ifs at h
  · obtain ⟨o₀, ho₀, h⟩ := Option.bind_eq_some_iff.1 h
    refine ⟨o₀, ho₀, ?_⟩
    split_ifs at h
    cases h
    exact ⟨rfl, rfl⟩
  · exact ⟨o, h, rfl, rfl⟩

/-- Before a `setcode`, the account names some other key than its new code's. -/
theorem names_new_key_eq_false {cfg : CodeConfig H} {s : CodeState K H} {act : Setcode}
    {account : AccountMetadataObject H}
    (hold : account.code_hash ≠ cfg.zero → ∃ old, s.codes.lookup CodeObject.key account.codeKey = some old ∧
      old.code_hash ≠ setcodeHash cfg act) :
    names cfg.zero account (setcodeHash cfg act, act.vmtype, act.vmversion) = false := by
  by_contra hn
  simp only [names, Bool.not_eq_false, Bool.and_eq_true, bne_iff_ne, beq_iff_eq] at hn
  obtain ⟨old, hlook, hne⟩ := hold hn.1
  have hkey := CodeObject.key_of_lookup hlook
  rw [hn.2] at hkey
  exact hne (congrArg Prod.fst hkey)

/-- `setcode` keeps the invariant, for codes of the run that hash to non-zero and a new code among
them. -/
theorem CodeInv.setcode (hinv : CodeInv cfg C s)
    (hzero : ∀ c ∈ C, 0 < c.length → cfg.hash c ≠ cfg.zero)
    {ctx : ApplyContext} {head_block_num : UInt32} {pending_block_time : UInt64} {act : Setcode}
    (hC : 0 < act.code.length → act.code ∈ C) {s' : CodeState K H}
    (h : applySetcode cfg ctx head_block_num pending_block_time s act = .ok s') :
    CodeInv cfg C s' := by
  obtain ⟨account, hacc, -, -, -, hold, hcodes, ⟨l₁, l₂, hrows, hrows'⟩, -, -⟩ :=
    applySetcode_spec h
  have hmem : account ∈ s.metadata.rows := (mem_of_lookup hacc).1
  have hz : 0 < act.code.length → cfg.hash act.code ≠ cfg.zero := fun hl => hzero _ (hC hl) hl
  have hold_new := names_new_key_eq_false hold
  -- the count at each key moves from the account's old key to its new one
  have hcount : ∀ k, refCount cfg.zero s'.metadata.rows k + (if names cfg.zero account k then 1 else 0) =
      refCount cfg.zero s.metadata.rows k +
        (if 0 < act.code.length ∧ k = (setcodeHash cfg act, act.vmtype, act.vmversion) then 1 else 0) := by
    intro k
    rw [hrows, hrows', refCount_replace, names_setMetadata hz]
    simp
  have hR := hinv.releasedCodes_counts hmem
  refine ⟨fun k => ?_, fun k o hk => ?_, fun m hm => ?_⟩
  · rw [hcodes k]
    unfold takenCodes
    split_ifs with hnew
    · -- the new code's key: one user more, in a row already there or a new one
      obtain ⟨hl, rfl⟩ := hnew
      have hk := hcount (setcodeHash cfg act, act.vmtype, act.vmversion)
      have hRk := hR (setcodeHash cfg act, act.vmtype, act.vmversion)
      simp only [hold_new, Bool.false_eq_true, ↓reduceIte, hl, and_self, Nat.add_zero,
        Nat.sub_zero] at hk hRk
      obtain ⟨hnone, hzero⟩ | ⟨o, ho, ho_count, -⟩ := map_count_eq_countOf.1 hRk
      · simp only [hnone, Option.map_some, countOf, hk, hzero]
        rfl
      · have hlt := refCount_lt s.metadata.no_clash hinv.nonempty hmem hold_new
        simp only [ho, Option.map_some, UInt64.toNat_add, UInt64.toNat_one, countOf]
        rw [ho_count, Nat.mod_eq_of_lt hlt, hk, if_neg (by omega)]
    · -- any other key: one user fewer at the old key, as the release left it
      have hk := hcount k
      rw [if_neg hnew] at hk
      have hk' : refCount cfg.zero s'.metadata.rows k =
          refCount cfg.zero s.metadata.rows k - if names cfg.zero account k then 1 else 0 := by
        split_ifs at hk ⊢ <;> omega
      rw [hk']
      exact hR k
  · rw [hcodes k] at hk
    unfold takenCodes at hk
    split_ifs at hk with hnew
    · obtain ⟨hl, rfl⟩ := hnew
      obtain rfl := Option.some.inj hk
      rcases hRk : releasedCodes cfg.zero (s.codes.lookup CodeObject.key) account
        (setcodeHash cfg act, act.vmtype, act.vmversion) with _ | o₀
      · -- a new row, of the new code
        exact ⟨hC hl, by simp [setcodeHash, hl]⟩
      · -- the row already there, with one user more
        obtain ⟨o₁, ho₁, hc, hh⟩ := releasedCodes_some hRk
        show o₀.code ∈ C ∧ cfg.hash o₀.code = o₀.code_hash
        rw [hc, hh]
        exact hinv.stored _ _ ho₁
    · obtain ⟨o₁, ho₁, hc, hh⟩ := releasedCodes_some hk
      rw [hc, hh]
      exact hinv.stored _ _ ho₁
  · -- the rows keep their names
    rw [hrows'] at hm
    have hsub : ∀ x ∈ l₁ ++ l₂, x ∈ s.metadata.rows := fun x hx => by
      rw [hrows]; simp only [List.mem_append, List.mem_cons] at hx ⊢; tauto
    simp only [List.mem_append, List.mem_cons] at hm
    rcases hm with hm | rfl | hm
    · exact hinv.nonempty m (hsub m (List.mem_append_left _ hm))
    · exact hinv.nonempty account hmem
    · exact hinv.nonempty m (hsub m (List.mem_append_right _ hm))

/-- The metadata row of a new account names no code. -/
theorem names_new (zero : H) (name : Name) (k : H × UInt8 × UInt8) :
    names zero (.new name zero) k = false := by
  simp [names, AccountMetadataObject.new]

/-- Some row other than the account's names the key, so a count of the key without the account is
positive. -/
theorem refCount_sub_pos {zero : H} {l₁ l₂ : List (AccountMetadataObject H)}
    {r m : AccountMetadataObject H} {k : H × UInt8 × UInt8} (hm : m ∈ l₁ ++ r :: l₂) (hne : m ≠ r)
    (hk : names zero m k = true) :
    0 < refCount zero (l₁ ++ r :: l₂) k - if names zero r k then 1 else 0 := by
  have hrest : 0 < (l₁ ++ l₂).countP (names zero · k) := by
    refine List.countP_pos_iff.2 ⟨m, ?_, hk⟩
    simp only [List.mem_append, List.mem_cons] at hm ⊢
    tauto
  simp only [refCount, List.countP_append, List.countP_cons] at hrest ⊢
  split_ifs <;> omega

/-- `setcode` changes the size of no other account's code: a row that another account names keeps
its code, whoever else releases or takes it. -/
theorem CodeInv.codeSize_setcode_other (hinv : CodeInv cfg C s) {ctx : ApplyContext}
    {head_block_num : UInt32} {pending_block_time : UInt64} {act : Setcode} {s' : CodeState K H}
    (h : applySetcode cfg ctx head_block_num pending_block_time s act = .ok s') {b : Name}
    (hb : b ≠ act.account) : codeSize cfg.zero s' b = codeSize cfg.zero s b := by
  obtain ⟨account, hacc, -, -, -, -, hcodes, ⟨l₁, l₂, hrows, -⟩, hmeta, -⟩ := applySetcode_spec h
  unfold codeSize
  rw [hmeta b, if_neg hb]
  rcases hm : s.metadata.lookup (·.name) b with _ | m
  · rfl
  dsimp only
  split_ifs with hc
  · rfl
  -- `m`'s row is not the account's, so the release leaves it
  have hmrow := mem_of_lookup hm
  have hma : m ≠ account := fun e => hb (by rw [← hmrow.2, e, (mem_of_lookup hacc).2])
  have hnm : names cfg.zero m m.codeKey = true := by simp [names, hc]
  have hpos := refCount_sub_pos (hrows ▸ hmrow.1) hma hnm
  rw [← hrows] at hpos
  obtain ⟨hnone, hzero⟩ | ⟨o, hRo, -⟩ := map_count_eq_countOf.1 (hinv.releasedCodes_counts
    (mem_of_lookup hacc).1 m.codeKey)
  · omega
  obtain ⟨o₁, ho₁, hc₁, -⟩ := releasedCodes_some hRo
  rw [hcodes, ho₁]
  -- whether or not the new code has this key, the row keeps its code
  unfold takenCodes
  split_ifs <;> simp [hRo, hc₁]

/-- After a `setcode`, the account runs the new code: a row already there at the new code's key
holds that code, as the hash tells the codes of the run apart. -/
theorem CodeInv.codeSize_setcode_self (hinv : CodeInv cfg C s)
    (hzero : ∀ c ∈ C, 0 < c.length → cfg.hash c ≠ cfg.zero)
    (hinj : ∀ c ∈ C, ∀ c' ∈ C, cfg.hash c = cfg.hash c' → c = c') {ctx : ApplyContext}
    {head_block_num : UInt32} {pending_block_time : UInt64} {act : Setcode}
    (hC : 0 < act.code.length → act.code ∈ C) {s' : CodeState K H}
    (h : applySetcode cfg ctx head_block_num pending_block_time s act = .ok s') :
    codeSize cfg.zero s' act.account = act.code.length := by
  obtain ⟨account, -, -, -, -, -, hcodes, -, hmeta, -⟩ := applySetcode_spec h
  unfold codeSize
  rw [hmeta, if_pos rfl]
  dsimp only
  by_cases hl : 0 < act.code.length
  · have hhash : setcodeHash cfg act = cfg.hash act.code := if_pos hl
    have hne : cfg.hash act.code ≠ cfg.zero := hzero _ (hC hl) hl
    simp only [setMetadata, hhash, hne, if_false, AccountMetadataObject.codeKey, hcodes,
      takenCodes, hl, true_and, if_true, Option.map_some, Option.getD_some]
    rcases hRk : releasedCodes cfg.zero (s.codes.lookup CodeObject.key) account
      (cfg.hash act.code, act.vmtype, act.vmversion) with _ | o
    · rfl
    · -- the row there holds a code of the run with the new code's hash: the new code
      obtain ⟨o₁, ho₁, hc₁, -⟩ := releasedCodes_some hRk
      obtain ⟨hmem, hh⟩ := hinv.stored _ _ ho₁
      have hkey := congrArg Prod.fst (CodeObject.key_of_lookup ho₁)
      simp only [CodeObject.key] at hkey
      show o.code.length = act.code.length
      rw [hc₁, hinj _ hmem _ (hC hl) (hh.trans hkey)]
  · have hhash : setcodeHash cfg act = cfg.zero := if_neg hl
    simp [setMetadata, hhash]
    omega

/-- What a `setcode` charges each account: ten bytes for each byte by which the size of its code
grew. -/
theorem CodeInv.ram_setcode (hinv : CodeInv cfg C s)
    (hzero : ∀ c ∈ C, 0 < c.length → cfg.hash c ≠ cfg.zero)
    (hinj : ∀ c ∈ C, ∀ c' ∈ C, cfg.hash c = cfg.hash c' → c = c') {ctx : ApplyContext}
    {head_block_num : UInt32} {pending_block_time : UInt64} {act : Setcode}
    (hC : 0 < act.code.length → act.code ∈ C) {s' : CodeState K H}
    (h : applySetcode cfg ctx head_block_num pending_block_time s act = .ok s') (b : Name) :
    s'.auth.ram b - s.auth.ram b =
      setcodeRamBytesMultiplier * codeSize cfg.zero s' b -
        setcodeRamBytesMultiplier * codeSize cfg.zero s b := by
  obtain ⟨-, -, -, -, -, -, -, -, -, hram⟩ := applySetcode_spec h
  rw [hram, Token.addRamUsage_apply]
  by_cases hb : b = act.account
  · subst hb
    rw [if_pos rfl, hinv.codeSize_setcode_self hzero hinj hC h]
    ring
  · rw [if_neg hb, hinv.codeSize_setcode_other h hb]
    ring

section Run

variable [LT K] [DecidableLT K] {acfg : AuthConfig K}

/-- `newaccount` keeps the invariant: the new account runs no code. -/
theorem CodeInv.newaccount (hinv : CodeInv cfg C s) {ctx : ApplyContext} {create : Newaccount K}
    {s' : CodeState K H} (h : applyNewaccount acfg cfg ctx s create = .ok s') : CodeInv cfg C s' := by
  obtain ⟨hname, hcodes, -, hrows⟩ := applyNewaccount_ok h
  have hcount : ∀ k, refCount cfg.zero s'.metadata.rows k = refCount cfg.zero s.metadata.rows k := by
    intro k
    simp [refCount, hrows, List.countP_append, names_new]
  refine ⟨fun k => ?_, fun k o hk => ?_, fun m hm => ?_⟩
  · rw [hcodes, hcount]
    exact hinv.counts k
  · rw [hcodes] at hk
    exact hinv.stored k o hk
  · rw [hrows, List.mem_append, List.mem_singleton] at hm
    rcases hm with hm | rfl
    · exact hinv.nonempty m hm
    · simpa [Name.empty, AccountMetadataObject.new] using hname

/-- `newaccount` changes the size of no account's code: the new account has none. -/
theorem codeSize_newaccount {ctx : ApplyContext} {create : Newaccount K} {s' : CodeState K H}
    (h : applyNewaccount acfg cfg ctx s create = .ok s') (b : Name) :
    codeSize cfg.zero s' b = codeSize cfg.zero s b := by
  obtain ⟨-, hcodes, -, hrows⟩ := applyNewaccount_ok h
  have hlook : s'.metadata.lookup (·.name) b = (s.metadata.lookup (·.name) b).or
      (if create.name = b then some (.new create.name cfg.zero) else none) := by
    simp only [lookup, find?, hrows, List.find?_append]
    split_ifs with hb <;> simp [AccountMetadataObject.new, hb]
  unfold codeSize
  rw [hlook, hcodes]
  rcases s.metadata.lookup (·.name) b with _ | m
  · split_ifs <;> simp [AccountMetadataObject.new]
  · rfl

/-- One request, committed or rolled back, keeps the invariant and charges for `setcode` what the
size of the account's code grew by. -/
theorem CodeInv.commit (hinv : CodeInv cfg C s)
    (hzero : ∀ c ∈ C, 0 < c.length → cfg.hash c ≠ cfg.zero)
    (hinj : ∀ c ∈ C, ∀ c' ∈ C, cfg.hash c = cfg.hash c' → c = c') {r : CodeRequest K}
    (hr : ∀ c ∈ setcodeCodes [r], c ∈ C) (a : Name) :
    let s' := Machine.commit (codeStep acfg cfg) s r
    CodeInv cfg C s' ∧
      setcodeCharge a s r s' =
        setcodeRamBytesMultiplier * codeSize cfg.zero s' a -
          setcodeRamBytesMultiplier * codeSize cfg.zero s a := by
  intro s'
  rcases hstep : codeStep acfg cfg s r with e | t
  · -- rolled back
    have hs' : s' = s := Machine.commit_of_error hstep
    rw [hs']
    cases r <;> simp [setcodeCharge, hinv]
  · have hs' : s' = t := Machine.commit_of_ok hstep
    rw [hs']
    cases r with
    | newaccount ctx act =>
      exact ⟨hinv.newaccount hstep, by rw [setcodeCharge, codeSize_newaccount hstep]; ring⟩
    | setcode ctx head_block_num pending_block_time act =>
      have hC : 0 < act.code.length → act.code ∈ C := fun _ => hr _ (by simp [setcodeCodes])
      exact ⟨hinv.setcode hzero hC hstep, hinv.ram_setcode hzero hinj hC hstep a⟩

omit [LT K] [DecidableLT K] in
/-- The codes of one request of a run are codes of the run. -/
theorem setcodeCodes_of_mem {reqs : List (CodeRequest K)} {r : CodeRequest K} (hr : r ∈ reqs)
    {c : List UInt8} (hc : c ∈ setcodeCodes [r]) : c ∈ setcodeCodes reqs := by
  simp only [setcodeCodes, List.mem_filterMap, List.mem_singleton, exists_eq_left] at hc ⊢
  exact ⟨r, hr, hc⟩

/-- Over a whole run: the invariant holds after it, and what its `setcode`s charged each account is
ten bytes for each byte by which the size of the account's code grew. -/
theorem CodeInv.run (hinv : CodeInv cfg C s)
    (hzero : ∀ c ∈ C, 0 < c.length → cfg.hash c ≠ cfg.zero)
    (hinj : ∀ c ∈ C, ∀ c' ∈ C, cfg.hash c = cfg.hash c' → c = c') {reqs : List (CodeRequest K)}
    (hreqs : ∀ c ∈ setcodeCodes reqs, c ∈ C) (a : Name) :
    CodeInv cfg C (Machine.run (codeStep acfg cfg) s reqs) ∧
      setcodeCharged acfg cfg a s reqs =
        setcodeRamBytesMultiplier * codeSize cfg.zero (Machine.run (codeStep acfg cfg) s reqs) a -
          setcodeRamBytesMultiplier * codeSize cfg.zero s a := by
  have hstep : ∀ t r, r ∈ reqs → CodeInv cfg C t →
      CodeInv cfg C (Machine.commit (codeStep acfg cfg) t r) ∧
        setcodeCharge a t r (Machine.commit (codeStep acfg cfg) t r) =
          setcodeRamBytesMultiplier * codeSize cfg.zero (Machine.commit (codeStep acfg cfg) t r) a -
            setcodeRamBytesMultiplier * codeSize cfg.zero t a := fun t r hr ht =>
    CodeInv.commit ht hzero hinj (fun c hc => hreqs c (setcodeCodes_of_mem hr hc)) a
  refine ⟨Machine.run_invariant_of_mem (CodeInv cfg C) reqs (fun t r t' hr ht h => ?_) hinv,
    Machine.runSum_eq (CodeInv cfg C) (fun t => setcodeRamBytesMultiplier * codeSize cfg.zero t a)
      reqs hstep hinv⟩
  have := (hstep t r hr ht).1
  rwa [Machine.commit_of_ok h] at this

end Run

end Step

end Counts

/-! ## From genesis -/

section Genesis

open Auth (createPermission createAccountPermissions createNativeAccount initializeDatabase)

variable {acfg : AuthConfig K} {t t' : AuthState K}

/-- `create_permission` creates no account. -/
theorem createPermission_accounts {account name : Name} {parent : Nat} {auth : Auth.Authority K}
    {perm : Auth.PermissionObject K} (h : createPermission acfg t account name parent auth = .ok (t', perm)) :
    t'.accounts = t.accounts := by
  simp only [createPermission, bind_eq_ok, eosAssert_eq_ok, liftDb_eq_ok, exists_const] at h
  obtain ⟨-, permissions, -, hres⟩ := h
  simp only [pure, Except.pure, Except.ok.injEq, Prod.mk.injEq] at hres
  obtain ⟨rfl, -⟩ := hres
  rfl

/-- The `owner` and `active` permissions of an account create no account. -/
theorem createAccountPermissions_accounts {name : Name} {owner active : Auth.Authority K}
    (h : createAccountPermissions acfg t name owner active = .ok t') : t'.accounts = t.accounts := by
  simp only [createAccountPermissions, bind_eq_ok] at h
  obtain ⟨⟨t₁, owner_permission⟩, h₁, ⟨t₂, active_permission⟩, h₂, hres⟩ := h
  simp only [pure, Except.pure, Except.ok.injEq] at hres
  subst hres
  exact (createPermission_accounts h₂).trans (createPermission_accounts h₁)

/-- A native account is one account row more. -/
theorem createNativeAccount_accounts {name : Name} {owner active : Auth.Authority K}
    {is_privileged : Bool} (h : createNativeAccount acfg t name owner active is_privileged = .ok t') :
    t'.accounts.rows = t.accounts.rows ++ [⟨name, is_privileged⟩] := by
  simp only [createNativeAccount, bind_eq_ok, liftDb_eq_ok] at h
  obtain ⟨accounts, hcreate, h⟩ := h
  rw [createAccountPermissions_accounts h]
  exact rows_of_create hcreate

/-- The accounts at genesis: `eosio`, privileged, `eosio.null` and `eosio.prods`. -/
theorem initializeDatabase_accounts {system_auth : Auth.Authority K}
    (h : initializeDatabase acfg system_auth = .ok t') :
    t'.accounts.rows = [⟨systemAccountName, true⟩, ⟨Auth.nullAccountName, false⟩,
      ⟨Auth.producersAccountName, false⟩] := by
  simp only [initializeDatabase, bind_eq_ok] at h
  obtain ⟨t₁, h₁, t₂, h₂, t₃, h₃, active_permission, -, ⟨t₄, majority⟩, h₄, ⟨t₅, minority⟩, h₅,
    hres⟩ := h
  simp only [pure, Except.pure, Except.ok.injEq] at hres
  subst hres
  rw [createPermission_accounts h₅, createPermission_accounts h₄, createNativeAccount_accounts h₃,
    createNativeAccount_accounts h₂, createNativeAccount_accounts h₁]
  rfl

variable [DecidableEq H]

/-- The code tables at genesis keep the invariant: no account runs code, and every account has a
non-empty name. -/
theorem codeInv_ofAuth {system_auth : Auth.Authority K} (h : initializeDatabase acfg system_auth = .ok t')
    (cfg : CodeConfig H) (C : List (List UInt8)) : CodeInv cfg C (CodeState.ofAuth t' cfg.zero) := by
  have hnames : ∀ a ∈ t'.accounts.rows, a.name.value ≠ 0 := by
    rw [initializeDatabase_accounts h]
    decide
  refine ⟨fun k => ?_, fun k o hk => ?_, fun m hm => ?_⟩
  · have hzero : refCount cfg.zero (CodeState.ofAuth t' cfg.zero).metadata.rows k = 0 := by
      simp [refCount, CodeState.ofAuth, List.countP_map, Function.comp_def, names_new]
    rw [hzero]
    rfl
  · simp [CodeState.ofAuth, lookup, find?, IndexedTable.empty] at hk
  · simp only [CodeState.ofAuth, List.mem_map] at hm
    obtain ⟨a, ha, rfl⟩ := hm
    exact hnames a ha

/-- No account runs code at genesis. -/
theorem codeSize_ofAuth (zero : H) (b : Name) : codeSize zero (CodeState.ofAuth t' zero) b = 0 := by
  unfold codeSize
  split
  · rename_i m hm
    have hmem := (mem_of_lookup hm).1
    simp only [CodeState.ofAuth, List.mem_map] at hmem
    obtain ⟨a, -, rfl⟩ := hmem
    simp [AccountMetadataObject.new]
  · rfl

/-- From genesis, after any `newaccount`s and `setcode`s, each committed or rolled back: the row at
each code key counts the accounts that run that code and is there exactly when one does, every
account with code has its row, and what the `setcode`s charged each account is ten bytes for each
byte of the code that it runs; for a hash that tells the codes of the run apart and gives none of
them the zero hash. -/
theorem setcode_ref_count_and_ram [LT K] [DecidableLT K] {system_auth : Auth.Authority K}
    (hgen : initializeDatabase acfg system_auth = .ok t') (cfg : CodeConfig H)
    (reqs : List (CodeRequest K))
    (hzero : ∀ c ∈ setcodeCodes reqs, 0 < c.length → cfg.hash c ≠ cfg.zero)
    (hinj : ∀ c ∈ setcodeCodes reqs, ∀ c' ∈ setcodeCodes reqs, cfg.hash c = cfg.hash c' → c = c') :
    let s := Machine.run (codeStep acfg cfg) (CodeState.ofAuth t' cfg.zero) reqs
    (∀ k, (s.codes.lookup CodeObject.key k).map (·.code_ref_count.toNat) =
      countOf (refCount cfg.zero s.metadata.rows k)) ∧
    (∀ m ∈ s.metadata.rows, m.code_hash ≠ cfg.zero →
      ∃ o, s.codes.lookup CodeObject.key m.codeKey = some o) ∧
    ∀ a, setcodeCharged acfg cfg a (CodeState.ofAuth t' cfg.zero) reqs =
      setcodeRamBytesMultiplier * codeSize cfg.zero s a := by
  intro s
  have hinv₀ := codeInv_ofAuth hgen cfg (setcodeCodes reqs)
  have hinv : CodeInv cfg (setcodeCodes reqs) s :=
    (hinv₀.run hzero hinj (fun c hc => hc) systemAccountName).1
  refine ⟨hinv.counts, fun m hm hc => ?_, fun a => ?_⟩
  · -- the account counts towards its key, so the row is there
    have hpos : 0 < refCount cfg.zero s.metadata.rows m.codeKey :=
      List.countP_pos_iff.2 ⟨m, hm, by simp [names, hc]⟩
    obtain ⟨-, h0⟩ | ⟨o, ho, -⟩ := map_count_eq_countOf.1 (hinv.counts m.codeKey)
    · omega
    · exact ⟨o, ho⟩
  · refine (hinv₀.run hzero hinj (fun c hc => hc) a).2.trans ?_
    rw [codeSize_ofAuth]
    ring

/-- The code configuration whose hash is the code itself. -/
def identityCodeConfig : CodeConfig (List UInt8) := ⟨id, [], fun _ => pure ()⟩

/-- At the genesis of the authorization model, with `eosio` setting a four-byte code. -/
theorem setcode_ram_at_genesis :
    ∃ s₀ : AuthState Nat, initializeDatabase Auth.genesisConfig Auth.genesisAuthority = .ok s₀ ∧
      ∀ a, setcodeCharged Auth.genesisConfig identityCodeConfig a (CodeState.ofAuth s₀ [])
          [.setcode ⟨systemAccountName, systemAccountName, [⟨systemAccountName, activeName⟩]⟩ 1 0
            ⟨systemAccountName, 0, 0, [0, 97, 115, 109]⟩] =
        setcodeRamBytesMultiplier * codeSize [] (Machine.run (codeStep Auth.genesisConfig
          identityCodeConfig) (CodeState.ofAuth s₀ [])
          [.setcode ⟨systemAccountName, systemAccountName, [⟨systemAccountName, activeName⟩]⟩ 1 0
            ⟨systemAccountName, 0, 0, [0, 97, 115, 109]⟩]) a := by
  have hok : (initializeDatabase Auth.genesisConfig Auth.genesisAuthority).isOk = true := by decide
  cases hgen : initializeDatabase Auth.genesisConfig Auth.genesisAuthority with
  | error e =>
    rw [hgen] at hok
    exact absurd hok (by simp [Except.isOk, Except.toBool])
  | ok s₀ =>
    exact ⟨s₀, rfl, (setcode_ref_count_and_ram hgen identityCodeConfig _ (by decide)
      (by decide)).2.2⟩

end Genesis

end InfraBlockchain.Contract
