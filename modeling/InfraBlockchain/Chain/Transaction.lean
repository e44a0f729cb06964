import Mathlib
import InfraBlockchain.Auth.Actions

/-!
# Actions, transactions and their extensions

An `action` (`action.hpp`) names a contract and an action type, declares the permission levels
that authorize it, and carries a payload that `data_as` unpacks as the type's struct. A
`transaction` (`transaction.hpp`) holds actions and transaction extensions, pairs of an id type and
packed bytes that `validate_and_extract_extensions` decodes: the id types must ascend, each must be
one that the chain knows, and none may repeat, since every type the chain knows enforces
uniqueness. Two InfraBlockchain extensions name an account: the one that pays the transaction fee
(id 10) and the one that receives the transaction's vote (id 11); the deferred transaction
generation context (id 0) names the contract that sent a deferred transaction. These are all the
loop checks: `extractExtensions_ok` and its converse `extractExtensions_eq_ok_of_wf` make the
extensions it accepts exactly those with strictly ascending id types, each known and, for the
three that name one, with a non-empty account.

`transaction_context::init` fixes the fee payer once the fee-payment protocol is activated: the
account of the fee payer extension, else `first_authorizer`, the actor of the first declared
authorization of the first action that declares one.

Payloads are modelled decoded: the five native actions of `eosio` whose authorization
`authorization_manager::check_authorization` treats apart carry their struct, any other action
its opaque bytes. Of an extension the model keeps the account that its payload names.
-/

namespace InfraBlockchain.Chain

open Auth

variable {K : Type}

/-- The data of `canceldelay`. -/
structure Canceldelay where
  /-- The permission level that the canceled transaction declares. -/
  canceling_auth : PermissionLevel
  /-- The id of the canceled transaction. -/
  trx_id : Nat

/-- The payload of an action: the struct of a native action that `check_authorization` treats
apart, or bytes that no modelled function reads. -/
inductive ActionData (K : Type) where
  | updateauth (update : Updateauth K)
  | deleteauth (del : Deleteauth)
  | linkauth (link : Linkauth)
  | unlinkauth (unlink : Unlinkauth)
  | canceldelay (cancel : Canceldelay)
  | other

/-- `action`. -/
structure Action (K : Type) where
  /-- The contract. -/
  account : Name
  /-- The action type. -/
  name : Name
  /-- The declared authorizations. -/
  authorization : List PermissionLevel
  /-- The payload. -/
  data : ActionData K

/-- The failure of `fc::raw::unpack` when `data_as` reads a payload as a struct that it is not. -/
def unpackFailure : Exception :=
  ⟨.out_of_range_exception, "${method} datastream of length ${len} over by ${over}"⟩

/-- `transaction_extension_id` of `deferred_transaction_generation_context`. -/
def deferredTransactionGenerationContextId : UInt16 := 0

/-- `infrablockchain_transaction_fee_payer_tx_ext_id`. -/
def transactionFeePayerTxExtId : UInt16 := 10

/-- `infrablockchain_transaction_vote_tx_ext_id`. -/
def transactionVoteTxExtId : UInt16 := 11

/-- The number of extension types in `transaction_extension_types`, ids `0` to `11`. -/
def transactionExtensionTypes : UInt16 := 12

/-- A transaction extension: its id type and the account that its payload names, `sender` of a
deferred transaction generation context, `fee_payer` of a fee payer extension, `vote_to` of a vote
extension. The reserved types 1 to 9 hold a number that nothing reads. -/
structure TransactionExtension where
  /-- The id type. -/
  id : UInt16
  /-- The account that the payload names. -/
  account : Name
  deriving DecidableEq

/-- `transaction`, with the fields that the modelled functions read. -/
structure Transaction (K : Type) where
  /-- `actions`. -/
  actions : List (Action K)
  /-- `delay_sec`. -/
  delay_sec : Nat
  /-- `transaction_extensions`, in their order. -/
  transaction_extensions : List TransactionExtension

/-- `transaction::first_authorizer`: the actor of the first declared authorization, over the
actions in order, and the empty name when no action declares one. -/
def firstAuthorizer : List (Action K) → Name
  | [] => ⟨0⟩
  | a :: as =>
    match a.authorization with
    | u :: _ => u.actor
    | [] => firstAuthorizer as

/-- `decompose_t::extract` of one extension: for an id type that the chain knows, the payload is
unpacked, and the `reflector_init` of the three types that name an account refuses the empty
name; `false` for an id type that it does not know. -/
def extractExtension (e : TransactionExtension) : Except Exception Bool :=
  if e.id = deferredTransactionGenerationContextId then do
    eosAssert (e.account != ⟨0⟩) .ill_formed_deferred_transaction_generation_context
      "Deferred transaction generation context extension must have a non-empty sender account"
    pure true
  else if e.id = transactionFeePayerTxExtId then do
    eosAssert (e.account != ⟨0⟩) .ill_formed_transaction_fee_payer_tx_ext
      "Transaction fee payer tx extension must have a non-empty fee-payer account"
    pure true
  else if e.id = transactionVoteTxExtId then do
    eosAssert (e.account != ⟨0⟩) .ill_formed_transaction_vote_tx_ext
      "Transaction vote tx extension must have a non-empty vote-to account"
    pure true
  else pure (e.id < transactionExtensionTypes)

/-- The loop of `validate_and_extract_extensions` from the extension at index `i`, with the id type
of the one before as lower bound: ascending id types, each known, and, as every known type
enforces uniqueness, none repeated. -/
def extractExtensions : Nat → UInt16 → List TransactionExtension → Except Exception Unit
  | _, _, [] => .ok ()
  | i, id_type_lower_bound, e :: es => do
    eosAssert (e.id ≥ id_type_lower_bound) .invalid_transaction_extension
      "Transaction extensions are not in the correct order (ascending id types required)"
    let supported ← extractExtension e
    eosAssert supported .invalid_transaction_extension
      "Transaction extension with id type ${id} is not supported"
    eosAssert (i == 0 || e.id > id_type_lower_bound) .invalid_transaction_extension
      "Transaction extension with id type ${id} is not allowed to repeat"
    extractExtensions (i + 1) e.id es

/-- `transaction::validate_and_extract_extensions`: the extensions, which the loop leaves in the
order of their id types, as the `flat_multimap` holds them. -/
def validateAndExtractExtensions (trx : Transaction K) :
    Except Exception (List TransactionExtension) := do
  extractExtensions 0 0 trx.transaction_extensions
  pure trx.transaction_extensions

/-- `exts.find(id)` in the extracted extensions: the account that the extension of that id type
names. -/
def findExtension (exts : List TransactionExtension) (id : UInt16) : Option Name :=
  (exts.find? (·.id == id)).map (·.account)

/-- The fee payer that `transaction_context::init` fixes when the fee-payment protocol is
activated: the account of the fee payer extension, else the first authorizer. -/
def transactionFeePayer (trx : Transaction K) : Except Exception Name := do
  let exts ← validateAndExtractExtensions trx
  match findExtension exts transactionFeePayerTxExtId with
  | some fee_payer => pure fee_payer
  | none => pure (firstAuthorizer trx.actions)

/-! ## What the extensions and the fee payer are -/


/-- One extension that passes: a known id type whose account, when it names one, is not empty. -/
theorem extractExtension_ok {e : TransactionExtension} :
    extractExtension e = .ok true ↔ e.id < transactionExtensionTypes ∧
      (e.id = deferredTransactionGenerationContextId ∨ e.id = transactionFeePayerTxExtId ∨
        e.id = transactionVoteTxExtId → e.account ≠ ⟨0⟩) := by
  unfold extractExtension
  -- the three types that name an account assert it; any other known type passes as it is
  by_cases h₀ : e.id = deferredTransactionGenerationContextId
  · simp [h₀, deferredTransactionGenerationContextId, transactionExtensionTypes]
  by_cases h₁₀ : e.id = transactionFeePayerTxExtId
  · simp [h₁₀, transactionFeePayerTxExtId, deferredTransactionGenerationContextId,
      transactionExtensionTypes]
  by_cases h₁₁ : e.id = transactionVoteTxExtId
  · simp [h₁₁, transactionVoteTxExtId, transactionFeePayerTxExtId,
      deferredTransactionGenerationContextId, transactionExtensionTypes]
  simp [h₀, h₁₀, h₁₁, pure, Except.pure]

/-- What the loop accepts is well formed: each extension passes on its own, and the id types
ascend strictly from the lower bound, which the first one may equal. By induction on the
extensions, the lower bound being the id type of the one before. -/
theorem extractExtensions_ok : ∀ {i : Nat} {lb : UInt16} {es : List TransactionExtension},
    extractExtensions i lb es = .ok () →
      (∀ e ∈ es, extractExtension e = .ok true) ∧ (es.map (·.id)).Pairwise (· < ·) ∧
        ∀ e ∈ es, lb ≤ e.id ∧ (i ≠ 0 → lb < e.id)
  | _, _, [], _ => by simp
  | i, lb, e :: es, h => by
    simp only [extractExtensions, bind_eq_ok, eosAssert_eq_ok] at h
    obtain ⟨-, hge, supported, hext, -, hsup, -, hrep, hrest⟩ := h
    subst hsup
    obtain ⟨hok, hsorted, hbound⟩ := extractExtensions_ok hrest
    have hlt : ∀ e' ∈ es, e.id < e'.id := fun e' he' => (hbound e' he').2 (by omega)
    have hge : lb ≤ e.id := by simpa using hge
    refine ⟨?_, ?_, ?_⟩
    · simpa [hext] using hok
    · simpa [List.pairwise_cons, hsorted] using hlt
    · intro e' he'
      rcases List.mem_cons.1 he' with rfl | he'
      · refine ⟨hge, fun hi => ?_⟩
        simpa [hi] using hrep
      · have := hlt e' he'
        exact ⟨UInt16.le_of_lt (UInt16.lt_of_le_of_lt hge this), fun _ => UInt16.lt_of_le_of_lt hge this⟩

/-- The converse of `extractExtensions_ok`: extensions that each pass, with id types ascending
strictly from the lower bound, pass the loop. By induction on the extensions, as before. -/
theorem extractExtensions_eq_ok_of_wf : ∀ {i : Nat} {lb : UInt16} {es : List TransactionExtension},
    (∀ e ∈ es, extractExtension e = .ok true) → (es.map (·.id)).Pairwise (· < ·) →
      (∀ e ∈ es, lb ≤ e.id ∧ (i ≠ 0 → lb < e.id)) → extractExtensions i lb es = .ok ()
  | _, _, [], _, _, _ => rfl
  | i, lb, e :: es, hok, hsorted, hbound => by
    rw [List.map_cons, List.pairwise_cons] at hsorted
    obtain ⟨hge, hgt⟩ := hbound e List.mem_cons_self
    -- the rest ascends from this extension's id type, past the first index
    have hrest : extractExtensions (i + 1) e.id es = .ok () := by
      refine extractExtensions_eq_ok_of_wf (fun e' he' => hok e' (List.mem_cons_of_mem _ he'))
        hsorted.2 fun e' he' => ?_
      have hlt := hsorted.1 e'.id (List.mem_map_of_mem he')
      exact ⟨UInt16.le_of_lt hlt, fun _ => hlt⟩
    have hrep : (i == 0 || decide (e.id > lb)) = true := by
      rcases Nat.eq_zero_or_pos i with rfl | hi
      · rfl
      · simp [hgt (by omega)]
    simp [extractExtensions, hge, hok e List.mem_cons_self, hrep, hrest, bind, Except.bind]

/-- What `validate_and_extract_extensions` accepts is well formed, and returned as it is. -/
theorem validateAndExtractExtensions_ok {trx : Transaction K} {exts : List TransactionExtension}
    (h : validateAndExtractExtensions trx = .ok exts) :
    exts = trx.transaction_extensions ∧ (∀ e ∈ exts, extractExtension e = .ok true) ∧
      (exts.map (·.id)).Pairwise (· < ·) := by
  simp only [validateAndExtractExtensions, bind_eq_ok] at h
  obtain ⟨u, hloop, hres⟩ := h
  cases hres
  obtain ⟨hok, hsorted, -⟩ := extractExtensions_ok hloop
  exact ⟨rfl, hok, hsorted⟩


/-- `validate_and_extract_extensions` accepts exactly extensions of known types in increasing order,
each of a type that names an account naming one, and gives them back as they are. -/
theorem transaction_extensions_validated (trx : Transaction K) :
    ((∃ exts, validateAndExtractExtensions trx = .ok exts) ↔
        (trx.transaction_extensions.map (·.id)).Pairwise (· < ·) ∧
          ∀ e ∈ trx.transaction_extensions, e.id < transactionExtensionTypes ∧
            (e.id = deferredTransactionGenerationContextId ∨ e.id = transactionFeePayerTxExtId ∨
              e.id = transactionVoteTxExtId → e.account ≠ ⟨0⟩)) ∧
      ∀ exts, validateAndExtractExtensions trx = .ok exts → exts = trx.transaction_extensions := by
  refine ⟨⟨?_, ?_⟩, fun exts h => (validateAndExtractExtensions_ok h).1⟩
  · rintro ⟨exts, h⟩
    obtain ⟨rfl, hok, hsorted⟩ := validateAndExtractExtensions_ok h
    exact ⟨hsorted, fun e he => extractExtension_ok.1 (hok e he)⟩
  · rintro ⟨hsorted, hwf⟩
    -- the loop starts at index 0 with lower bound 0, which every id type passes
    have hloop : extractExtensions 0 0 trx.transaction_extensions = .ok () :=
      extractExtensions_eq_ok_of_wf (fun e he => extractExtension_ok.2 (hwf e he)) hsorted
        fun e _ => ⟨UInt16.zero_le, absurd rfl⟩
    exact ⟨trx.transaction_extensions, by simp [validateAndExtractExtensions, hloop, bind, Except.bind, pure, Except.pure]⟩


/-- A fee payer extension and a vote extension, in that order, are accepted. -/
theorem fee_payer_and_vote_extensions_validated :
    ∃ exts, validateAndExtractExtensions
      ({ actions := [], delay_sec := 0
         transaction_extensions :=
          [⟨transactionFeePayerTxExtId, ⟨1⟩⟩, ⟨transactionVoteTxExtId, ⟨2⟩⟩] } : Transaction Unit) =
        .ok exts :=
  (transaction_extensions_validated _).1.2 ⟨by decide, by decide⟩

end InfraBlockchain.Chain
