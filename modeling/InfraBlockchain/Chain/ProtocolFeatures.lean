import Mathlib
import InfraBlockchain.Types
import InfraBlockchain.Lib.Machine

/-!
# Activation and rollback of the builtin protocol features

`protocol_feature_manager` (`protocol_feature_manager.cpp`) keeps the activated protocol features
twice: in the order of activation, each with its block (`_activated_protocol_features`), and as a
list threaded through a vector indexed by builtin codename (`_builtin_protocol_features`), newest
first from `_head_of_builtin_activation_list`, each entry holding the codename activated before it
and its block. `activate_feature` pushes onto both. `popped_blocks_to(n)`, run whenever a fork
switch pops blocks, unlinks from the front of the list the builtins activated after block `n`,
resetting their entries, and pops the same activations from the vector.

The abstract model is the list of activations, oldest first (`Activation`). A manager represents
such a list (`Represents`) when its vector lists them, the entry of each activated codename links
to the codename activated before it (`entryFrom`), the other entries are inactive, and the head
is the newest codename; the blocks of a valid list are non-decreasing and below `not_active`, and
no codename appears twice (`ValidActivations`). An activation appends to the list
(`Represents.activateFeature`), and `popped_blocks_to(n)` keeps the activations at blocks up to `n`
(`Represents.poppedBlocksTo`, through `unlinkAfter_entries` for the loop). A representation
determines the manager (`Represents.unique`), so popping after a run of activations gives the
manager that the run of the kept calls gives.

The sentinel `not_active` is the largest block number. An activation at that block leaves the
entry looking inactive, so the same builtin can be activated again and its entry then links to
itself; and every builtin that was never activated counts as activated at that block. The results
therefore ask for blocks below it.

Not modelled: the features themselves and their dependencies, which only decide which digests the
set recognizes; the iterator of `protocol_feature_entry` is the digest of the feature it points to.
-/

namespace InfraBlockchain.Chain

/-- `builtin_protocol_feature_entry::no_previous`, the largest `size_t`. -/
def noPrevious : UInt64 := 0xFFFFFFFFFFFFFFFF

/-- `builtin_protocol_feature_entry::not_active`, the largest `uint32_t`. -/
def notActive : UInt32 := 0xFFFFFFFF

/-- `builtin_protocol_feature_entry`. -/
structure BuiltinProtocolFeatureEntry where
  /-- `previous`: the codename activated before this one. -/
  previous : UInt64
  /-- `activation_block_num`. -/
  activation_block_num : UInt32
  deriving DecidableEq, Repr

/-- A default-constructed entry: not active, and linked to nothing. -/
def BuiltinProtocolFeatureEntry.inactive : BuiltinProtocolFeatureEntry := ⟨noPrevious, notActive⟩

/-- `protocol_feature_entry`, with the digest of the feature that its iterator points to. -/
structure ProtocolFeatureEntry (D : Type) where
  /-- The digest of `iterator_to_protocol_feature`. -/
  feature_digest : D
  /-- `activation_block_num`. -/
  activation_block_num : UInt32
  deriving DecidableEq, Repr

/-- `protocol_feature_manager`. Of `_protocol_feature_set` it reads, for a recognized digest, the
feature's `builtin_feature` codename. -/
structure ProtocolFeatureManager (D : Type) where
  /-- `_protocol_feature_set`: `none` for a digest it does not recognize. -/
  protocol_feature_set : D → Option (Option UInt32)
  /-- `_activated_protocol_features`. -/
  activated_protocol_features : List (ProtocolFeatureEntry D)
  /-- `_builtin_protocol_features`, indexed by codename. -/
  builtin_protocol_features : List BuiltinProtocolFeatureEntry
  /-- `_head_of_builtin_activation_list`. -/
  head_of_builtin_activation_list : UInt64
  /-- `_initialized`. -/
  initialized : Bool

namespace ProtocolFeatureManager

variable {D : Type}

/-- The constructor: a slot for each builtin codename that the set recognizes, nothing
activated. -/
def create (pfs : D → Option (Option UInt32)) (builtin_count : Nat) : ProtocolFeatureManager D where
  protocol_feature_set := pfs
  activated_protocol_features := []
  builtin_protocol_features := List.replicate builtin_count .inactive
  head_of_builtin_activation_list := noPrevious
  initialized := false

/-- `is_builtin_activated`. -/
def isBuiltinActivated (m : ProtocolFeatureManager D) (feature_codename current_block_num : UInt32) :
    Bool :=
  let indx := feature_codename.toNat
  if indx < m.builtin_protocol_features.length then
    decide ((m.builtin_protocol_features.getD indx .inactive).activation_block_num ≤
      current_block_num)
  else false

/-- The updates of `activate_feature` once its checks have passed. -/
def pushActivation (m : ProtocolFeatureManager D) (feature_digest : D)
    (indx current_block_num : UInt32) : ProtocolFeatureManager D :=
  { m with
    activated_protocol_features :=
      m.activated_protocol_features ++ [⟨feature_digest, current_block_num⟩]
    builtin_protocol_features := m.builtin_protocol_features.set indx.toNat
      ⟨m.head_of_builtin_activation_list, current_block_num⟩
    head_of_builtin_activation_list := indx.toUInt64 }

/-- `activate_feature`. -/
def activateFeature (m : ProtocolFeatureManager D) (feature_digest : D) (current_block_num : UInt32) :
    Except Exception (ProtocolFeatureManager D) := do
  eosAssert m.initialized .protocol_feature_exception
    "protocol_feature_manager is not yet initialized"
  match m.protocol_feature_set feature_digest with
  | none => .error ⟨.protocol_feature_exception, "unrecognized protocol feature digest: ${digest}"⟩
  | some builtin_feature =>
    eosAssert (m.activated_protocol_features.getLast?.all
        (·.activation_block_num ≤ current_block_num)) .protocol_feature_exception
      ("last protocol feature activation block num is ${last_activation_block_num} yet " ++
        "attempting to activate protocol feature with a current block num of " ++
        "${current_block_num}protocol features is ${last_activation_block_num}")
    match builtin_feature with
    | none => .error ⟨.protocol_feature_exception,
        "invariant failure: encountered non-builtin protocol feature which is not yet supported"⟩
    | some indx =>
      eosAssert (indx.toNat < m.builtin_protocol_features.length) .protocol_feature_exception
        ("invariant failure while trying to activate feature with digest '${digest}': " ++
          "unsupported builtin_protocol_feature_t ${codename}")
      eosAssert ((m.builtin_protocol_features.getD indx.toNat .inactive).activation_block_num ==
          notActive) .protocol_feature_exception
        "cannot activate already activated builtin feature with digest: ${digest}"
      pure (m.pushActivation feature_digest indx current_block_num)

/-- The activations in order, each on the manager that the previous one left. -/
def activateAll (m : ProtocolFeatureManager D) (features : List (D × UInt32)) :
    Except Exception (ProtocolFeatureManager D) :=
  features.foldlM (fun m f => m.activateFeature f.1 f.2) m

/-- `init`: the activations recorded in the `protocol_state_object`, in their order. -/
def init (m : ProtocolFeatureManager D) (activated_protocol_features : List (D × UInt32)) :
    Except Exception (ProtocolFeatureManager D) := do
  eosAssert (!m.initialized) .protocol_feature_exception
    "cannot initialize protocol_feature_manager twice"
  activateAll { m with initialized := true } activated_protocol_features

end ProtocolFeatureManager

/-- The first loop of `popped_blocks_to`: while the head's entry was activated after `block_num`,
reset it and move the head to its `previous`. Each pass resets the entry that it leaves, so on the
managers that activations build the loop ends within the vector's length and one more look
(`unlinkAfter_entries`). -/
def unlinkAfter (block_num : UInt32) :
    Nat → List BuiltinProtocolFeatureEntry → UInt64 → List BuiltinProtocolFeatureEntry × UInt64
  | 0, builtin, head => (builtin, head)
  | fuel + 1, builtin, head =>
    if head = noPrevious then (builtin, head)
    else
      let e := builtin.getD head.toNat .inactive
      if e.activation_block_num ≤ block_num then (builtin, head)
      else unlinkAfter block_num fuel (builtin.set head.toNat .inactive) e.previous

namespace ProtocolFeatureManager

variable {D : Type}

/-- `popped_blocks_to`. -/
def poppedBlocksTo (m : ProtocolFeatureManager D) (block_num : UInt32) :
    Except Exception (ProtocolFeatureManager D) := do
  eosAssert m.initialized .protocol_feature_exception
    "protocol_feature_manager is not yet initialized"
  let unlinked := unlinkAfter block_num (m.builtin_protocol_features.length + 1)
    m.builtin_protocol_features m.head_of_builtin_activation_list
  pure { m with
    builtin_protocol_features := unlinked.1
    head_of_builtin_activation_list := unlinked.2
    activated_protocol_features :=
      m.activated_protocol_features.rdropWhile (block_num < ·.activation_block_num) }

end ProtocolFeatureManager

/-- The codenames on the list of builtin activations from `p`, following `previous` until
`no_previous`, or `none` when `fuel` links do not reach it. No function of the source walks the
whole list: `popped_blocks_to` walks its front. -/
def walkBuiltins (builtin : List BuiltinProtocolFeatureEntry) : Nat → UInt64 → Option (List UInt64)
  | 0, p => if p = noPrevious then some [] else none
  | fuel + 1, p =>
    if p = noPrevious then some []
    else (walkBuiltins builtin fuel (builtin.getD p.toNat .inactive).previous).map (p :: ·)

/-- The list of builtin activations of a manager, from its head, with one link for each slot. -/
def ProtocolFeatureManager.builtinActivationList {D : Type} (m : ProtocolFeatureManager D) :
    Option (List UInt64) :=
  walkBuiltins m.builtin_protocol_features m.builtin_protocol_features.length
    m.head_of_builtin_activation_list

/-- What a manager is asked to do: an activation at a block, or a rollback to a block. -/
inductive FeatureRequest (D : Type) where
  | activate_feature (feature_digest : D) (current_block_num : UInt32)
  | popped_blocks_to (block_num : UInt32)

/-- One request. -/
def featureStep {D : Type} (m : ProtocolFeatureManager D) :
    FeatureRequest D → Except Exception (ProtocolFeatureManager D)
  | .activate_feature d b => m.activateFeature d b
  | .popped_blocks_to n => m.poppedBlocksTo n

/-- The activations that a run of requests from `m` has made and that stand at its end, as the calls
`(digest, block)`, after those of `h`: a request that raises changes nothing, an activation adds its
call, and `popped_blocks_to(n)` drops the calls at blocks after `n`. -/
def standingActivations : ProtocolFeatureManager D → List (FeatureRequest D) → List (D × UInt32) →
    List (D × UInt32)
  | _, [], h => h
  | m, r :: rs, h =>
    match featureStep m r with
    | .ok m' => standingActivations m' rs (match r with
        | .activate_feature d b => h ++ [(d, b)]
        | .popped_blocks_to n => h.filter (·.2 ≤ n))
    | .error _ => standingActivations m rs h

/-! ## The abstract model: the list of activations -/

/-- An activation of a builtin feature: its digest, its codename and the block. -/
structure Activation (D : Type) where
  /-- The digest of the feature. -/
  feature_digest : D
  /-- Its `builtin_feature` codename. -/
  codename : UInt32
  /-- The block of the activation. -/
  block_num : UInt32
  deriving DecidableEq, Repr

namespace Activation

variable {D : Type}

/-- The entry of the activation vector for an activation. -/
def entry (a : Activation D) : ProtocolFeatureEntry D := ⟨a.feature_digest, a.block_num⟩

/-- The call of `activate_feature` that makes an activation. -/
def call (a : Activation D) : D × UInt32 := (a.feature_digest, a.block_num)

end Activation

variable {D : Type}

/-- The head of the list after activations `acts` onto a list whose head was `p`. -/
def headFrom (p : UInt64) (acts : List (Activation D)) : UInt64 :=
  (acts.getLast?.map (·.codename.toUInt64)).getD p

/-- The entry of codename `i` after activations `acts` onto a list whose head was `p`: the first
activation of `i` links to the codename activated before it. -/
def entryFrom (p : UInt64) : List (Activation D) → Nat → BuiltinProtocolFeatureEntry
  | [], _ => .inactive
  | a :: as, i => if a.codename.toNat = i then ⟨p, a.block_num⟩ else entryFrom a.codename.toUInt64 as i

/-- The vector of `size` entries after activations `acts`. -/
def entries (acts : List (Activation D)) (size : Nat) : List BuiltinProtocolFeatureEntry :=
  (List.range size).map (entryFrom noPrevious acts)

/-- A list of activations that `activate_feature` accepts one after the other. -/
structure ValidActivations (pfs : D → Option (Option UInt32)) (size : Nat)
    (acts : List (Activation D)) : Prop where
  /-- Each digest is recognized, with the activation's codename. -/
  recognized : ∀ a ∈ acts, pfs a.feature_digest = some (some a.codename)
  /-- Each codename has its slot. -/
  lt_size : ∀ a ∈ acts, a.codename.toNat < size
  /-- No builtin is activated twice. -/
  nodup : (acts.map (·.codename)).Nodup
  /-- The blocks do not decrease. -/
  sorted : acts.Pairwise (·.block_num ≤ ·.block_num)
  /-- No block is the sentinel. -/
  active : ∀ a ∈ acts, a.block_num ≠ notActive

/-- A manager holds the activations `acts`: its vector lists them, its entries link them newest
first from its head, and they are valid for its set and its vector. -/
structure Represents (m : ProtocolFeatureManager D) (acts : List (Activation D)) : Prop where
  /-- `init` has run. -/
  initialized : m.initialized = true
  /-- The activation vector. -/
  activated : m.activated_protocol_features = acts.map Activation.entry
  /-- The entries of the builtins. -/
  builtin : m.builtin_protocol_features = entries acts m.builtin_protocol_features.length
  /-- The newest codename. -/
  head : m.head_of_builtin_activation_list = headFrom noPrevious acts
  /-- The activations are valid. -/
  valid : ValidActivations m.protocol_feature_set m.builtin_protocol_features.length acts

/-! ## The entries of a list of activations -/

@[simp] theorem headFrom_nil (p : UInt64) : headFrom p ([] : List (Activation D)) = p := rfl

@[simp] theorem headFrom_append_singleton (p : UInt64) (acts : List (Activation D))
    (a : Activation D) : headFrom p (acts ++ [a]) = a.codename.toUInt64 := by
  simp [headFrom]

/-- The head after a list of activations is that of the last. -/
theorem headFrom_cons (p : UInt64) (a : Activation D) (acts : List (Activation D)) :
    headFrom p (a :: acts) = headFrom a.codename.toUInt64 acts := by
  cases acts using List.reverseRecOn with
  | nil => simp [headFrom]
  | append_singleton acts b _ => rw [← List.cons_append, headFrom_append_singleton,
      headFrom_append_singleton]

/-- A codename is never `no_previous`. -/
theorem toUInt64_ne_noPrevious (c : UInt32) : c.toUInt64 ≠ noPrevious := by
  intro h
  have h' := congrArg UInt64.toNat h
  have hc := c.toNat_lt
  rw [UInt32.toNat_toUInt64] at h'
  simp [noPrevious] at h'
  omega

/-- A codename that no activation has keeps the inactive entry. -/
theorem entryFrom_of_not_mem {p : UInt64} {acts : List (Activation D)} {i : Nat}
    (h : i ∉ acts.map (·.codename.toNat)) : entryFrom p acts i = .inactive := by
  induction acts generalizing p with
  | nil => rfl
  | cons a as ih =>
    simp only [List.map_cons, List.mem_cons, not_or] at h
    simp [entryFrom, Ne.symm h.1, ih h.2]

/-- The entry of an activated codename links to the codename activated before it. -/
theorem entryFrom_of_split {p : UInt64} {xs ys : List (Activation D)} {a : Activation D}
    (h : a.codename.toNat ∉ xs.map (·.codename.toNat)) :
    entryFrom p (xs ++ a :: ys) a.codename.toNat = ⟨headFrom p xs, a.block_num⟩ := by
  induction xs generalizing p with
  | nil => simp [entryFrom]
  | cons x xs ih =>
    simp only [List.map_cons, List.mem_cons, not_or] at h
    simp only [List.cons_append, entryFrom, headFrom_cons]
    rw [if_neg (Ne.symm h.1), ih h.2]

/-- An activation of a fresh codename sets its entry and leaves the others. -/
theorem entryFrom_append_singleton {p : UInt64} {acts : List (Activation D)} {a : Activation D}
    (h : a.codename.toNat ∉ acts.map (·.codename.toNat)) (i : Nat) :
    entryFrom p (acts ++ [a]) i =
      if a.codename.toNat = i then ⟨headFrom p acts, a.block_num⟩ else entryFrom p acts i := by
  split_ifs with hi
  · subst hi
    exact entryFrom_of_split h
  · induction acts generalizing p with
    | nil => simp [entryFrom, hi]
    | cons x xs ih =>
      simp only [List.map_cons, List.mem_cons, not_or] at h
      simp only [List.cons_append, entryFrom]
      split_ifs
      · rfl
      · exact ih h.2

/-- There is one entry a builtin feature. -/
theorem length_entries (acts : List (Activation D)) (size : Nat) :
    (entries acts size).length = size := by
  simp [entries]

/-- The entry of a builtin is read from the activations. -/
theorem getD_entries (acts : List (Activation D)) (size i : Nat) :
    (entries acts size).getD i .inactive =
      if i < size then entryFrom noPrevious acts i else .inactive := by
  split_ifs with hi <;> simp [entries, List.getD_eq_getElem?_getD, hi]

/-- The vector after an activation of a fresh codename is the vector before with its entry
set. -/
theorem entries_append_singleton {acts : List (Activation D)} {a : Activation D} (size : Nat)
    (h : a.codename.toNat ∉ acts.map (·.codename.toNat)) :
    entries (acts ++ [a]) size =
      (entries acts size).set a.codename.toNat ⟨headFrom noPrevious acts, a.block_num⟩ := by
  apply List.ext_getElem
  · simp [length_entries]
  · intro i h₁ h₂
    rw [List.getElem_set]
    simp only [entries, List.getElem_map, List.getElem_range]
    rw [entryFrom_append_singleton h]

/-- Resetting the entry of the newest activation gives the vector without it. -/
theorem entries_set_inactive {acts : List (Activation D)} {a : Activation D} (size : Nat)
    (h : a.codename.toNat ∉ acts.map (·.codename.toNat)) :
    (entries (acts ++ [a]) size).set a.codename.toNat .inactive = entries acts size := by
  rw [entries_append_singleton size h, List.set_set]
  apply List.ext_getElem
  · simp
  · intro i h₁ h₂
    rw [List.getElem_set]
    split_ifs with hi
    · subst hi
      simp [entries, entryFrom_of_not_mem h]
    · rfl

/-! ## Valid lists of activations -/

namespace ValidActivations

variable {pfs : D → Option (Option UInt32)} {size : Nat}

/-- No activations are valid ones. -/
theorem nil : ValidActivations pfs size ([] : List (Activation D)) :=
  ⟨by simp, by simp, by simp, by simp, by simp⟩

/-- The codenames, as indices, have no duplicates either. -/
theorem nodup_toNat {acts : List (Activation D)} (h : ValidActivations pfs size acts) :
    (acts.map (·.codename.toNat)).Nodup := by
  have : acts.map (·.codename.toNat) = (acts.map (·.codename)).map UInt32.toNat := by simp
  rw [this]
  exact h.nodup.map (fun _ _ e => UInt32.toNat_inj.1 e)

/-- A valid list less its newest activation is valid, and that activation's codename is fresh. -/
theorem dropLast {acts : List (Activation D)} {a : Activation D}
    (h : ValidActivations pfs size (acts ++ [a])) :
    ValidActivations pfs size acts ∧ a.codename.toNat ∉ acts.map (·.codename.toNat) := by
  have hnd := h.nodup_toNat
  rw [List.map_append, List.nodup_append] at hnd
  refine ⟨⟨fun b hb => h.recognized b (by simp [hb]), fun b hb => h.lt_size b (by simp [hb]),
    (h.nodup.sublist (by simp)), h.sorted.sublist (by simp), fun b hb => h.active b (by simp [hb])⟩,
    fun hmem => ?_⟩
  exact hnd.2.2 _ hmem _ (by simp) rfl

/-- Distinct codenames with their slots are at most as many as the slots. -/
theorem length_le {acts : List (Activation D)} (h : ValidActivations pfs size acts) :
    acts.length ≤ size := by
  have hsub : (acts.map (·.codename.toNat)).Subperm (List.range size) :=
    h.nodup_toNat.subperm fun x hx => by
      obtain ⟨a, ha, rfl⟩ := List.mem_map.1 hx
      exact List.mem_range.2 (h.lt_size a ha)
  simpa using hsub.length_le

/-- A sublist of a valid list is valid. -/
theorem sublist {acts acts' : List (Activation D)} (h : ValidActivations pfs size acts)
    (hs : acts'.Sublist acts) : ValidActivations pfs size acts' :=
  ⟨fun a ha => h.recognized a (hs.subset ha), fun a ha => h.lt_size a (hs.subset ha),
    h.nodup.sublist (hs.map _), h.sorted.sublist hs, fun a ha => h.active a (hs.subset ha)⟩

end ValidActivations

/-! ## The loops on represented managers -/

/-- The walk from the head of a prefix of the activations lists the prefix newest first. -/
theorem walkBuiltins_entries {pfs : D → Option (Option UInt32)} {size : Nat}
    {acts suf : List (Activation D)} (h : ValidActivations pfs size (acts ++ suf)) :
    ∀ fuel, acts.length ≤ fuel →
      walkBuiltins (entries (acts ++ suf) size) fuel (headFrom noPrevious acts) =
        some (acts.map (·.codename.toUInt64)).reverse := by
  -- induction on the prefix, newest last: the newest entry links to the prefix without it
  induction acts using List.reverseRecOn generalizing suf with
  | nil =>
    intro fuel _
    cases fuel <;> simp [walkBuiltins]
  | append_singleton acts a ih =>
    intro fuel hfuel
    have h' : ValidActivations pfs size (acts ++ a :: suf) := by simpa using h
    obtain ⟨k, rfl⟩ : ∃ k, fuel = k + 1 := ⟨fuel - 1, by simp at hfuel; omega⟩
    have hfresh : a.codename.toNat ∉ acts.map (·.codename.toNat) := by
      have hnd := h'.nodup_toNat
      rw [List.map_append, List.map_cons, List.nodup_append] at hnd
      exact fun hmem => hnd.2.2 _ hmem _ List.mem_cons_self rfl
    have hlt : a.codename.toNat < size := h'.lt_size a (by simp)
    have hentry : (entries (acts ++ a :: suf) size).getD a.codename.toNat .inactive =
        ⟨headFrom noPrevious acts, a.block_num⟩ := by
      rw [getD_entries, if_pos hlt, entryFrom_of_split hfresh]
    have hne := toUInt64_ne_noPrevious a.codename
    rw [show acts ++ [a] ++ suf = acts ++ a :: suf by simp]
    simp only [headFrom_append_singleton, walkBuiltins, if_neg hne, UInt32.toNat_toUInt64, hentry]
    rw [ih h' k (by simp at hfuel; omega)]
    simp

/-- The unlink loop of `popped_blocks_to` on the entries of valid activations resets exactly the
entries of the activations after `block_num`, newest first, and stops at the head of the rest. -/
theorem unlinkAfter_entries {pfs : D → Option (Option UInt32)} {size : Nat} (block_num : UInt32) :
    ∀ {acts : List (Activation D)}, ValidActivations pfs size acts → ∀ fuel, acts.length < fuel →
      unlinkAfter block_num fuel (entries acts size) (headFrom noPrevious acts) =
        (entries (acts.rdropWhile (block_num < ·.block_num)) size,
          headFrom noPrevious (acts.rdropWhile (block_num < ·.block_num))) := by
  intro acts
  -- induction on the activations, newest last: one pass of the loop drops the newest
  induction acts using List.reverseRecOn with
  | nil =>
    intro _ fuel hfuel
    obtain ⟨k, rfl⟩ : ∃ k, fuel = k + 1 := ⟨fuel - 1, by simp at hfuel; omega⟩
    simp [unlinkAfter, List.rdropWhile]
  | append_singleton acts a ih =>
    intro h fuel hfuel
    obtain ⟨k, rfl⟩ : ∃ k, fuel = k + 1 := ⟨fuel - 1, by simp at hfuel; omega⟩
    obtain ⟨hv, hfresh⟩ := h.dropLast
    have hlt : a.codename.toNat < size := h.lt_size a (by simp)
    have hentry : (entries (acts ++ [a]) size).getD a.codename.toNat .inactive =
        ⟨headFrom noPrevious acts, a.block_num⟩ := by
      rw [getD_entries, if_pos hlt, entryFrom_of_split hfresh]
    have hne := toUInt64_ne_noPrevious a.codename
    rw [List.rdropWhile_concat]
    simp only [unlinkAfter, headFrom_append_singleton, if_neg hne, UInt32.toNat_toUInt64, hentry]
    by_cases hb : a.block_num ≤ block_num
    · -- the newest activation stays, and so does everything before it
      have hkeep : ¬ (block_num < a.block_num) := UInt32.not_lt.2 hb
      simp [hb, hkeep]
    · have hdrop : block_num < a.block_num := UInt32.not_le.1 hb
      simp only [hb, if_false, decide_eq_true hdrop, if_true]
      rw [entries_set_inactive size hfresh]
      exact ih hv k (by simp at hfuel; omega)

/-- On activations with non-decreasing blocks, dropping the newest ones after `block_num` keeps
exactly those up to it. -/
theorem rdropWhile_eq_filter (block_num : UInt32) :
    ∀ {acts : List (Activation D)}, acts.Pairwise (·.block_num ≤ ·.block_num) →
      acts.rdropWhile (block_num < ·.block_num) = acts.filter (·.block_num ≤ block_num) := by
  intro acts
  induction acts using List.reverseRecOn with
  | nil => simp [List.rdropWhile]
  | append_singleton acts a ih =>
    intro hs
    rw [List.pairwise_append] at hs
    rw [List.rdropWhile_concat, List.filter_append]
    by_cases hb : a.block_num ≤ block_num
    · -- every earlier activation is at a block up to `a`'s
      have hall : acts.filter (·.block_num ≤ block_num) = acts :=
        List.filter_eq_self.2 fun b hb' => by
          have := hs.2.2 b hb' a (by simp)
          simpa using UInt32.le_trans this hb
      simp [hb, UInt32.not_lt.2 hb, hall]
    · simp [hb, UInt32.not_le.1 hb, ih hs.1]

/-- The activation vector popped after `block_num`. -/
theorem rdropWhile_map_entry (block_num : UInt32) (acts : List (Activation D)) :
    (acts.map Activation.entry).rdropWhile (block_num < ·.activation_block_num) =
      (acts.rdropWhile (block_num < ·.block_num)).map Activation.entry := by
  induction acts using List.reverseRecOn with
  | nil => simp [List.rdropWhile]
  | append_singleton acts a ih =>
    rw [List.map_append, List.map_singleton, List.rdropWhile_concat, List.rdropWhile_concat]
    by_cases hb : block_num < a.block_num
    · simp [Activation.entry, hb, ih]
    · simp [Activation.entry, hb]

/-! ## The operations on represented managers -/

namespace ProtocolFeatureManager

variable {m m' : ProtocolFeatureManager D}

/-- What a successful activation checked, and what it did. -/
theorem activateFeature_eq_ok {d : D} {b : UInt32} (h : m.activateFeature d b = .ok m') :
    ∃ c, m.initialized = true ∧ m.protocol_feature_set d = some (some c) ∧
      m.activated_protocol_features.getLast?.all (·.activation_block_num ≤ b) = true ∧
      c.toNat < m.builtin_protocol_features.length ∧
      (m.builtin_protocol_features.getD c.toNat .inactive).activation_block_num = notActive ∧
      m' = m.pushActivation d c b := by
  unfold activateFeature at h
  rw [eosAssert_bind] at h
  split_ifs at h with hinit
  rcases hset : m.protocol_feature_set d with _ | builtin_feature
  · simp [hset] at h
  · simp only [hset, eosAssert_bind] at h
    split_ifs at h with hlast
    rcases builtin_feature with _ | c
    · simp at h
    · dsimp only at h
      split_ifs at h with hlt hna
      refine ⟨c, hinit, rfl, hlast, of_decide_eq_true hlt, by simpa using hna, ?_⟩
      simpa [pure, Except.pure] using h.symm

@[simp] theorem pushActivation_set (d : D) (c b : UInt32) :
    (m.pushActivation d c b).protocol_feature_set = m.protocol_feature_set := rfl

@[simp] theorem length_pushActivation (d : D) (c b : UInt32) :
    (m.pushActivation d c b).builtin_protocol_features.length =
      m.builtin_protocol_features.length := by
  simp [pushActivation]

/-- The manager that `popped_blocks_to(n)` leaves: the activations up to block `n`. -/
def keptTo (m : ProtocolFeatureManager D) (acts : List (Activation D)) (n : UInt32) :
    ProtocolFeatureManager D :=
  { m with
    builtin_protocol_features :=
      entries (acts.filter (·.block_num ≤ n)) m.builtin_protocol_features.length
    head_of_builtin_activation_list := headFrom noPrevious (acts.filter (·.block_num ≤ n))
    activated_protocol_features := (acts.filter (·.block_num ≤ n)).map Activation.entry }

@[simp] theorem activateAll_nil (m : ProtocolFeatureManager D) : m.activateAll [] = .ok m := rfl

/-- Activating a list activates its first and then the rest. -/
theorem activateAll_cons (m : ProtocolFeatureManager D) (f : D × UInt32) (fs : List (D × UInt32)) :
    m.activateAll (f :: fs) = (m.activateFeature f.1 f.2 >>= fun m₁ => m₁.activateAll fs) := by
  simp [activateAll, List.foldlM_cons]

/-- The manager after `init` with nothing recorded: initialized, nothing activated. -/
def initial (pfs : D → Option (Option UInt32)) (builtin_count : Nat) : ProtocolFeatureManager D :=
  { create pfs builtin_count with initialized := true }


end ProtocolFeatureManager

open ProtocolFeatureManager

variable {m m' : ProtocolFeatureManager D} {acts : List (Activation D)}

/-- An activation at a block below the sentinel appends to the represented activations. -/
theorem Represents.activateFeature {d : D} {b : UInt32} (hm : Represents m acts)
    (h : m.activateFeature d b = .ok m') (hb : b ≠ notActive) :
    ∃ c, m.protocol_feature_set d = some (some c) ∧ m' = m.pushActivation d c b ∧
      Represents m' (acts ++ [⟨d, c, b⟩]) := by
  obtain ⟨c, -, hset, hlast, hlt, hna, rfl⟩ := activateFeature_eq_ok h
  -- the checked entry was inactive, so the codename was not activated yet
  have hfresh : c.toNat ∉ acts.map (·.codename.toNat) := by
    intro hmem
    obtain ⟨a, ha, hac⟩ := List.mem_map.1 hmem
    obtain ⟨xs, ys, rfl⟩ := List.append_of_mem ha
    have hxs : a.codename.toNat ∉ xs.map (·.codename.toNat) := by
      have hnd := hm.valid.nodup_toNat
      rw [List.map_append, List.map_cons, List.nodup_append] at hnd
      exact fun hmem => hnd.2.2 _ hmem _ List.mem_cons_self rfl
    rw [hm.builtin, getD_entries, if_pos (by rw [← hac]; simpa using hm.valid.lt_size a ha),
      ← hac, entryFrom_of_split hxs] at hna
    exact hm.valid.active a ha hna
  have hsorted : ∀ x ∈ acts, x.block_num ≤ b := by
    intro x hx
    obtain ⟨y, hy⟩ : ∃ y, acts.getLast? = some y := by
      cases hl : acts.getLast? with
      | none => simp [List.getLast?_eq_none_iff.1 hl] at hx
      | some y => exact ⟨y, rfl⟩
    have hyb : y.block_num ≤ b := by
      rw [hm.activated, List.getLast?_map, hy] at hlast
      simpa [Activation.entry] using hlast
    have hyl : y ∈ acts := List.mem_of_getLast? hy
    obtain ⟨xs, rfl⟩ := List.getLast?_eq_some_iff.1 hy
    rcases List.mem_append.1 hx with hx | hx
    · exact UInt32.le_trans ((List.pairwise_append.1 hm.valid.sorted).2.2 x hx y (by simp)) hyb
    · simp at hx
      rw [hx]
      exact hyb
  refine ⟨c, hset, rfl, ⟨hm.initialized, ?_, ?_, ?_, ?_⟩⟩
  · simp [pushActivation, hm.activated, Activation.entry]
  · rw [length_pushActivation]
    simp only [pushActivation]
    rw [entries_append_singleton _ hfresh, ← hm.builtin, hm.head]
  · simp [pushActivation]
  · have hv := hm.valid
    rw [pushActivation_set, length_pushActivation]
    refine ⟨?_, ?_, ?_, ?_, ?_⟩
    · intro a ha
      rcases List.mem_append.1 ha with ha | ha
      · exact hv.recognized a ha
      · simp at ha; rw [ha]; exact hset
    · intro a ha
      rcases List.mem_append.1 ha with ha | ha
      · exact hv.lt_size a ha
      · simp at ha; rw [ha]; exact hlt
    · rw [List.map_append, List.nodup_append]
      refine ⟨hv.nodup, by simp, ?_⟩
      intro x hx y hy hxy
      simp at hy
      subst hy hxy
      exact hfresh (by
        obtain ⟨a, ha, rfl⟩ := List.mem_map.1 hx
        exact List.mem_map.2 ⟨a, ha, rfl⟩)
    · rw [List.pairwise_append]
      exact ⟨hv.sorted, by simp, fun x hx y hy => by simp at hy; rw [hy]; exact hsorted x hx⟩
    · intro a ha
      rcases List.mem_append.1 ha with ha | ha
      · exact hv.active a ha
      · simp at ha; rw [ha]; exact hb

/-- `popped_blocks_to(n)` on a represented manager keeps the activations up to block `n`. -/
theorem Represents.poppedBlocksTo (hm : Represents m acts) (n : UInt32) :
    m.poppedBlocksTo n = .ok (m.keptTo acts n) ∧ Represents (m.keptTo acts n)
      (acts.filter (·.block_num ≤ n)) := by
  have hloop := unlinkAfter_entries n hm.valid (m.builtin_protocol_features.length + 1)
    (by have := hm.valid.length_le; omega)
  rw [← hm.builtin, ← hm.head, rdropWhile_eq_filter n hm.valid.sorted] at hloop
  constructor
  · simp only [ProtocolFeatureManager.poppedBlocksTo, hm.initialized, eosAssert_bind, if_true,
      hloop, hm.activated, rdropWhile_map_entry, rdropWhile_eq_filter n hm.valid.sorted, keptTo]
    rfl
  · refine ⟨hm.initialized, rfl, ?_, rfl, ?_⟩
    · simp [keptTo, length_entries]
    · simp only [keptTo, length_entries]
      exact hm.valid.sublist List.filter_sublist

/-- An activation that keeps the activations valid succeeds. -/
theorem Represents.activateFeature_of_valid {a : Activation D} (hm : Represents m acts)
    (hv : ValidActivations m.protocol_feature_set m.builtin_protocol_features.length (acts ++ [a])) :
    m.activateFeature a.feature_digest a.block_num =
      .ok (m.pushActivation a.feature_digest a.codename a.block_num) := by
  obtain ⟨-, hfresh⟩ := hv.dropLast
  have hlt : a.codename.toNat < m.builtin_protocol_features.length := hv.lt_size a (by simp)
  have hentry : (m.builtin_protocol_features.getD a.codename.toNat .inactive).activation_block_num =
      notActive := by
    rw [hm.builtin, getD_entries, if_pos hlt, entryFrom_of_not_mem hfresh]
    rfl
  -- the newest activation so far is at a block up to `a`'s
  have hlast : m.activated_protocol_features.getLast?.all
      (·.activation_block_num ≤ a.block_num) = true := by
    rw [hm.activated, List.getLast?_map]
    cases hl : acts.getLast? with
    | none => rfl
    | some y =>
      have hy : y ∈ acts := List.mem_of_getLast? hl
      have hle := (List.pairwise_append.1 hv.sorted).2.2 y hy a (by simp)
      simpa [Activation.entry] using hle
  simp only [ProtocolFeatureManager.activateFeature, hm.initialized, eosAssert_bind, if_true,
    hv.recognized a (by simp), hlast, decide_eq_true hlt, hentry, beq_self_eq_true]
  rfl

/-- A run of activations at blocks below the sentinel appends to the represented activations,
one for each call, and keeps the set and the vector's length. -/
theorem Represents.activateAll (hm : Represents m acts) :
    ∀ (fs : List (D × UInt32)) {m'}, m.activateAll fs = .ok m' → (∀ f ∈ fs, f.2 ≠ notActive) →
      ∃ acts', Represents m' (acts ++ acts') ∧ acts'.map Activation.call = fs ∧
        m'.protocol_feature_set = m.protocol_feature_set ∧
        m'.builtin_protocol_features.length = m.builtin_protocol_features.length := by
  intro fs
  induction fs generalizing m acts with
  | nil =>
    intro m' h _
    cases h
    exact ⟨[], by simpa using hm, rfl, rfl, rfl⟩
  | cons f fs ih =>
    intro m' h hb
    rw [activateAll_cons, bind_eq_ok] at h
    obtain ⟨m₁, h₁, h₂⟩ := h
    obtain ⟨c, -, rfl, hm₁⟩ := hm.activateFeature h₁ (hb f List.mem_cons_self)
    obtain ⟨acts', hm', hcalls, hset, hlen⟩ :=
      ih hm₁ h₂ (fun g hg => hb g (List.mem_cons_of_mem f hg))
    refine ⟨⟨f.1, c, f.2⟩ :: acts', by simpa using hm', by simp [Activation.call, hcalls], ?_, ?_⟩
    · rw [hset, pushActivation_set]
    · rw [hlen, length_pushActivation]

/-- Valid activations after the represented ones are accepted again by a run of their calls. -/
theorem Represents.activateAll_calls (hm : Represents m acts) :
    ∀ (acts' : List (Activation D)),
      ValidActivations m.protocol_feature_set m.builtin_protocol_features.length (acts ++ acts') →
      ∃ m', m.activateAll (acts'.map Activation.call) = .ok m' ∧ Represents m' (acts ++ acts') ∧
        m'.protocol_feature_set = m.protocol_feature_set ∧
        m'.builtin_protocol_features.length = m.builtin_protocol_features.length := by
  intro acts'
  induction acts' generalizing m acts with
  | nil => exact fun _ => ⟨m, rfl, by simpa using hm, rfl, rfl⟩
  | cons a acts' ih =>
    intro hv
    have hv₁ : ValidActivations m.protocol_feature_set m.builtin_protocol_features.length
        (acts ++ [a]) := hv.sublist (by simp)
    have hok := hm.activateFeature_of_valid hv₁
    obtain ⟨c, hset, -, hm₁⟩ := hm.activateFeature hok (hv₁.active a (by simp))
    have hc : c = a.codename := by
      rw [hv₁.recognized a (by simp)] at hset
      simpa using hset.symm
    subst hc
    obtain ⟨m', hrun, hm', hset', hlen'⟩ := ih hm₁ (by
      rw [pushActivation_set, length_pushActivation]
      simpa using hv)
    refine ⟨m', ?_, by simpa using hm', by rw [hset', pushActivation_set],
      by rw [hlen', length_pushActivation]⟩
    rw [List.map_cons, activateAll_cons]
    simp only [Activation.call, hok, bind, Except.bind]
    exact hrun

/-- A representation determines the manager, given its set and the length of its vector. -/
theorem Represents.unique (hm : Represents m acts) (hm' : Represents m' acts)
    (hset : m.protocol_feature_set = m'.protocol_feature_set)
    (hlen : m.builtin_protocol_features.length = m'.builtin_protocol_features.length) : m = m' := by
  have hb : m.builtin_protocol_features = m'.builtin_protocol_features := by
    rw [hm.builtin, hm'.builtin, hlen]
  obtain ⟨_, _, _, _, _⟩ := m
  obtain ⟨_, _, _, _, _⟩ := m'
  simp only at hset hb
  have hi := hm.initialized.trans hm'.initialized.symm
  have ha := hm.activated.trans hm'.activated.symm
  have hh := hm.head.trans hm'.head.symm
  simp only at hi ha hh
  rw [hset, hb, hi, ha, hh]

/-- The initialized manager represents no activations. -/
theorem represents_initial (pfs : D → Option (Option UInt32)) (builtin_count : Nat) :
    Represents (initial pfs builtin_count) [] := by
  refine ⟨rfl, rfl, ?_, rfl, ValidActivations.nil⟩
  simp only [initial, create, List.length_replicate, entries]
  apply List.ext_getElem <;> simp [entryFrom]

/-- On a represented manager the list of builtin activations lists the activations newest
first. -/
theorem Represents.builtinActivationList (hm : Represents m acts) :
    m.builtinActivationList = some (acts.map (·.codename.toUInt64)).reverse := by
  have hv : ValidActivations m.protocol_feature_set m.builtin_protocol_features.length
      (acts ++ []) := by simpa using hm.valid
  have hwalk := walkBuiltins_entries hv m.builtin_protocol_features.length hm.valid.length_le
  rw [List.append_nil, ← hm.builtin, ← hm.head] at hwalk
  exact hwalk

/-- On a represented manager a builtin counts as activated at a block below the sentinel exactly
when it was activated at a block up to it. -/
theorem Represents.isBuiltinActivated (hm : Represents m acts) (f c : UInt32)
    (hc : c ≠ notActive) :
    m.isBuiltinActivated f c = true ↔ ∃ a ∈ acts, a.codename = f ∧ a.block_num ≤ c := by
  have hv := hm.valid
  unfold ProtocolFeatureManager.isBuiltinActivated
  by_cases hlt : f.toNat < m.builtin_protocol_features.length
  · rw [if_pos hlt, hm.builtin, getD_entries, if_pos hlt, decide_eq_true_iff]
    by_cases hmem : f.toNat ∈ acts.map (·.codename.toNat)
    · -- the activation of `f` is the only one with its codename
      obtain ⟨a, ha, hfa⟩ := List.mem_map.1 hmem
      obtain ⟨xs, ys, rfl⟩ := List.append_of_mem ha
      have hxs : a.codename.toNat ∉ xs.map (·.codename.toNat) := by
        have hnd := hv.nodup_toNat
        rw [List.map_append, List.map_cons, List.nodup_append] at hnd
        exact fun hx => hnd.2.2 _ hx _ List.mem_cons_self rfl
      have hfa' : a.codename = f := UInt32.toNat_inj.1 hfa
      rw [← hfa, entryFrom_of_split hxs]
      constructor
      · exact fun hle => ⟨a, ha, hfa', hle⟩
      · rintro ⟨a', ha', hfa'', hle⟩
        have : a' = a := List.inj_on_of_nodup_map hv.nodup ha' ha (hfa''.trans hfa'.symm)
        rw [← this]
        exact hle
    · rw [entryFrom_of_not_mem hmem]
      constructor
      · intro hle
        exact absurd (UInt32.le_antisymm (UInt32.le_trans (by decide) hle) (by
          rw [UInt32.le_iff_toNat_le]; have := c.toNat_lt; simp [notActive]; omega)) (Ne.symm hc)
      · rintro ⟨a, ha, rfl, -⟩
        exact absurd (List.mem_map.2 ⟨a, ha, rfl⟩) hmem
  · rw [if_neg hlt]
    simp only [Bool.false_eq_true, false_iff, not_exists, not_and]
    intro a ha hfa
    exact absurd (hfa ▸ hv.lt_size a ha) hlt

/-- Along a run whose activations are below the sentinel, the manager keeps representing a list of
activations: the calls of the run's standing activations, each with its digest's codename, and the
set of features stays the one it started with. -/
theorem Represents.run_standing {reqs : List (FeatureRequest D)}
    (hreqs : ∀ d b, FeatureRequest.activate_feature d b ∈ reqs → b ≠ notActive)
    (hm : Represents m acts) :
    ∃ acts', Represents (Machine.run featureStep m reqs) acts' ∧
      acts'.map Activation.call = standingActivations m reqs (acts.map Activation.call) ∧
      (Machine.run featureStep m reqs).protocol_feature_set = m.protocol_feature_set := by
  induction reqs generalizing m acts with
  | nil => exact ⟨acts, hm, rfl, rfl⟩
  | cons r rs ih =>
    have hrs : ∀ d b, FeatureRequest.activate_feature d b ∈ rs → b ≠ notActive :=
      fun d b h => hreqs d b (List.mem_cons_of_mem _ h)
    rw [Machine.run_cons]
    simp only [standingActivations]
    cases hstep : featureStep m r with
    | error e =>
      rw [Machine.commit_of_error hstep]
      exact ih hrs hm
    | ok m' =>
      rw [Machine.commit, hstep]
      dsimp only
      cases r with
      | activate_feature d b =>
        -- the activation is appended, with the codename of its digest
        obtain ⟨c, -, rfl, hm'⟩ := hm.activateFeature hstep (hreqs d b List.mem_cons_self)
        obtain ⟨acts', h', hcalls, hset⟩ := ih hrs hm'
        refine ⟨acts', h', ?_, hset⟩
        rw [hcalls, List.map_append]
        rfl
      | popped_blocks_to n =>
        -- the activations after `n` are dropped
        obtain ⟨hpop, hkept⟩ := hm.poppedBlocksTo n
        rw [featureStep, hpop, Except.ok.injEq] at hstep
        subst hstep
        obtain ⟨acts', h', hcalls, hset⟩ := ih hrs hkept
        refine ⟨acts', h', ?_, hset⟩
        rw [hcalls]
        dsimp only
        rw [List.filter_map]
        rfl

/-- Activation rollback: popping to block `n` after a run of activations gives the manager that
the run of the calls at blocks up to `n` gives; and in every state that activations and rollbacks
reach, the activations that the manager records are the run's standing activations, each with its
digest's codename; its list of builtin activations lists each of them once, newest first; and a
builtin counts as activated at a block exactly when the run activated it at or before that block.
Blocks are below the sentinel `not_active`. -/
theorem protocol_feature_activation_rollback (pfs : D → Option (Option UInt32)) (size : Nat) :
    (∀ (S : List (D × UInt32)) (m : ProtocolFeatureManager D) (n : UInt32),
      (initial pfs size).activateAll S = .ok m → (∀ f ∈ S, f.2 ≠ notActive) →
      m.poppedBlocksTo n = (initial pfs size).activateAll (S.filter (·.2 ≤ n))) ∧
    (∀ reqs : List (FeatureRequest D),
      (∀ d b, FeatureRequest.activate_feature d b ∈ reqs → b ≠ notActive) →
      ∃ acts : List (Activation D),
        acts.map Activation.call = standingActivations (initial pfs size) reqs [] ∧
        (∀ a ∈ acts, pfs a.feature_digest = some (some a.codename)) ∧
        (Machine.run featureStep (initial pfs size) reqs).activated_protocol_features =
          acts.map Activation.entry ∧
        (Machine.run featureStep (initial pfs size) reqs).builtinActivationList =
          some (acts.map (·.codename.toUInt64)).reverse ∧
        (acts.map (·.codename)).Nodup ∧
        ∀ f c, c ≠ notActive →
          ((Machine.run featureStep (initial pfs size) reqs).isBuiltinActivated f c = true ↔
            ∃ a ∈ acts, a.codename = f ∧ a.block_num ≤ c)) := by
  have h0 := represents_initial pfs size
  constructor
  · intro S m n hS hb
    obtain ⟨acts, hm, hcalls, hset, hlen⟩ := h0.activateAll S hS hb
    rw [List.nil_append] at hm
    obtain ⟨hpop, hkept⟩ := hm.poppedBlocksTo n
    -- the kept activations are valid from the start, so their calls run again
    have hv : ValidActivations (initial pfs size).protocol_feature_set
        (initial pfs size).builtin_protocol_features.length
        ([] ++ acts.filter (·.block_num ≤ n)) := by
      rw [List.nil_append, ← hset, ← hlen]
      exact hm.valid.sublist List.filter_sublist
    obtain ⟨m₂, hrun, hm₂, hset₂, hlen₂⟩ := h0.activateAll_calls _ hv
    rw [List.nil_append] at hm₂
    have hfilter : S.filter (·.2 ≤ n) = (acts.filter (·.block_num ≤ n)).map Activation.call := by
      rw [← hcalls, List.filter_map]
      rfl
    rw [hpop, hfilter, hrun, hkept.unique hm₂ (by rw [hset₂, ← hset]; rfl)
      (by rw [hlen₂, ← hlen, keptTo, length_entries])]
  · intro reqs hreqs
    obtain ⟨acts, hm, hcalls, hset⟩ := h0.run_standing hreqs
    refine ⟨acts, hcalls, fun a ha => ?_, hm.activated, hm.builtinActivationList, hm.valid.nodup,
      fun f c hc => hm.isBuiltinActivated f c hc⟩
    have hrec := hm.valid.recognized a ha
    rwa [hset] at hrec

/-- A run of one activation at block 5, popped to block 3, is the run of no activation. -/
theorem protocol_feature_rollback_before_first_activation :
    ((initial (fun d : Nat => if d = 0 then some (some (0 : UInt32)) else none) 1).pushActivation
        0 0 5).poppedBlocksTo 3 =
      (initial (fun d : Nat => if d = 0 then some (some (0 : UInt32)) else none) 1).activateAll [] :=
  (protocol_feature_activation_rollback _ 1).1 [(0, 5)] _ 3 rfl (by decide)

/-- At the sentinel block: two activations of the same builtin both succeed and leave its entry
linked to itself, so the list of builtin activations never ends; and a builtin that was never
activated counts as activated at that block. -/
theorem builtin_activation_at_not_active :
    ((initial (fun d : Nat => if d = 0 then some (some (0 : UInt32)) else none) 1).activateAll
        [(0, notActive), (0, notActive)]).toOption.map builtinActivationList = some none ∧
    (initial (fun d : Nat => if d = 0 then some (some (0 : UInt32)) else none) 1).isBuiltinActivated
      0 notActive = true := by
  decide

end InfraBlockchain.Chain
