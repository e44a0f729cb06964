import Mathlib
import InfraBlockchain.Lib.Radix
import InfraBlockchain.Lib.PairTree

/-!
# The incremental merkle tree

`incremental_merkle` (`incremental_merkle.hpp`) appends the block ids of a chain one at a time and
keeps, in `_active_nodes`, only the complete subtrees a later append combines with, then the current
root. `merkle` (`merkle.cpp`) computes the root of a whole list at once, pairing each level up and an
odd last node with a copy of itself. Both are `PairTree`'s trees over the node hash
`DigestType::hash(make_canonical_pair(l, r))`, which is a parameter here: nothing below depends on
what it computes.

An append walks up as many levels as the old node count has bits (`calcluateMaxDepth_eq`),
reading one kept subtree for each set bit (`appendLoop_spec`). So after every list of fewer than
`2^64` digests the tree holds `PairTree.nodes` of them: its root is `merkle` of the list, no append
reads past the end of `_active_nodes`, and it holds at most `calcluate_max_depth` nodes
(`incremental_merkle_refines`). `_node_count` is a `uint64_t`: the append of the `2^64`-th digest
wraps it to zero (`incremental_merkle_count_wraps`).
-/

namespace InfraBlockchain.Chain

/-! ## The depth of a tree -/

/-- One line of `next_power_of_2`: `value |= value >> shift`. -/
def smearStep (value shift : UInt64) : UInt64 := value ||| value >>> shift

/-- `detail::next_power_of_2`: the bits below the highest set bit of `value - 1` are all set, and one
is added. -/
def nextPowerOf2 (value : UInt64) : UInt64 :=
  let value := value - 1
  let value := smearStep value 1
  let value := smearStep value 2
  let value := smearStep value 4
  let value := smearStep value 8
  let value := smearStep value 16
  let value := smearStep value 32
  value + 1

/-- `detail::clz_power_2`. The `int` counter only goes down by `1 + 32 + 16 + 8 + 4 + 2 + 1 = 64`
in all, so it never goes below zero. -/
def clzPower2 (value : UInt64) : Nat :=
  let lz := 64
  let lz := if value ≠ 0 then lz - 1 else lz
  let lz := if value &&& 0x00000000FFFFFFFF ≠ 0 then lz - 32 else lz
  let lz := if value &&& 0x0000FFFF0000FFFF ≠ 0 then lz - 16 else lz
  let lz := if value &&& 0x00FF00FF00FF00FF ≠ 0 then lz - 8 else lz
  let lz := if value &&& 0x0F0F0F0F0F0F0F0F ≠ 0 then lz - 4 else lz
  let lz := if value &&& 0x3333333333333333 ≠ 0 then lz - 2 else lz
  let lz := if value &&& 0x5555555555555555 ≠ 0 then lz - 1 else lz
  lz

/-- `detail::calcluate_max_depth`. -/
def calcluateMaxDepth (node_count : UInt64) : Nat :=
  if node_count = 0 then 0 else clzPower2 (nextPowerOf2 node_count) + 1

/-- Despite its name, `clz_power_2` gives the exponent of a power of two, and `64` for zero. -/
theorem clzPower2_two_pow : ∀ k < 64, clzPower2 (UInt64.ofNat (2 ^ k)) = k := by decide

/-- One step of the smear is an or with a shift. -/
theorem toNat_smearStep (x : UInt64) {shift : UInt64} (h : shift.toNat < 64) :
    (smearStep x shift).toNat = x.toNat ||| x.toNat >>> shift.toNat := by
  rw [smearStep, UInt64.toNat_or, UInt64.toNat_shiftRight, Nat.mod_eq_of_lt h]

/-- A step of the smearing doubles the run of set bits below the highest. -/
theorem TopBits.smearStep {s c : Nat} {x : UInt64} (h : Radix.TopBits s c x.toNat) (shift : UInt64)
    (hshift : shift.toNat = c) (hc : c < 64) : Radix.TopBits s (2 * c) (smearStep x shift).toNat := by
  rw [toNat_smearStep x (by omega), hshift]
  exact h.or_shiftRight

/-- `next_power_of_2` of a positive word is the power of two with as many zeros as `value - 1` has
digits, wrapped modulo `2^64`. -/
theorem toNat_nextPowerOf2 {v : UInt64} (hv : v ≠ 0) :
    (nextPowerOf2 v).toNat = 2 ^ Nat.size (v.toNat - 1) % 2 ^ 64 := by
  have hv' : 0 < v.toNat := by
    rcases Nat.eq_zero_or_pos v.toNat with h | h
    · exact absurd (UInt64.toNat_inj.1 (by rw [h]; rfl)) hv
    · exact h
  have hw : (v - 1).toNat = v.toNat - 1 := by
    rw [UInt64.toNat_sub_of_le _ _ (by
      rw [UInt64.le_iff_toNat_le]
      exact hv')]
    rfl
  -- the six steps double the run of set bits from one to sixty-four
  have h1 := Radix.TopBits.of_size (v - 1).toNat
  have h2 := TopBits.smearStep h1 1 rfl (by decide)
  have h4 := TopBits.smearStep h2 2 rfl (by decide)
  have h8 := TopBits.smearStep h4 4 rfl (by decide)
  have h16 := TopBits.smearStep h8 8 rfl (by decide)
  have h32 := TopBits.smearStep h16 16 rfl (by decide)
  have h64 := TopBits.smearStep h32 32 rfl (by decide)
  have hsize : Nat.size (v - 1).toNat ≤ 64 := Nat.size_le.2 (UInt64.toNat_lt _)
  have hones := h64.eq_two_pow_sub_one hsize
  have hpos : 0 < 2 ^ Nat.size (v - 1).toNat := Nat.two_pow_pos _
  unfold nextPowerOf2
  simp only []
  rw [UInt64.toNat_add, hones, ← hw]
  congr 1
  simp only [UInt64.toNat_one]
  omega

/-- The depth of a tree of `n` leaves: one level more than `n - 1` has binary digits. -/
theorem calcluateMaxDepth_eq {n : UInt64} (hn : n ≠ 0) :
    calcluateMaxDepth n = Nat.size (n.toNat - 1) + 1 := by
  unfold calcluateMaxDepth
  rw [if_neg hn]
  congr 1
  have hsize : Nat.size (n.toNat - 1) ≤ 64 := Nat.size_le.2 (by have := UInt64.toNat_lt n; omega)
  have hnext := toNat_nextPowerOf2 hn
  rcases Nat.lt_or_ge (Nat.size (n.toNat - 1)) 64 with hlt | hge
  · -- below `2^64` the power of two is not wrapped
    have hpow : nextPowerOf2 n = UInt64.ofNat (2 ^ Nat.size (n.toNat - 1)) := by
      apply UInt64.toNat_inj.1
      rw [hnext, UInt64.toNat_ofNat']
    rw [hpow, clzPower2_two_pow _ hlt]
  · -- `2^64` wraps to zero, whose count is `64`
    have hzero : nextPowerOf2 n = 0 := by
      apply UInt64.toNat_inj.1
      rw [hnext, show Nat.size (n.toNat - 1) = 64 by omega]
      rfl
    rw [hzero, show Nat.size (n.toNat - 1) = 64 by omega]
    rfl

/-! ## The incremental tree -/

/-- `incremental_merkle_impl`: the number of leaves appended and the nodes kept. -/
structure IncrementalMerkle (D : Type) where
  /-- The number of leaves appended. -/
  node_count : UInt64
  /-- The roots of the full subtrees kept for the next leaves, the root of the whole last. -/
  active_nodes : List D

section Tree

variable {D : Type} (hash : D → D → D)

/-- The default constructor: no leaves. -/
def IncrementalMerkle.empty : IncrementalMerkle D := ⟨0, []⟩

/-- The loop of `append`, from `current_depth` levels up: `index` is the position of the node
`top` in its level; `implied` (`partial` in the source) says whether a node below it had an implied
right partner; `active` is what `active_iter` has not yet read, and `updated` the new active nodes.
A left node has an implied right partner, a copy of itself; a right node reads its left partner from
`active`. `none` is a read past the end of `_active_nodes`. -/
def appendLoop : Nat → UInt64 → Bool → D → List D → List D → Option (D × List D)
  | 0, _, _, top, _, updated => some (top, updated)
  | current_depth + 1, index, implied, top, active, updated =>
    if index &&& 1 = 0 then
      -- a complete left node is kept for the next append
      appendLoop current_depth (index >>> 1) true (hash top top) active
        (if !implied then updated ++ [top] else updated)
    else
      match active with
      | [] => none
      | left_value :: active =>
        -- a left node that an incomplete right one is combined with is still needed
        appendLoop current_depth (index >>> 1) implied (hash left_value top) active
          (if implied then updated ++ [left_value] else updated)

/-- A left node, whatever is left to read. -/
theorem appendLoop_left {k : Nat} {index : UInt64} (h : index &&& 1 = 0) (implied : Bool) (top : D)
    (active updated : List D) :
    appendLoop hash (k + 1) index implied top active updated =
      appendLoop hash k (index >>> 1) true (hash top top) active
        (if !implied then updated ++ [top] else updated) := by
  cases active <;> rw [appendLoop, if_pos h]

/-- A right node reads its left partner. -/
theorem appendLoop_right {k : Nat} {index : UInt64} (h : index &&& 1 ≠ 0) (implied : Bool)
    (top left_value : D) (active updated : List D) :
    appendLoop hash (k + 1) index implied top (left_value :: active) updated =
      appendLoop hash k (index >>> 1) implied (hash left_value top) active
        (if implied then updated ++ [left_value] else updated) := by
  rw [appendLoop, if_neg h]

/-- `append`. `current_depth` is an `int`: at `max_depth = 0` it is `-1` and the loop does not
run, as with the natural `0 - 1 = 0` here. -/
def IncrementalMerkle.append (m : IncrementalMerkle D) (digest : D) :
    Option (IncrementalMerkle D) := do
  let max_depth := calcluateMaxDepth (m.node_count + 1)
  let (top, updated_active_nodes) ←
    appendLoop hash (max_depth - 1) m.node_count false digest m.active_nodes []
  pure ⟨m.node_count + 1, updated_active_nodes ++ [top]⟩

/-- An append at the largest count wraps it to zero: the loop does not run, and the new digest is
kept alone. -/
theorem IncrementalMerkle.append_of_wrap {m : IncrementalMerkle D} (h : m.node_count + 1 = 0)
    (d : D) : m.append hash d = some ⟨0, [d]⟩ := by
  unfold IncrementalMerkle.append
  dsimp only
  rw [h, show calcluateMaxDepth 0 = 0 from rfl]
  rfl

/-- Appending digests one after another. -/
def appendAll (m : IncrementalMerkle D) (ds : List D) : Option (IncrementalMerkle D) :=
  ds.foldlM (fun m d => m.append hash d) m

variable [Inhabited D]

/-- `get_root`: the last active node, or the empty digest for no leaves. -/
def IncrementalMerkle.getRoot (m : IncrementalMerkle D) : D :=
  if m.node_count > 0 then m.active_nodes.getLastD default else default

/-- `merkle`: the empty digest for no ids; otherwise each level is paired up, an odd last id with a
copy of itself, while more than one id is left. The source pairs a level up in place: `ids[i]` is
written after `ids[2 * i]` and `ids[2 * i + 1]` are read, so no id is overwritten before it is read. -/
def merkle (ids : List D) : D :=
  if ids.length = 0 then default else PairTree.root hash ids

/-! ## An append -/

/-- The low bit is clear exactly on even numbers. -/
theorem and_one_eq_zero_iff (i : UInt64) : i &&& 1 = 0 ↔ i.toNat % 2 = 0 := by
  rw [← UInt64.toNat_inj, UInt64.toNat_and, show (1 : UInt64).toNat = 2 ^ 1 - 1 from rfl,
    Nat.and_two_pow_sub_one_eq_mod]
  simp

/-- A shift right by one halves. -/
theorem toNat_shiftRight_one (i : UInt64) : (i >>> 1).toNat = i.toNat / 2 := by
  rw [UInt64.toNat_shiftRight, show (1 : UInt64).toNat % 64 = 1 from rfl, Nat.shiftRight_one]

/-- The loop of an append to the leaves `Q`, with the new leaf `top`, reads the frontier of `Q`
and gives the root of the new leaves; it keeps the frontier again once a node had an implied partner,
and `PairTree.kept` from the start. By induction on the levels: a level of `Q` of even length leaves
`top` without a partner, one of odd length pairs it with its last node. -/
theorem appendLoop_spec : ∀ (k : Nat) (Q : List D) (index : UInt64), index.toNat = Q.length →
    Nat.size Q.length = k → ∀ (implied : Bool) (top : D) (rest updated : List D),
      appendLoop hash k index implied top (PairTree.frontier hash Q ++ rest) updated =
        some (PairTree.root hash (Q ++ [top]),
          updated ++ if implied then PairTree.frontier hash Q else PairTree.kept hash Q top)
  | 0, Q, _, _, hsize, implied, top, rest, updated => by
    have hQ : Q = [] := List.length_eq_zero_iff.1 (Nat.size_eq_zero.1 hsize)
    subst hQ
    cases implied <;> simp [appendLoop]
  | k + 1, Q, index, hindex, hsize, implied, top, rest, updated => by
    have hne : Q ≠ [] := by
      rintro rfl
      simp at hsize
    have hsize' : Nat.size (Q.length / 2) = k := by
      rw [Radix.size_eq_size_div_two_add_one (by simpa using hne)] at hsize
      omega
    have hhalf : (index >>> 1).toNat = Q.length / 2 := by rw [toNat_shiftRight_one, hindex]
    rcases Nat.mod_two_eq_zero_or_one Q.length with heven | hodd
    · -- a left node: `top` is paired with a copy of itself
      have hbit : index &&& 1 = 0 := (and_one_eq_zero_iff index).2 (by omega)
      have hup : (index >>> 1).toNat = (PairTree.pairUp hash Q).length := by
        rw [hhalf, PairTree.length_pairUp]
        omega
      rw [PairTree.frontier_of_even hash heven hne, appendLoop_left hash hbit,
        appendLoop_spec k _ _ hup (by rw [← hup, hhalf, hsize']),
        ← PairTree.root_concat_of_even hash heven hne]
      cases implied
      · simp [PairTree.kept_of_even hash heven hne]
      · simp
    · -- a right node: `top` is paired with the last node of `Q`, the first of its frontier
      obtain ⟨Q', b, rfl⟩ := (List.eq_nil_or_concat' Q).resolve_left hne
      have heven' : Q'.length % 2 = 0 := by simp at hodd; omega
      have hbit : index &&& 1 ≠ 0 := fun h => by
        have := (and_one_eq_zero_iff index).1 h
        omega
      have hup : (index >>> 1).toNat = (PairTree.pairUp hash Q').length := by
        rw [hhalf, PairTree.length_pairUp, List.length_append, List.length_singleton]
      rw [PairTree.frontier_concat hash heven', List.cons_append, appendLoop_right hash hbit,
        appendLoop_spec k _ _ hup (by rw [← hup, hhalf, hsize']), List.append_assoc,
        List.singleton_append, PairTree.root_append_pair hash heven']
      cases implied
      · simp [PairTree.kept_concat hash heven']
      · simp

/-- The tree holds the nodes of the leaves `ls`. -/
structure IncrementalMerkle.Holds (m : IncrementalMerkle D) (ls : List D) : Prop where
  /-- The count is the number of leaves. -/
  count : m.node_count.toNat = ls.length
  /-- The active nodes are those of the leaves. -/
  nodes : m.active_nodes = PairTree.nodes hash ls

/-- The empty tree holds no leaves. -/
theorem IncrementalMerkle.holds_empty : (IncrementalMerkle.empty : IncrementalMerkle D).Holds hash [] :=
  ⟨rfl, rfl⟩

/-- An append below `2^64` leaves keeps the nodes of the leaves with the new digest. -/
theorem IncrementalMerkle.append_holds {m : IncrementalMerkle D} {ls : List D} (h : m.Holds hash ls)
    (hlen : ls.length + 1 < 2 ^ 64) (d : D) :
    m.append hash d = some ⟨m.node_count + 1, PairTree.nodes hash (ls ++ [d])⟩ := by
  have hcount : (m.node_count + 1).toNat = ls.length + 1 := by
    rw [UInt64.toNat_add, h.count, UInt64.toNat_one, Nat.mod_eq_of_lt hlen]
  have hne : m.node_count + 1 ≠ 0 := fun h0 => by
    rw [h0] at hcount
    simp at hcount
  have hdepth : calcluateMaxDepth (m.node_count + 1) - 1 = Nat.size ls.length := by
    rw [calcluateMaxDepth_eq hne, hcount]
    simp
  obtain ⟨rest, hrest⟩ := PairTree.nodes_eq_frontier_append hash ls
  unfold IncrementalMerkle.append
  dsimp only
  rw [hdepth, h.nodes, hrest, appendLoop_spec hash _ ls m.node_count h.count rfl]
  simp [PairTree.nodes_concat]

/-- A run of appends below `2^64` leaves holds the nodes of all the leaves. -/
theorem appendAll_holds : ∀ (ds : List D) {m : IncrementalMerkle D} {ls : List D}, m.Holds hash ls →
    ls.length + ds.length < 2 ^ 64 → ∃ m', appendAll hash m ds = some m' ∧ m'.Holds hash (ls ++ ds)
  | [], m, ls, h, _ => ⟨m, rfl, by simpa using h⟩
  | d :: ds, m, ls, h, hlen => by
    have happend := IncrementalMerkle.append_holds hash h (by simp at hlen; omega) d
    have hnext : IncrementalMerkle.Holds hash ⟨m.node_count + 1, PairTree.nodes hash (ls ++ [d])⟩
        (ls ++ [d]) := by
      refine ⟨?_, rfl⟩
      rw [UInt64.toNat_add, h.count, UInt64.toNat_one, Nat.mod_eq_of_lt (by simp at hlen; omega)]
      simp
    obtain ⟨m', hrun, hm'⟩ := appendAll_holds ds hnext (by simp at hlen ⊢; omega)
    refine ⟨m', ?_, by simpa using hm'⟩
    simp only [appendAll, List.foldlM_cons] at hrun ⊢
    rw [happend]
    exact hrun

/-- The root of the nodes of a list of leaves is its `merkle`. -/
theorem IncrementalMerkle.Holds.getRoot {m : IncrementalMerkle D} {ls : List D} (h : m.Holds hash ls) :
    m.getRoot = merkle hash ls := by
  rcases List.eq_nil_or_concat' ls with rfl | ⟨l', a, rfl⟩
  · have hzero : m.node_count = 0 := UInt64.toNat_inj.1 (by rw [h.count]; rfl)
    simp [IncrementalMerkle.getRoot, merkle, hzero]
  · have hpos : 0 < m.node_count := by
      rw [UInt64.lt_iff_toNat_lt, h.count]
      simp
    simp [IncrementalMerkle.getRoot, merkle, hpos, h.nodes, PairTree.nodes_concat]

/-- The nodes of a list of leaves are no more than `calcluate_max_depth` of their number. -/
theorem IncrementalMerkle.Holds.length_le {m : IncrementalMerkle D} {ls : List D} (h : m.Holds hash ls) :
    m.active_nodes.length ≤ calcluateMaxDepth m.node_count := by
  rcases List.eq_nil_or_concat' ls with rfl | ⟨l', a, rfl⟩
  · simp [h.nodes]
  · have hne : m.node_count ≠ 0 := fun h0 => by
      have := h.count
      rw [h0] at this
      simp at this
    rw [calcluateMaxDepth_eq hne, h.count, h.nodes]
    exact PairTree.length_nodes_le hash _

/-- Appending fewer than `2^64` digests to an empty tree, one at a time, never reads past the end
of `_active_nodes`, counts them, gives the root `merkle` computes from all of them, and keeps at most
`calcluate_max_depth` of their number of nodes. -/
theorem incremental_merkle_refines (ds : List D) (hlen : ds.length < 2 ^ 64) :
    ∃ m, appendAll hash IncrementalMerkle.empty ds = some m ∧ m.node_count.toNat = ds.length ∧
      m.getRoot = merkle hash ds ∧ m.active_nodes.length ≤ calcluateMaxDepth m.node_count := by
  obtain ⟨m, hrun, hm⟩ := appendAll_holds hash ds (IncrementalMerkle.holds_empty hash) (by simpa using hlen)
  rw [List.nil_append] at hm
  exact ⟨m, hrun, hm.count, hm.getRoot, hm.length_le⟩

/-- Three leaves appended one at a time give the root of the whole tree, with no more active nodes
than the depth bound. -/
theorem incremental_merkle_refines_three :
    [1, 2, 3].length < 2 ^ 64 ∧
      ∃ m, appendAll (fun a b => a + 2 * b) IncrementalMerkle.empty [1, 2, 3] = some m ∧
        m.node_count.toNat = [1, 2, 3].length ∧
        m.getRoot = merkle (fun a b => a + 2 * b) [1, 2, 3] ∧
        m.active_nodes.length ≤ calcluateMaxDepth m.node_count :=
  ⟨by decide, incremental_merkle_refines (fun a b : Nat => a + 2 * b) [1, 2, 3] (by decide)⟩

example : (appendAll (fun a b => a + 2 * b) IncrementalMerkle.empty [1, 2, 3, 4, 5]).map
    IncrementalMerkle.getRoot = some (merkle (fun a b : Nat => a + 2 * b) [1, 2, 3, 4, 5]) := by
  decide

/-- Appending `2^64` copies of a digest wraps `_node_count` to zero: `get_root` gives the empty
digest, and the tree keeps one node where `calcluate_max_depth` of the count is zero. -/
theorem appendAll_replicate_wrap (d : D) :
    ∃ m, appendAll hash IncrementalMerkle.empty (List.replicate (2 ^ 64) d) = some m ∧
      m.node_count = 0 ∧ m.active_nodes = [d] ∧ m.getRoot = default ∧
      calcluateMaxDepth m.node_count < m.active_nodes.length := by
  obtain ⟨m, hrun, hm⟩ := appendAll_holds hash (List.replicate (2 ^ 64 - 1) d)
    (IncrementalMerkle.holds_empty hash) (by rw [List.length_nil, List.length_replicate]; decide)
  have hwrap : m.node_count + 1 = 0 := by
    apply UInt64.toNat_inj.1
    rw [UInt64.toNat_add, hm.count, List.nil_append, List.length_replicate]
    rfl
  have hsplit : List.replicate (2 ^ 64) d = List.replicate (2 ^ 64 - 1) d ++ [d] :=
    List.replicate_succ'
  have hroot : (⟨0, [d]⟩ : IncrementalMerkle D).getRoot = default := by
    simp [IncrementalMerkle.getRoot]
  have hdepth : calcluateMaxDepth 0 < [d].length := by
    rw [show calcluateMaxDepth 0 = 0 from rfl]
    simp
  refine ⟨⟨0, [d]⟩, ?_, rfl, rfl, hroot, hdepth⟩
  unfold appendAll at hrun ⊢
  rw [hsplit, List.foldlM_append, hrun]
  simp [IncrementalMerkle.append_of_wrap hash hwrap d]

/-- With the node hash `a + 2 * b` and the digest `1`, after `2^64` appends `get_root` is `0` while
`merkle` of the digests is `3^64`, and one node is kept where `calcluate_max_depth` allows none. -/
theorem incremental_merkle_count_wraps :
    ∃ m, appendAll (fun a b : Nat => a + 2 * b) IncrementalMerkle.empty (List.replicate (2 ^ 64) 1) =
        some m ∧ m.node_count = 0 ∧ m.getRoot = 0 ∧
      merkle (fun a b : Nat => a + 2 * b) (List.replicate (2 ^ 64) 1) = 3 ^ 64 ∧
      calcluateMaxDepth m.node_count < m.active_nodes.length := by
  obtain ⟨m, hrun, hcount, -, hroot, hdepth⟩ := appendAll_replicate_wrap (fun a b : Nat => a + 2 * b) 1
  -- each level of copies of `x` is copies of `x + 2 * x`
  have htriple : ∀ n, (fun x : Nat => x + 2 * x)^[n] 1 = 3 ^ n := by
    intro n
    induction n with
    | zero => rfl
    | succ n ih =>
      rw [Function.iterate_succ_apply', ih, pow_succ]
      ring
  have hmerkle : merkle (fun a b : Nat => a + 2 * b) (List.replicate (2 ^ 64) 1) = 3 ^ 64 := by
    unfold merkle
    rw [if_neg (by rw [List.length_replicate]; decide), PairTree.root_replicate_two_pow]
    exact htriple 64
  exact ⟨m, hrun, hcount, hroot, hmerkle, hdepth⟩

end Tree

end InfraBlockchain.Chain
