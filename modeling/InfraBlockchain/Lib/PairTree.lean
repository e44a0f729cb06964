import Mathlib.Data.List.Basic
import InfraBlockchain.Lib.Radix

/-!
# Trees built level by level from a list of leaves

A list of leaves is reduced to one root by combining adjacent pairs, level by level; a level of
odd length pairs its last element with a copy of itself (`pairUp`, `root`).

Appending a leaf changes only the last element of each level: the others are roots of complete
subtrees, which never change again. A builder that appends one leaf at a time keeps those it still
needs: `frontier l` lists them, one for each set bit of the number of leaves, from the lowest level
up; `kept l a` is what the builder keeps below the root once `a` is appended to `l`, where a tree
with a power of two of leaves is kept as its root alone; `nodes l` is what it holds after the
leaves `l`, the root last. Every `nodes l` starts with `frontier l` (`nodes_eq_frontier_append`),
so an append can read the complete subtrees it combines with from the front, and it holds at most
one node per level (`length_nodes_le`).
-/

namespace PairTree

variable {α : Type*} (f : α → α → α)

/-- One level up: adjacent pairs are combined, and a last element without a partner is combined
with a copy of itself. -/
def pairUp : List α → List α
  | a :: b :: l => f a b :: pairUp l
  | [a] => [f a a]
  | [] => []

@[simp] theorem pairUp_nil : pairUp f [] = [] := rfl

@[simp] theorem pairUp_singleton (a : α) : pairUp f [a] = [f a a] := rfl

@[simp] theorem pairUp_cons_cons (a b : α) (l : List α) :
    pairUp f (a :: b :: l) = f a b :: pairUp f l := rfl

@[simp] theorem length_pairUp : ∀ l : List α, (pairUp f l).length = (l.length + 1) / 2
  | [] => by simp
  | [_] => by simp
  | _ :: _ :: l => by
    simp only [pairUp_cons_cons, List.length_cons, length_pairUp l]
    omega

/-- A prefix of even length pairs up on its own. -/
theorem pairUp_append : ∀ {l₁ : List α}, l₁.length % 2 = 0 →
    ∀ l₂, pairUp f (l₁ ++ l₂) = pairUp f l₁ ++ pairUp f l₂
  | [], _, _ => rfl
  | [_], h, _ => by simp at h
  | a :: b :: l₁, h, l₂ => by
    have h' : l₁.length % 2 = 0 := by simp at h; omega
    simp only [List.cons_append, pairUp_cons_cons, pairUp_append h' l₂]

/-- Pairing up copies of one leaf gives copies of its node with itself. -/
theorem pairUp_replicate (a : α) : ∀ k, pairUp f (List.replicate (2 * k) a) = List.replicate k (f a a)
  | 0 => rfl
  | k + 1 => by
    rw [show 2 * (k + 1) = 2 * k + 1 + 1 by omega, List.replicate_succ, List.replicate_succ,
      pairUp_cons_cons, pairUp_replicate a k, List.replicate_succ]

/-! ## The frontier -/

/-- The roots of the complete subtrees of `l`, one for each set bit of its length, from the lowest
level up: the last leaf when the length is odd, then the frontier of the level above the others. -/
def frontier (l : List α) : List α :=
  if l.length % 2 = 1 then l.getLast?.toList ++ frontier (pairUp f l.dropLast)
  else if l.length = 0 then [] else frontier (pairUp f l)
termination_by l.length
decreasing_by all_goals (simp only [length_pairUp, List.length_dropLast]; omega)

@[simp] theorem frontier_nil : frontier f [] = [] := by
  rw [frontier]
  simp

/-- A leaf after an even number of leaves is a complete subtree of its own. -/
theorem frontier_concat {l : List α} (hl : l.length % 2 = 0) (a : α) :
    frontier f (l ++ [a]) = a :: frontier f (pairUp f l) := by
  rw [frontier, if_pos (by simp; omega)]
  simp

@[simp] theorem frontier_singleton (a : α) : frontier f [a] = [a] := by
  have hnil : ([] : List α).length % 2 = 0 := rfl
  simpa using frontier_concat f hnil a

/-- An even number of leaves has the frontier of the level above. -/
theorem frontier_of_even {l : List α} (hl : l.length % 2 = 0) (hne : l ≠ []) :
    frontier f l = frontier f (pairUp f l) := by
  rw [frontier, if_neg (by omega), if_neg (by simpa using hne)]

/-- What a builder keeps below the root after appending `a` to the leaves `l`: a last leaf of `l`
without a partner is combined with `a` and carried up; otherwise `a` is kept, then the frontier
of the level above `l`. -/
def kept (l : List α) (a : α) : List α :=
  if l.length % 2 = 1 then kept (pairUp f l.dropLast) (f (l.getLastD a) a)
  else if l.length = 0 then [] else a :: frontier f (pairUp f l)
termination_by l.length
decreasing_by simp only [length_pairUp, List.length_dropLast]; omega

@[simp] theorem kept_nil (a : α) : kept f [] a = [] := by
  rw [kept]
  simp

/-- On an even nonempty list, the nodes kept are the new leaf and the frontier of the level above.
-/
theorem kept_of_even {l : List α} (hl : l.length % 2 = 0) (hne : l ≠ []) (a : α) :
    kept f l a = a :: frontier f (pairUp f l) := by
  rw [kept, if_neg (by omega), if_neg (by simpa using hne)]

/-- Appending to an even list pairs the last two leaves into the level above. -/
theorem kept_concat {l : List α} (hl : l.length % 2 = 0) (b a : α) :
    kept f (l ++ [b]) a = kept f (pairUp f l) (f b a) := by
  rw [kept, if_pos (by simp; omega)]
  simp

/-- Each set bit of the length gives one entry of the frontier. -/
theorem length_frontier_le (l : List α) : (frontier f l).length ≤ Nat.size l.length := by
  induction h : l.length using Nat.strong_induction_on generalizing l with
  | _ n ih =>
    rcases List.eq_nil_or_concat' l with rfl | ⟨l', b, rfl⟩
    · simp
    have hn : 0 < n := by simp at h; omega
    have hsize : Nat.size n = Nat.size (n / 2) + 1 := Radix.size_eq_size_div_two_add_one (by omega)
    rcases Nat.mod_two_eq_zero_or_one l'.length with heven | hodd
    · -- an odd number of leaves: the last is an entry of its own
      have hup : (pairUp f l').length = n / 2 := by simp at h ⊢; omega
      rw [frontier_concat f heven, List.length_cons, hsize]
      have := ih (n / 2) (by omega) (pairUp f l') hup
      omega
    · -- an even number of leaves: the entries of the level above
      have hup : (pairUp f (l' ++ [b])).length = n / 2 := by simp at h ⊢; omega
      rw [frontier_of_even f (by simp; omega) (by simp), hsize]
      have := ih (n / 2) (by omega) _ hup
      omega

/-- What is kept below the root has at most one entry per level under the root. -/
theorem length_kept_le (l : List α) (a : α) : (kept f l a).length ≤ Nat.size l.length := by
  induction h : l.length using Nat.strong_induction_on generalizing l a with
  | _ n ih =>
    rcases List.eq_nil_or_concat' l with rfl | ⟨l', b, rfl⟩
    · simp
    have hn : 0 < n := by simp at h; omega
    have hsize : Nat.size n = Nat.size (n / 2) + 1 := Radix.size_eq_size_div_two_add_one (by omega)
    rcases Nat.mod_two_eq_zero_or_one l'.length with heven | hodd
    · -- the last leaf of `l` is carried up with `a`
      have hup : (pairUp f l').length = n / 2 := by simp at h ⊢; omega
      rw [kept_concat f heven]
      have := ih (n / 2) (by omega) (pairUp f l') (f b a) hup
      omega
    · -- `a` is kept, then the frontier of the level above
      have hup : (pairUp f (l' ++ [b])).length = n / 2 := by simp at h ⊢; omega
      rw [kept_of_even f (by simp; omega) (by simp), List.length_cons, hsize]
      have := length_frontier_le f (pairUp f (l' ++ [b]))
      rw [hup] at this
      omega

/-! ## The root -/

section Root

variable [Inhabited α]

/-- The loop of `root`: while more than one element is left, go one level up; `fuel` bounds the
number of levels. -/
def rootLoop : Nat → List α → α
  | 0, l => l.headD default
  | fuel + 1, l => if 1 < l.length then rootLoop fuel (pairUp f l) else l.headD default

/-- The root of a list of leaves, the one element left after pairing up level by level; as many
levels as leaves are enough. The root of no leaves is the default. -/
def root (l : List α) : α := rootLoop f l.length l

/-- Any fuel of at least one level less than the number of leaves gives the same root. -/
theorem rootLoop_fuel : ∀ {k k' : Nat} {l : List α}, l.length ≤ k + 1 → l.length ≤ k' + 1 →
    rootLoop f k l = rootLoop f k' l
  | 0, 0, _, _, _ => rfl
  | 0, _ + 1, l, h, _ => by rw [rootLoop, rootLoop, if_neg (by omega)]
  | _ + 1, 0, l, _, h => by rw [rootLoop, rootLoop, if_neg (by omega)]
  | k + 1, k' + 1, l, h, h' => by
    rw [rootLoop, rootLoop]
    split
    · exact rootLoop_fuel (by simp; omega) (by simp; omega)
    · rfl

@[simp] theorem root_nil : root f ([] : List α) = default := rfl

@[simp] theorem root_singleton (a : α) : root f [a] = a := rfl

/-- Two leaves or more have the root of the level above. -/
theorem root_pairUp {l : List α} (h : 1 < l.length) : root f (pairUp f l) = root f l := by
  obtain ⟨k, hk⟩ : ∃ k, l.length = k + 1 := ⟨l.length - 1, by omega⟩
  unfold root
  rw [hk, rootLoop, if_pos (by omega)]
  exact rootLoop_fuel f (Nat.le_succ _) (by simp only [length_pairUp]; omega)

/-- A last leaf after an even number of leaves is paired with a copy of itself. -/
theorem root_concat_of_even {l : List α} (hl : l.length % 2 = 0) (hne : l ≠ []) (a : α) :
    root f (l ++ [a]) = root f (pairUp f l ++ [f a a]) := by
  have hlen : 1 < (l ++ [a]).length := by
    have : l.length ≠ 0 := by simpa using hne
    simp; omega
  rw [← root_pairUp f hlen, pairUp_append f hl, pairUp_singleton]

/-- The last two leaves after an even number of leaves are paired. -/
theorem root_append_pair {l : List α} (hl : l.length % 2 = 0) (b a : α) :
    root f (l ++ [b, a]) = root f (pairUp f l ++ [f b a]) := by
  rw [← root_pairUp f (by simp), pairUp_append f hl, pairUp_cons_cons, pairUp_nil]

/-- The root of `2 ^ j` copies of one leaf is the leaf combined with itself `j` times over. -/
theorem root_replicate_two_pow (a : α) : ∀ j, root f (List.replicate (2 ^ j) a) = (fun x => f x x)^[j] a
  | 0 => rfl
  | j + 1 => by
    have hlen : 1 < (List.replicate (2 ^ (j + 1)) a).length := by
      rw [List.length_replicate, pow_succ]
      have : 1 ≤ 2 ^ j := Nat.one_le_two_pow
      omega
    rw [← root_pairUp f hlen, pow_succ, Nat.mul_comm, pairUp_replicate, root_replicate_two_pow (f a a) j,
      Function.iterate_succ_apply]

/-! ## What a builder holds -/

/-- What a builder holds after the leaves `l`: what it keeps below the root, then the root. -/
def nodes (l : List α) : List α :=
  match l.getLast? with
  | none => []
  | some a => kept f l.dropLast a ++ [root f l]

@[simp] theorem nodes_nil : nodes f ([] : List α) = [] := rfl

/-- The nodes of a list with a leaf appended: those kept, then the root. -/
theorem nodes_concat (l : List α) (a : α) :
    nodes f (l ++ [a]) = kept f l a ++ [root f (l ++ [a])] := by
  simp [nodes]

/-- What is kept and the root start with the frontier: the complete subtrees a next append combines
with come first, in the order it climbs. By induction on the number of leaves, as `kept` recurses. -/
theorem kept_append_root (l : List α) (a : α) :
    ∃ rest, kept f l a ++ [root f (l ++ [a])] = frontier f (l ++ [a]) ++ rest := by
  induction h : l.length using Nat.strong_induction_on generalizing l a with
  | _ n ih =>
    rcases List.eq_nil_or_concat' l with rfl | ⟨l', b, rfl⟩
    · -- one leaf: it is the root and the frontier
      exact ⟨[], by simp⟩
    rcases Nat.mod_two_eq_zero_or_one l'.length with heven | hodd
    · -- the last leaf of `l` is carried up with `a`: the level above has one leaf less
      have hup : (pairUp f l').length < n := by simp at h ⊢; omega
      obtain ⟨rest, hrest⟩ := ih _ hup (pairUp f l') (f b a) rfl
      refine ⟨rest, ?_⟩
      have hfront : frontier f (l' ++ [b, a]) = frontier f (pairUp f l' ++ [f b a]) := by
        rw [frontier_of_even f (by simp; omega) (by simp), pairUp_append f heven, pairUp_cons_cons,
          pairUp_nil]
      rw [kept_concat f heven, List.append_assoc, List.singleton_append, root_append_pair f heven,
        hrest, hfront]
    · -- `a` starts the frontier; the root is left over
      have hl : (l' ++ [b]).length % 2 = 0 := by simp; omega
      exact ⟨[root f (l' ++ [b] ++ [a])], by rw [kept_of_even f hl (by simp), frontier_concat f hl]⟩

/-- What a builder holds starts with the frontier. -/
theorem nodes_eq_frontier_append (l : List α) : ∃ rest, nodes f l = frontier f l ++ rest := by
  rcases List.eq_nil_or_concat' l with rfl | ⟨l', a, rfl⟩
  · exact ⟨[], by simp⟩
  · rw [nodes_concat]
    exact kept_append_root f l' a

/-- A builder holds at most one node per level of the tree. -/
theorem length_nodes_le (l : List α) : (nodes f l).length ≤ Nat.size (l.length - 1) + 1 := by
  rcases List.eq_nil_or_concat' l with rfl | ⟨l', a, rfl⟩
  · simp
  · rw [nodes_concat, List.length_append, List.length_singleton, List.length_append,
      List.length_singleton, Nat.add_sub_cancel]
    have := length_kept_le f l' a
    omega

end Root

end PairTree
