import Mathlib.Data.List.Sort

/-!
# An ordered unique index

An ordered unique index keeps its rows sorted by a key, no two rows with the same key; its
iterators step to the next or the previous row in that order, and `lower_bound` and `upper_bound`
find the first row at or after a key. Here the index is the rows of a container sorted by a
natural-number key (`sorted`), and the lookups search that list: `lowerBound`, `upperBound`, and
`lastBelow`, the row before the position of a key.

Sorted, the rows with a key in a range `[lo, hi)` are one stretch of the index. Stepping forward
from the lower bound of `lo` while the key is below `hi` visits exactly them, in ascending order
(`walkUp_lowerBound`), and stepping backward from the last row below `hi` while the key is at least
`lo` visits them in descending order (`walkDown_lastBelow`). Each step raises or lowers the bound to
the key of the row it visits (`filter_lowerBound`, `filter_lastBelow`), which takes that row off
the stretch (`filter_le_key`, `filter_key_le`).
-/

namespace SortedIndex

variable {α : Type} (key : α → Nat)

/-- The rows in the order of the index. -/
def sorted (rows : List α) : List α := rows.mergeSort fun a b => key a ≤ key b

/-- `lower_bound`: the first row whose key is at least `k`. -/
def lowerBound (rows : List α) (k : Nat) : Option α := (sorted key rows).find? fun r => k ≤ key r

/-- `upper_bound`: the first row whose key is above `k`. -/
def upperBound (rows : List α) (k : Nat) : Option α := (sorted key rows).find? fun r => k < key r

/-- The row before the position of `k` in the index: the last row whose key is below `k`. -/
def lastBelow (rows : List α) (k : Nat) : Option α :=
  (sorted key rows).reverse.find? fun r => key r < k

/-- The rows that stepping forward visits from a row while the key is below `hi`, in at most
`fuel` steps. -/
def walkUp (rows : List α) (hi : Nat) : Nat → Option α → List α
  | 0, _ => []
  | _ + 1, none => []
  | fuel + 1, some x =>
    if key x < hi then x :: walkUp rows hi fuel (upperBound key rows (key x)) else []

/-- The rows that stepping backward visits from a row while the key is at least `lo`, in at most
`fuel` steps. -/
def walkDown (rows : List α) (lo : Nat) : Nat → Option α → List α
  | 0, _ => []
  | _ + 1, none => []
  | fuel + 1, some x =>
    if lo ≤ key x then x :: walkDown rows lo fuel (lastBelow key rows (key x)) else []

variable {key} {rows : List α}

/-- The index holds the rows. -/
theorem mem_sorted {x : α} : x ∈ sorted key rows ↔ x ∈ rows := List.mem_mergeSort

/-- The index is increasing. -/
theorem sorted_le : (sorted key rows).Pairwise fun a b => key a ≤ key b := by
  have h : (rows.mergeSort fun a b => decide (key a ≤ key b)).Pairwise
      fun a b => decide (key a ≤ key b) = true :=
    List.pairwise_mergeSort (fun a b c hab hbc => by simp only [decide_eq_true_eq] at *; omega)
      (fun a b => by simp only [Bool.or_eq_true, decide_eq_true_eq]; omega) rows
  simpa [sorted] using h

/-- With distinct keys the index is strictly increasing. -/
theorem sorted_lt (hkeys : rows.Pairwise fun a b => key a ≠ key b) :
    (sorted key rows).Pairwise fun a b => key a < key b := by
  have hne : (sorted key rows).Pairwise fun a b => key a ≠ key b :=
    (List.mergeSort_perm rows _).symm.pairwise hkeys fun h => Ne.symm h
  exact (sorted_le.and hne).imp fun h => Nat.lt_of_le_of_ne h.1 h.2

/-- `upper_bound` of a key is `lower_bound` of the next one. -/
theorem upperBound_eq (k : Nat) : upperBound key rows k = lowerBound key rows (k + 1) := rfl

@[simp] theorem walkUp_none (hi fuel : Nat) : walkUp key rows hi fuel none = [] := by
  cases fuel <;> rfl

/-- Stepping forward stops at a row at or past `hi`. -/
theorem walkUp_of_le {hi : Nat} {x : α} (h : hi ≤ key x) (fuel : Nat) :
    walkUp key rows hi fuel (some x) = [] := by
  cases fuel with
  | zero => rfl
  | succ fuel => simp [walkUp, Nat.not_lt.2 h]

/-- Stepping forward visits a row below `hi`, then steps to the first row after it. -/
theorem walkUp_of_lt {hi : Nat} {x : α} (h : key x < hi) (fuel : Nat) :
    walkUp key rows hi (fuel + 1) (some x) =
      x :: walkUp key rows hi fuel (upperBound key rows (key x)) := by
  simp [walkUp, h]

@[simp] theorem walkDown_none (lo fuel : Nat) : walkDown key rows lo fuel none = [] := by
  cases fuel <;> rfl

/-- Stepping backward stops at a row below `lo`. -/
theorem walkDown_of_lt {lo : Nat} {x : α} (h : key x < lo) (fuel : Nat) :
    walkDown key rows lo fuel (some x) = [] := by
  cases fuel with
  | zero => rfl
  | succ fuel => simp [walkDown, Nat.not_le.2 h]

/-- Stepping backward visits a row at or past `lo`, then steps to the last row before it. -/
theorem walkDown_of_le {lo : Nat} {x : α} (h : lo ≤ key x) (fuel : Nat) :
    walkDown key rows lo (fuel + 1) (some x) =
      x :: walkDown key rows lo fuel (lastBelow key rows (key x)) := by
  simp [walkDown, h]

/-! ## The bounds -/

/-- The lower bound of `k` is the row with the least key at or after `k`. -/
theorem lowerBound_spec {k : Nat} {x : α} (h : lowerBound key rows k = some x) :
    x ∈ rows ∧ k ≤ key x ∧ ∀ y ∈ rows, k ≤ key y → key x ≤ key y := by
  obtain ⟨hx, as, bs, hsplit, has⟩ := List.find?_eq_some_iff_append.1 h
  have hmem : x ∈ rows := mem_sorted.1 (hsplit ▸ List.mem_append_right _ List.mem_cons_self)
  refine ⟨hmem, by simpa using hx, fun y hy hky => ?_⟩
  have hle : (sorted key rows).Pairwise fun a b => key a ≤ key b := sorted_le
  have hsorted := hsplit ▸ hle
  rw [List.pairwise_append, List.pairwise_cons] at hsorted
  -- `y` cannot come before `x`, where every key is below `k`
  rcases List.mem_append.1 (hsplit ▸ mem_sorted.2 hy) with hyas | hybs
  · have := has y hyas
    simp only [Bool.not_eq_eq_eq_not, Bool.not_true, decide_eq_false_iff_not] at this
    omega
  · rcases List.mem_cons.1 hybs with rfl | hybs
    · exact Nat.le_refl _
    · exact hsorted.2.1.1 y hybs

/-- The upper bound of `k` is the row with the least key after `k`. -/
theorem upperBound_spec {k : Nat} {x : α} (h : upperBound key rows k = some x) :
    x ∈ rows ∧ k < key x ∧ ∀ y ∈ rows, k < key y → key x ≤ key y :=
  lowerBound_spec (upperBound_eq k ▸ h)

/-- There is no lower bound of `k` when every key is below `k`. -/
theorem lowerBound_eq_none {k : Nat} (h : lowerBound key rows k = none) :
    ∀ y ∈ rows, key y < k := fun y hy => by
  have := List.find?_eq_none.1 h y (mem_sorted.2 hy)
  simpa using this

/-- The last row below `k` is the row with the greatest key below `k`. -/
theorem lastBelow_spec {k : Nat} {x : α} (h : lastBelow key rows k = some x) :
    x ∈ rows ∧ key x < k ∧ ∀ y ∈ rows, key y < k → key y ≤ key x := by
  obtain ⟨hx, as, bs, hsplit, has⟩ := List.find?_eq_some_iff_append.1 h
  have hmem : x ∈ rows :=
    mem_sorted.1 (List.mem_reverse.1 (hsplit ▸ List.mem_append_right _ List.mem_cons_self))
  refine ⟨hmem, by simpa using hx, fun y hy hky => ?_⟩
  have hle : (sorted key rows).Pairwise fun a b => key a ≤ key b := sorted_le
  have hsorted := hsplit ▸ List.pairwise_reverse.2 hle
  rw [List.pairwise_append, List.pairwise_cons] at hsorted
  -- `y` cannot come before `x` in the reversed index, where every key is at least `k`
  rcases List.mem_append.1 (hsplit ▸ List.mem_reverse.2 (mem_sorted.2 hy)) with hyas | hybs
  · have := has y hyas
    simp only [Bool.not_eq_eq_eq_not, Bool.not_true, decide_eq_false_iff_not] at this
    omega
  · rcases List.mem_cons.1 hybs with rfl | hybs
    · exact Nat.le_refl _
    · exact hsorted.2.1.1 y hybs

/-- There is no last row below `k` when every key is at least `k`. -/
theorem lastBelow_eq_none {k : Nat} (h : lastBelow key rows k = none) :
    ∀ y ∈ rows, k ≤ key y := fun y hy => by
  have := List.find?_eq_none.1 h y (List.mem_reverse.2 (mem_sorted.2 hy))
  simpa using this

/-! ## Stretches of the index -/

/-- In a strictly increasing list the rows from the key of one of its rows on are that row and the
rows after it. -/
theorem filter_le_key {S : List α} (hS : S.Pairwise fun a b => key a < key b) {x : α}
    (hx : x ∈ S) (q : α → Bool) :
    S.filter (fun r => decide (key x ≤ key r) && q r) =
      if q x then x :: S.filter (fun r => decide (key x < key r) && q r)
      else S.filter (fun r => decide (key x < key r) && q r) := by
  induction S with
  | nil => cases hx
  | cons y S ih =>
    rw [List.pairwise_cons] at hS
    rcases List.mem_cons.1 hx with rfl | hx
    · -- the row itself heads the list: every later row is after it
      have hafter : S.filter (fun r => decide (key x ≤ key r) && q r) =
          S.filter (fun r => decide (key x < key r) && q r) :=
        List.filter_congr fun r hr => by
          have := hS.1 r hr
          simp only [decide_eq_true (Nat.le_of_lt this), decide_eq_true this]
      cases hq : q x <;> simp [hq, hafter]
    · -- a row before it is in neither stretch
      have hlt := hS.1 x hx
      rw [List.filter_cons_of_neg (by simp; omega), List.filter_cons_of_neg (by simp; omega)]
      exact ih hS.2 hx

/-- In a strictly increasing list the rows up to the key of one of its rows are the rows before it
and that row. -/
theorem filter_key_le {S : List α} (hS : S.Pairwise fun a b => key a < key b) {x : α}
    (hx : x ∈ S) (q : α → Bool) :
    S.filter (fun r => q r && decide (key r ≤ key x)) =
      S.filter (fun r => q r && decide (key r < key x)) ++ if q x then [x] else [] := by
  induction S with
  | nil => cases hx
  | cons y S ih =>
    rw [List.pairwise_cons] at hS
    rcases List.mem_cons.1 hx with rfl | hx
    · -- the row itself heads the list: no later row is up to it
      have hnone : ∀ p : Nat → Nat → Prop, (∀ a b, p a b → a ≤ b) → [DecidableRel p] →
          S.filter (fun r => q r && decide (p (key r) (key x))) = [] := fun p hp _ =>
        List.filter_eq_nil_iff.2 fun r hr h => by
          have := hS.1 r hr
          simp only [Bool.and_eq_true, decide_eq_true_eq] at h
          have := hp _ _ h.2
          omega
      rw [List.filter_cons, List.filter_cons, hnone (· ≤ ·) fun _ _ h => h,
        hnone (· < ·) fun _ _ h => Nat.le_of_lt h]
      cases q x <;> simp
    · -- a row before it is in both stretches or in neither, as `q` says
      have hlt := hS.1 x hx
      cases hq : q y
      · rw [List.filter_cons_of_neg (by simp [hq]), List.filter_cons_of_neg (by simp [hq])]
        exact ih hS.2 hx
      · rw [List.filter_cons_of_pos (by simp [hq]; omega),
          List.filter_cons_of_pos (by simp [hq]; omega), List.cons_append, ih hS.2 hx]

section Walks

variable (hkeys : rows.Pairwise fun a b => key a ≠ key b)
include hkeys

/-- From its lower bound on, the rows at or after `lo` are the rows from the bound's key on. -/
theorem filter_lowerBound {lo : Nat} {x : α} (h : lowerBound key rows lo = some x)
    (q : α → Bool) :
    (sorted key rows).filter (fun r => decide (lo ≤ key r) && q r) =
      if q x then x :: (sorted key rows).filter (fun r => decide (key x < key r) && q r)
      else (sorted key rows).filter (fun r => decide (key x < key r) && q r) := by
  obtain ⟨hx, hlo, hleast⟩ := lowerBound_spec h
  rw [← filter_le_key (sorted_lt hkeys) (mem_sorted.2 hx) q]
  -- no row lies between `lo` and the bound
  refine List.filter_congr fun r hr => ?_
  have hiff : lo ≤ key r ↔ key x ≤ key r :=
    ⟨hleast r (mem_sorted.1 hr), fun hxr => Nat.le_trans hlo hxr⟩
  simp only [hiff]

/-- Below the last row below `hi`, the rows below `hi` are the rows up to that row's key. -/
theorem filter_lastBelow {hi : Nat} {x : α} (h : lastBelow key rows hi = some x)
    (q : α → Bool) :
    (sorted key rows).filter (fun r => q r && decide (key r < hi)) =
      (sorted key rows).filter (fun r => q r && decide (key r < key x)) ++
        if q x then [x] else [] := by
  obtain ⟨hx, hhi, hgreatest⟩ := lastBelow_spec h
  rw [← filter_key_le (sorted_lt hkeys) (mem_sorted.2 hx) q]
  -- no row lies between the last row and `hi`
  refine List.filter_congr fun r hr => ?_
  have hiff : key r < hi ↔ key r ≤ key x :=
    ⟨hgreatest r (mem_sorted.1 hr), fun hrx => Nat.lt_of_le_of_lt hrx hhi⟩
  simp only [hiff]

/-- Stepping forward from the lower bound of `lo` while the key is below `hi` visits the rows with
a key in `[lo, hi)` in the order of the index, when there are no more rows at or after `lo` than
steps. -/
theorem walkUp_lowerBound (hi : Nat) :
    ∀ (fuel lo : Nat), ((sorted key rows).filter fun r => lo ≤ key r).length ≤ fuel →
      walkUp key rows hi fuel (lowerBound key rows lo) =
        (sorted key rows).filter fun r => lo ≤ key r ∧ key r < hi := by
  intro fuel
  induction fuel with
  | zero =>
    intro lo hlen
    -- no row at or after `lo`, so none in `[lo, hi)`
    have hnil := List.eq_nil_of_length_eq_zero (Nat.le_zero.1 hlen)
    rw [List.filter_eq_nil_iff] at hnil
    simp only [walkUp]
    exact (List.filter_eq_nil_iff.2 fun r hr h => hnil r hr (by simp at h ⊢; omega)).symm
  | succ fuel ih =>
    intro lo hlen
    cases h : lowerBound key rows lo with
    | none =>
      have hbelow := lowerBound_eq_none h
      exact (List.filter_eq_nil_iff.2 fun r hr h' => by
        have := hbelow r (mem_sorted.1 hr)
        simp at h'
        omega).symm
    | some x =>
      -- the bound heads the stretch; the next step starts past its key
      have hrange := filter_lowerBound hkeys h fun r => decide (key r < hi)
      have hcount := filter_lowerBound hkeys h fun _ => true
      simp only [Bool.and_true, ite_true] at hcount
      simp only [Bool.decide_and]
      rw [hrange]
      simp only [walkUp, upperBound_eq]
      split
      · rename_i hx
        rw [if_pos (decide_eq_true hx), ih (key x + 1) (by
          rw [hcount, List.length_cons] at hlen
          simp only [Nat.add_one_le_iff]
          omega)]
        simp only [Nat.add_one_le_iff, Bool.decide_and]
      · rename_i hx
        rw [if_neg (by simpa using hx)]
        exact (List.filter_eq_nil_iff.2 fun r _ h' => by simp at h'; omega).symm

/-- Stepping backward from the last row below `hi` while the key is at least `lo` visits the rows
with a key in `[lo, hi)` in the reverse order of the index, when there are no more rows below `hi`
than steps. -/
theorem walkDown_lastBelow (lo : Nat) :
    ∀ (fuel hi : Nat), ((sorted key rows).filter fun r => key r < hi).length ≤ fuel →
      walkDown key rows lo fuel (lastBelow key rows hi) =
        ((sorted key rows).filter fun r => lo ≤ key r ∧ key r < hi).reverse := by
  intro fuel
  induction fuel with
  | zero =>
    intro hi hlen
    -- no row below `hi`, so none in `[lo, hi)`
    have hnil := List.eq_nil_of_length_eq_zero (Nat.le_zero.1 hlen)
    rw [List.filter_eq_nil_iff] at hnil
    simp only [walkDown]
    rw [List.filter_eq_nil_iff.2 fun r hr h => hnil r hr (by simp at h ⊢; omega), List.reverse_nil]
  | succ fuel ih =>
    intro hi hlen
    cases h : lastBelow key rows hi with
    | none =>
      have habove := lastBelow_eq_none h
      rw [List.filter_eq_nil_iff.2 fun r hr h' => by
        have := habove r (mem_sorted.1 hr)
        simp at h'
        omega, List.reverse_nil]
      rfl
    | some x =>
      -- the last row ends the stretch; the next step starts below its key
      have hrange := filter_lastBelow hkeys h fun r => decide (lo ≤ key r)
      have hcount := filter_lastBelow hkeys h fun _ => true
      simp only [Bool.true_and, ite_true] at hcount
      simp only [Bool.decide_and]
      rw [hrange]
      simp only [walkDown]
      split
      · rename_i hx
        rw [if_pos (decide_eq_true hx), ih (key x) (by
          rw [hcount, List.length_append, List.length_singleton] at hlen
          omega)]
        simp
      · rename_i hx
        rw [if_neg (by simpa using hx), List.append_nil,
          List.filter_eq_nil_iff.2 fun r _ h' => by simp at h'; omega]
        rfl

end Walks

end SortedIndex
