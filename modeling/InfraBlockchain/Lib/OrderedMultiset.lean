import Mathlib.Data.List.Sort

/-!
# Ordered multisets

An ordered multiset (`std::multiset`, or a side of a `boost::bimap` declared `multiset_of`) keeps
its entries sorted by a key, entries with equal keys in the order of their insertion: a new entry
goes after every entry whose key is not above its own (`insert`). Here it is the list of its
entries in that order, and an iterator is a position in the list. `lower_bound` and `upper_bound`
are the positions of the first entry whose key is at least, or above, a bound (`lowerBound`,
`upperBound`), and `walk` is a loop that steps an iterator until it meets another, collecting the
entries it passes. Passing the last entry without meeting the other is undefined for the
container; the walk is `none` there.

A bound that holds from some key on (`Upward`) splits a sorted list: the entries before its first
position are those where it fails (`take_findIdx`) and the rest those where it holds
(`drop_findIdx`). A walk between the positions of two such bounds, the second the stronger,
collects exactly the entries that meet the first and not the second (`range_findIdx`), which for
the bounds of `lower_bound` and `upper_bound` are the entries with keys between them
(`range_lowerBound_lowerBound`, `range_lowerBound_upperBound`); a walk that starts past its end
runs off the list (`range_of_lt`).
-/

namespace OrderedMultiset

variable {α κ : Type} [LinearOrder κ] (key : α → κ)

/-- The entries are in the order of their keys. -/
def Sorted (l : List α) : Prop := l.Pairwise fun a b => key a ≤ key b

/-- `insert`: the new entry goes after those whose key is not above its own. -/
def insert (l : List α) (x : α) : List α :=
  List.orderedInsert (fun a b => key a < key b) x l

/-- `lower_bound(k)`: the position of the first entry whose key is at least `k`. -/
def lowerBound (l : List α) (k : κ) : Nat := l.findIdx fun a => decide (k ≤ key a)

/-- `upper_bound(k)`: the position of the first entry whose key is above `k`. -/
def upperBound (l : List α) (k : κ) : Nat := l.findIdx fun a => decide (k < key a)

/-- Stepping an iterator at position `i`, with the entries `rest` from there on, until it is at
position `e`, collecting the entries it passes. -/
def walk (e : Nat) : List α → Nat → Option (List α)
  | rest, i =>
    if i = e then some []
    else
      match rest with
      | [] => none
      | a :: rest => (walk e rest (i + 1)).map (a :: ·)

/-- The loop over the iterators from position `b` to position `e`. -/
def range (l : List α) (b e : Nat) : Option (List α) := walk e (l.drop b) b

/-- A bound that holds of an entry holds of every entry with a key at least as large. -/
def Upward (P : α → Bool) : Prop := ∀ a b, key a ≤ key b → P a = true → P b = true

variable {key}

/-! ## Walks -/

/-- A walk that reaches its end collects the entries up to it. -/
theorem walk_of_le {e : Nat} : ∀ (rest : List α) (i : Nat), i ≤ e → e ≤ i + rest.length →
    walk e rest i = some (rest.take (e - i))
  | [], i, hie, hle => by
    have hi : i = e := by simp at hle; omega
    simp [walk, hi]
  | a :: rest, i, hie, hle => by
    by_cases hi : i = e
    · simp [walk, hi]
    · have hstep := walk_of_le (e := e) rest (i + 1) (by omega) (by rw [List.length_cons] at hle; omega)
      rw [walk, if_neg hi, hstep, show e - i = e - (i + 1) + 1 by omega]
      rfl

/-- A walk that starts past its end never meets it and runs off the list. -/
theorem walk_of_lt {e : Nat} : ∀ (rest : List α) (i : Nat), e < i → walk e rest i = none
  | [], i, hei => by simp [walk, Nat.ne_of_gt hei]
  | a :: rest, i, hei => by
    rw [walk, if_neg (Nat.ne_of_gt hei), walk_of_lt rest (i + 1) (by omega)]
    rfl

/-- A range with its bounds in order is the slice between them. -/
theorem range_of_le {l : List α} {b e : Nat} (hbe : b ≤ e) (he : e ≤ l.length) :
    range l b e = some ((l.drop b).take (e - b)) :=
  walk_of_le _ _ hbe (by simp; omega)

/-- A range with its bounds the wrong way round is none. -/
theorem range_of_lt (l : List α) {b e : Nat} (heb : e < b) : range l b e = none :=
  walk_of_lt _ _ heb

/-! ## Insertion -/

/-- Insertion adds the element. -/
theorem perm_insert (l : List α) (x : α) : (insert key l x).Perm (x :: l) :=
  List.perm_orderedInsert _ x l

/-- Insertion keeps the order. -/
theorem sorted_insert {l : List α} (hs : Sorted key l) (x : α) : Sorted key (insert key l x) := by
  induction l with
  | nil => exact List.pairwise_singleton _ x
  | cons b l ih =>
    have hb : ∀ c ∈ l, key b ≤ key c := fun c hc => List.rel_of_pairwise_cons hs hc
    unfold insert
    rw [List.orderedInsert_cons]
    split_ifs with hxb
    · -- before `b`, which is not above any later entry
      refine List.Pairwise.cons (fun c hc => ?_) hs
      rcases List.mem_cons.1 hc with rfl | hc
      · exact le_of_lt hxb
      · exact le_trans (le_of_lt hxb) (hb _ hc)
    · -- after `b`, which is not above `x` either
      refine List.Pairwise.cons (fun c hc => ?_) (ih hs.of_cons)
      rcases List.mem_cons.1 ((perm_insert l x).mem_iff.1 hc) with rfl | hc
      · exact le_of_not_gt hxb
      · exact hb _ hc

/-- Inserting entries one by one keeps the multiset sorted and adds exactly them. -/
theorem foldl_insert (xs : List α) {l : List α} (hs : Sorted key l) :
    Sorted key (xs.foldl (insert key) l) ∧ (xs.foldl (insert key) l).Perm (l ++ xs) := by
  induction xs generalizing l with
  | nil => exact ⟨hs, by simp⟩
  | cons x xs ih =>
    obtain ⟨hs', hperm⟩ := ih (sorted_insert hs x)
    exact ⟨hs', hperm.trans (((perm_insert l x).append_right xs).trans List.perm_middle.symm)⟩

/-! ## Bounds on a sorted list -/

variable {P Q : α → Bool}

/-- The entries before the first position of an upward bound are those where it fails. -/
theorem take_findIdx (hP : Upward key P) {l : List α} (hs : Sorted key l) :
    l.take (l.findIdx P) = l.filter fun a => !P a := by
  induction l with
  | nil => rfl
  | cons a l ih =>
    rw [List.findIdx_cons]
    cases hPa : P a with
    | false =>
      simp only [cond_false, List.take_succ_cons, List.filter_cons, hPa, Bool.not_false, if_true]
      rw [ih hs.of_cons]
    | true =>
      -- every later entry meets the bound too
      have hrest : ∀ b ∈ l, P b = true := fun b hb => hP a b (List.rel_of_pairwise_cons hs hb) hPa
      simp only [cond_true, List.take_zero, List.filter_cons, hPa, Bool.not_true]
      exact (List.filter_eq_nil_iff.2 fun b hb => by simp [hrest b hb]).symm

/-- The entries from the first position of an upward bound on are those where it holds. -/
theorem drop_findIdx (hP : Upward key P) {l : List α} (hs : Sorted key l) :
    l.drop (l.findIdx P) = l.filter P := by
  induction l with
  | nil => rfl
  | cons a l ih =>
    rw [List.findIdx_cons]
    cases hPa : P a with
    | false =>
      simp only [cond_false, List.drop_succ_cons, List.filter_cons, hPa]
      rw [ih hs.of_cons]
      rfl
    | true =>
      have hrest : ∀ b ∈ l, P b = true := fun b hb => hP a b (List.rel_of_pairwise_cons hs hb) hPa
      simp only [cond_true, List.drop_zero, List.filter_cons, hPa, if_true]
      exact congrArg (a :: ·) (List.filter_eq_self.2 hrest).symm

/-- The first position of an upward bound counts the entries where it fails. -/
theorem findIdx_eq_length_filter (hP : Upward key P) {l : List α} (hs : Sorted key l) :
    l.findIdx P = (l.filter fun a => !P a).length := by
  rw [← take_findIdx hP hs, List.length_take_of_le List.findIdx_le_length]

/-- Between the positions of two upward bounds, the second the stronger, lie the entries that
meet the first and not the second. The second position, in the entries where it fails, is the end
of the list; in them the first bound has the same position, as the entries before it fail both. -/
theorem range_findIdx (hP : Upward key P) (hQ : Upward key Q) (hQP : ∀ a, Q a = true → P a = true)
    {l : List α} (hs : Sorted key l) :
    range l (l.findIdx P) (l.findIdx Q) = some (l.filter fun a => P a && !Q a) := by
  have hle : l.findIdx P ≤ l.findIdx Q := List.findIdx_le_findIdx fun a _ => hQP a
  have hs' : Sorted key (l.filter fun a => !Q a) := hs.sublist List.filter_sublist
  -- the entries failing `P` fail `Q`, so `P` has the same first position among those failing `Q`
  have hnotP : ((l.filter fun a => !Q a).filter fun a => !P a) = l.filter fun a => !P a := by
    rw [List.filter_filter]
    apply List.filter_congr
    intro a _
    cases hPa : P a <;> cases hQa : Q a <;> simp_all
  have hsame : (l.filter fun a => !Q a).findIdx P = l.findIdx P := by
    rw [findIdx_eq_length_filter hP hs', hnotP, ← findIdx_eq_length_filter hP hs]
  rw [range_of_le hle List.findIdx_le_length, ← List.drop_take, take_findIdx hQ hs, ← hsame,
    drop_findIdx hP hs', List.filter_filter]

/-- Keys from `k` on are upward closed. -/
theorem upward_le (k : κ) : Upward key fun a => decide (k ≤ key a) :=
  fun _ _ hab h => decide_eq_true (le_trans (of_decide_eq_true h) hab)

/-- Keys past `k` are upward closed. -/
theorem upward_lt (k : κ) : Upward key fun a => decide (k < key a) :=
  fun _ _ hab h => decide_eq_true (lt_of_lt_of_le (of_decide_eq_true h) hab)

/-- From `lower_bound(lo)` to `lower_bound(hi)` lie the entries with keys in `[lo, hi)`. -/
theorem range_lowerBound_lowerBound {l : List α} (hs : Sorted key l) {lo hi : κ} (hlohi : lo ≤ hi) :
    range l (lowerBound key l lo) (lowerBound key l hi) =
      some (l.filter fun a => decide (lo ≤ key a) && decide (key a < hi)) := by
  rw [lowerBound, lowerBound, range_findIdx (upward_le lo) (upward_le hi)
    (fun a h => decide_eq_true (le_trans hlohi (of_decide_eq_true h))) hs]
  congr 1
  apply List.filter_congr
  intro a _
  simp only [← decide_not, not_le]

/-- From `lower_bound(lo)` to `upper_bound(hi)` lie the entries with keys in `[lo, hi]`. -/
theorem range_lowerBound_upperBound {l : List α} (hs : Sorted key l) {lo hi : κ} (hlohi : lo ≤ hi) :
    range l (lowerBound key l lo) (upperBound key l hi) =
      some (l.filter fun a => decide (lo ≤ key a) && decide (key a ≤ hi)) := by
  rw [lowerBound, upperBound, range_findIdx (upward_le lo) (upward_lt hi)
    (fun a h => decide_eq_true (le_trans hlohi (le_of_lt (of_decide_eq_true h)))) hs]
  congr 1
  apply List.filter_congr
  intro a _
  simp only [← decide_not, not_lt]

/-- In a list strictly sorted by the key, the entries from a position on are those whose key is at
least that of the entry there: the entries before it lie below it. -/
theorem filter_le_of_drop {l : List α} (hs : l.Pairwise fun a b => key a < key b) {n : Nat}
    {x : α} {rest : List α} (h : l.drop n = x :: rest) :
    l.filter (fun a => decide (key x ≤ key a)) = x :: rest := by
  have hsplit : l = l.take n ++ x :: rest := by rw [← h, List.take_append_drop]
  rw [hsplit] at hs ⊢
  obtain ⟨-, hafter, hcross⟩ := List.pairwise_append.1 hs
  rw [List.filter_append, List.filter_eq_nil_iff.2, List.nil_append, List.filter_eq_self.2]
  · intro a ha
    rcases List.mem_cons.1 ha with rfl | ha
    · exact decide_eq_true (le_refl _)
    · exact decide_eq_true (le_of_lt (List.rel_of_pairwise_cons hafter ha))
  · intro a ha hle
    exact absurd (of_decide_eq_true hle) (not_le_of_gt (hcross a ha x List.mem_cons_self))

end OrderedMultiset
