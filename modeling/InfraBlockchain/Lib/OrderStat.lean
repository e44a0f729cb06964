import Mathlib.Data.List.Sort
import Mathlib.Data.List.GetD
import Mathlib.Order.MinMax

/-!
# Order statistics of a list

The entry of rank `k` of a list, counting from zero, is what a selection such as
`std::nth_element` places at position `k`: the entry at `k` of the list sorted. Sorting forgets the
order of the entries, and every order statistic is bounded by a bound of all entries and grows when
the entries grow: raising the entries one by one (`Forall₂ (· ≤ ·)`) raises the sorted list
entrywise. The one-entry case reduces to inserting a larger entry into the same sorted list.

The entry of rank `k` is what a quorum reads: at least `length - k` entries are at least it, and
above it at most `length - (k + 1)` remain. Both count on the sorted list, which has the same
entries, split at place `k`.

The minimum is the entry of rank `0`. A loop that keeps it as an optional value, taking the first
entry and then each one below the minimum so far (`keepMin`), ends with `List.min?` of what it
started with and the entries (`foldl_keepMin`); a monotone map, such as subtracting a constant,
commutes with it (`min?_map_of_monotone`).
-/

namespace OrderStat

variable {α : Type} [LinearOrder α]

/-- The entry of rank `k` of `l`, counting from zero, or `d` past the end. -/
def kthSmallest (l : List α) (k : Nat) (d : α) : α :=
  (l.insertionSort (· ≤ ·)).getD k d

/-- Two lists with the same entries sort alike. -/
theorem insertionSort_eq_of_perm {l l' : List α} (h : l.Perm l') :
    l.insertionSort (· ≤ ·) = l'.insertionSort (· ≤ ·) := by
  apply List.Perm.eq_of_pairwise' (List.pairwise_insertionSort _ _)
    (List.pairwise_insertionSort _ _)
  exact (List.perm_insertionSort _ l).trans (h.trans (List.perm_insertionSort _ l').symm)

/-- Entrywise bounds compose. -/
theorem forall₂_le_trans : ∀ {l₁ l₂ l₃ : List α}, List.Forall₂ (· ≤ ·) l₁ l₂ →
    List.Forall₂ (· ≤ ·) l₂ l₃ → List.Forall₂ (· ≤ ·) l₁ l₃
  | [], [], [], .nil, .nil => .nil
  | _ :: _, _ :: _, _ :: _, .cons h₁ t₁, .cons h₂ t₂ => .cons (h₁.trans h₂) (forall₂_le_trans t₁ t₂)

/-- A list is bounded entrywise by itself. -/
theorem forall₂_le_refl (l : List α) : List.Forall₂ (· ≤ ·) l l :=
  List.forall₂_same.2 fun _ _ => le_rfl

/-- A sorted list `y :: t` is bounded entrywise by `t` with an entry `b ≥ y` inserted: inserting
shifts the entries after `b` up by one place. -/
theorem forall₂_cons_orderedInsert {y b : α} (hyb : y ≤ b) :
    ∀ {t : List α}, (y :: t).Pairwise (· ≤ ·) →
      List.Forall₂ (· ≤ ·) (y :: t) (t.orderedInsert (· ≤ ·) b)
  | [], _ => .cons hyb .nil
  | z :: t, hs => by
    rw [List.orderedInsert_cons]
    split
    · exact .cons hyb (forall₂_le_refl _)
    · next hbz =>
      have hyz : y ≤ z := List.rel_of_pairwise_cons hs List.mem_cons_self
      exact .cons hyz (forall₂_cons_orderedInsert (le_of_lt (not_le.1 hbz)) hs.of_cons)

/-- Inserting a larger entry into a sorted list gives an entrywise larger list. -/
theorem orderedInsert_le_orderedInsert {a b : α} (hab : a ≤ b) :
    ∀ {s : List α}, s.Pairwise (· ≤ ·) →
      List.Forall₂ (· ≤ ·) (s.orderedInsert (· ≤ ·) a) (s.orderedInsert (· ≤ ·) b)
  | [], _ => .cons hab .nil
  | x :: t, hs => by
    rw [List.orderedInsert_cons, List.orderedInsert_cons]
    by_cases hax : a ≤ x
    · by_cases hbx : b ≤ x
      · rw [if_pos hax, if_pos hbx]
        exact .cons hab (forall₂_le_refl _)
      · -- `a` goes in front, `b` further on
        rw [if_pos hax, if_neg hbx]
        exact .cons hax (forall₂_cons_orderedInsert (le_of_lt (not_le.1 hbx)) hs)
    · have hbx : ¬ b ≤ x := fun h => hax (hab.trans h)
      rw [if_neg hax, if_neg hbx]
      exact .cons le_rfl (orderedInsert_le_orderedInsert hab hs.of_cons)

/-- Raising one entry raises the sorted list entrywise. -/
theorem insertionSort_le_of_raise {a b : α} (hab : a ≤ b) (l₁ l₂ : List α) :
    List.Forall₂ (· ≤ ·) ((l₁ ++ a :: l₂).insertionSort (· ≤ ·))
      ((l₁ ++ b :: l₂).insertionSort (· ≤ ·)) := by
  rw [insertionSort_eq_of_perm List.perm_middle, insertionSort_eq_of_perm List.perm_middle,
    List.insertionSort_cons, List.insertionSort_cons]
  exact orderedInsert_le_orderedInsert hab (List.pairwise_insertionSort _ _)

/-- Raising every entry raises the sorted list entrywise. By induction on the pairing, behind a
prefix of entries already raised. -/
theorem insertionSort_le_insertionSort {l l' : List α} (h : List.Forall₂ (· ≤ ·) l l') :
    List.Forall₂ (· ≤ ·) (l.insertionSort (· ≤ ·)) (l'.insertionSort (· ≤ ·)) := by
  suffices hp : ∀ p : List α, List.Forall₂ (· ≤ ·) ((p ++ l).insertionSort (· ≤ ·))
      ((p ++ l').insertionSort (· ≤ ·)) by
    simpa using hp []
  induction h with
  | nil => exact fun p => forall₂_le_refl _
  | @cons a b t t' hab _ ih =>
    intro p
    have hrest := ih (p ++ [b])
    rw [List.append_assoc, List.append_assoc, List.singleton_append,
      List.singleton_append] at hrest
    exact forall₂_le_trans (insertionSort_le_of_raise hab p t) hrest

/-- Entrywise bounds hold at every place, the default included. -/
theorem Forall₂.getD_le {s s' : List α} (h : List.Forall₂ (· ≤ ·) s s') (k : Nat) (d : α) :
    s.getD k d ≤ s'.getD k d := by
  induction h generalizing k with
  | nil => exact le_rfl
  | cons hab _ ih =>
    cases k with
    | zero => exact hab
    | succ k => exact ih k

/-- Raising the entries raises every order statistic. -/
theorem kthSmallest_mono {l l' : List α} (h : List.Forall₂ (· ≤ ·) l l') (k : Nat) (d : α) :
    kthSmallest l k d ≤ kthSmallest l' k d :=
  Forall₂.getD_le (insertionSort_le_insertionSort h) k d

/-- An order statistic is within a bound of every entry and of the default. -/
theorem kthSmallest_le {l : List α} {b d : α} (hl : ∀ x ∈ l, x ≤ b) (hd : d ≤ b) (k : Nat) :
    kthSmallest l k d ≤ b := by
  unfold kthSmallest
  rw [List.getD_eq_getElem?_getD]
  cases hk : (l.insertionSort (· ≤ ·))[k]? with
  | none => exact hd
  | some x => exact hl x ((List.mem_insertionSort _).1 (List.mem_of_getElem? hk))

/-- In a sorted list the entry at place `k` is at most every entry from there on. -/
theorem getElem_le_of_mem_drop {t : List α} (ht : t.Pairwise (· ≤ ·)) {k : Nat}
    (hk : k < t.length) {x : α} (hx : x ∈ t.drop k) : t[k] ≤ x := by
  have hd := ht.sublist (List.drop_sublist k t)
  rw [List.drop_eq_getElem_cons hk] at hd hx
  rcases List.mem_cons.1 hx with rfl | hx
  · exact le_rfl
  · exact List.rel_of_pairwise_cons hd hx

/-- In a sorted list every entry up to place `k` is at most the entry there. -/
theorem le_getElem_of_mem_take {t : List α} (ht : t.Pairwise (· ≤ ·)) {k : Nat}
    (hk : k < t.length) {x : α} (hx : x ∈ t.take (k + 1)) : x ≤ t[k] := by
  rw [List.take_add_one, List.getElem?_eq_getElem hk] at hx
  rcases List.mem_append.1 hx with hx | hx
  · have hkd : t[k] ∈ t.drop k := by
      rw [List.drop_eq_getElem_cons hk]
      exact List.mem_cons_self
    exact ht.rel_of_mem_take_of_mem_drop hx hkd
  · obtain rfl : x = t[k] := by simpa using hx
    exact le_rfl

/-- The entry of rank `k` is an entry. -/
theorem kthSmallest_mem {l : List α} {k : Nat} (hk : k < l.length) (d : α) :
    kthSmallest l k d ∈ l := by
  have hkt : k < (l.insertionSort (· ≤ ·)).length := by rwa [List.length_insertionSort]
  rw [kthSmallest, List.getD_eq_getElem _ _ hkt]
  exact (List.mem_insertionSort _).1 (List.getElem_mem hkt)

/-- All entries but the `k` below it are at least the entry of rank `k`. -/
theorem length_sub_le_countP_kthSmallest {l : List α} {k : Nat} (hk : k < l.length) (d : α) :
    l.length - k ≤ l.countP (fun x => decide (kthSmallest l k d ≤ x)) := by
  set t := l.insertionSort (· ≤ ·) with htdef
  have hlen : t.length = l.length := List.length_insertionSort _ l
  have hkt : k < t.length := by omega
  rw [kthSmallest, ← htdef, List.getD_eq_getElem _ _ hkt,
    ← (List.perm_insertionSort (· ≤ ·) l).countP_eq, ← htdef]
  -- the entries of the sorted list from place `k` on all count
  calc l.length - k = (t.drop k).length := by rw [List.length_drop, hlen]
    _ = (t.drop k).countP (fun x => decide (t[k] ≤ x)) :=
      (List.countP_eq_length.2 fun x hx =>
        decide_eq_true (getElem_le_of_mem_drop (List.pairwise_insertionSort _ l) hkt hx)).symm
    _ ≤ t.countP (fun x => decide (t[k] ≤ x)) := (List.drop_sublist k t).countP_le

/-- Above the entry of rank `k`, at most the entries of higher rank remain. -/
theorem countP_le_of_kthSmallest_lt {l : List α} {k : Nat} (hk : k < l.length) {d b : α}
    (hb : kthSmallest l k d < b) : l.countP (fun x => decide (b ≤ x)) ≤ l.length - (k + 1) := by
  set t := l.insertionSort (· ≤ ·) with htdef
  have hlen : t.length = l.length := List.length_insertionSort _ l
  have hkt : k < t.length := by omega
  rw [kthSmallest, ← htdef, List.getD_eq_getElem _ _ hkt] at hb
  rw [← (List.perm_insertionSort (· ≤ ·) l).countP_eq, ← htdef]
  -- no entry of the sorted list up to place `k` counts
  have hnone : (t.take (k + 1)).countP (fun x => decide (b ≤ x)) = 0 :=
    List.countP_eq_zero.2 fun x hx hbx =>
      absurd (le_getElem_of_mem_take (List.pairwise_insertionSort _ l) hkt hx)
        (not_le.2 (lt_of_lt_of_le hb (of_decide_eq_true hbx)))
  calc t.countP (fun x => decide (b ≤ x))
      = (t.take (k + 1) ++ t.drop (k + 1)).countP (fun x => decide (b ≤ x)) := by
        rw [List.take_append_drop]
    _ = (t.drop (k + 1)).countP (fun x => decide (b ≤ x)) := by
        rw [List.countP_append, hnone, Nat.zero_add]
    _ ≤ (t.drop (k + 1)).length := List.countP_le_length
    _ = l.length - (k + 1) := by rw [List.length_drop, hlen]

/-! ## The running minimum -/

/-- One step of a running minimum kept as an optional value: the first entry, then each one below
the minimum so far. -/
def keepMin (acc : Option α) (x : α) : Option α :=
  match acc with
  | some w => if x < w then some x else some w
  | none => some x

/-- Once a value is kept, `keepMin` keeps the least. -/
theorem keepMin_some (w x : α) : keepMin (some w) x = some (min w x) := by
  show (if x < w then some x else some w) = some (min w x)
  split_ifs with h
  · rw [min_eq_right h.le]
  · rw [min_eq_left (not_lt.1 h)]

/-- A running minimum over a list is the minimum of what it started with and the list. -/
theorem foldl_keepMin (l : List α) (acc : Option α) :
    l.foldl keepMin acc = (acc.toList ++ l).min? := by
  induction l generalizing acc with
  | nil => cases acc <;> rfl
  | cons x l ih =>
    rw [List.foldl_cons, ih]
    cases acc with
    | none => rfl
    | some w =>
      rw [keepMin_some]
      rfl

section Monotone

variable {β : Type} [LinearOrder β] {f : α → β}

/-- A monotone map commutes with the minimum of a list. -/
theorem foldl_min_map (hf : Monotone f) (l : List α) (a : α) :
    (l.map f).foldl min (f a) = f (l.foldl min a) := by
  induction l generalizing a with
  | nil => rfl
  | cons b l ih => rw [List.map_cons, List.foldl_cons, List.foldl_cons, ← hf.map_min, ih]

/-- A monotone map commutes with the minimum. -/
theorem min?_map_of_monotone (hf : Monotone f) (l : List α) : (l.map f).min? = l.min?.map f := by
  cases l with
  | nil => rfl
  | cons a l =>
    rw [List.map_cons, List.min?_cons', List.min?_cons', foldl_min_map hf]
    rfl

end Monotone

end OrderStat
