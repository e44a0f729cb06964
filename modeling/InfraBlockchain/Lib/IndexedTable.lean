import Mathlib.Data.List.Basic
import Mathlib.Data.List.Pairwise
import Mathlib.Algebra.BigOperators.Group.List.Basic

/-!
# Tables with unique indices

A table is a list of rows no two of which clash, where two rows clash when some unique index of
the table gives them equal keys. This is what the ordered-unique indices of a multi-index container
keep: creating a row that clashes with one already there fails, and so does a modification after
which two rows clash. Removing rows never fails.

Rows are looked up by a predicate. The lookups of a program are by a unique key, so the predicate
selects at most one row (`UniqueKey`). Around the row that such a lookup finds the rows split
into the rows before and the rows after it, none of which it selects (`split_of_find?`); a
modification or a removal of that row changes only its place in the split (`modify_split`,
`remove_split`). Sums and counts over a table are then followed through a step by
`List.sum_append` and its kind.
-/

/-- Rows no two of which clash in a unique index. -/
structure IndexedTable (α : Type) (clash : α → α → Prop) where
  /-- The rows, in the order in which they were created. -/
  rows : List α
  /-- No row clashes with a later one. -/
  no_clash : rows.Pairwise fun a b => ¬ clash a b
  deriving DecidableEq

namespace IndexedTable

variable {α : Type} {clash : α → α → Prop}

/-- The table with no rows. -/
def empty : IndexedTable α clash := ⟨[], .nil⟩

/-- The first row that `p` selects. -/
def find? (t : IndexedTable α clash) (p : α → Bool) : Option α := t.rows.find? p

/-- A new row at the end of the table, or `none` when it clashes with a row already there. -/
def create [DecidableRel clash] (t : IndexedTable α clash) (x : α) :
    Option (IndexedTable α clash) :=
  if h : ∀ r ∈ t.rows, ¬ clash r x then
    some ⟨t.rows ++ [x], List.pairwise_append.2 ⟨t.no_clash, List.pairwise_singleton _ _,
      fun a ha b hb => by rw [List.mem_singleton] at hb; subst hb; exact h a ha⟩⟩
  else none

/-- The rows of `l`, each one that `p` selects replaced by its image under `f`. -/
def mapSelected (p : α → Bool) (f : α → α) (l : List α) : List α :=
  l.map fun r => if p r then f r else r

/-- The rows that `p` selects replaced by their images under `f`, or `none` when two rows clash
afterwards. -/
def modify [DecidableRel clash] (t : IndexedTable α clash) (p : α → Bool) (f : α → α) :
    Option (IndexedTable α clash) :=
  if h : (mapSelected p f t.rows).Pairwise (fun a b => ¬ clash a b) then
    some ⟨mapSelected p f t.rows, h⟩
  else none

/-- The table without the rows that `p` selects. -/
def remove (t : IndexedTable α clash) (p : α → Bool) : IndexedTable α clash :=
  ⟨t.rows.filter (fun r => !p r), t.no_clash.filter _⟩

/-- Every row replaced by its image under `f`, which makes no two rows clash that did not: a
modification of fields that no unique index reads, which never fails. -/
def map (t : IndexedTable α clash) (f : α → α) (hf : ∀ a b, clash (f a) (f b) → clash a b) :
    IndexedTable α clash :=
  ⟨t.rows.map f, List.pairwise_map.2 (t.no_clash.imp fun hab hfab => hab (hf _ _ hfab))⟩

/-- A lookup by a unique key: any two rows that it selects clash. -/
def UniqueKey (clash : α → α → Prop) (p : α → Bool) : Prop :=
  ∀ a b, p a = true → p b = true → clash a b

@[simp] theorem rows_empty : (empty : IndexedTable α clash).rows = [] := rfl

@[simp] theorem rows_remove (t : IndexedTable α clash) (p : α → Bool) :
    (t.remove p).rows = t.rows.filter (fun r => !p r) := rfl

@[simp] theorem rows_map (t : IndexedTable α clash) (f : α → α)
    (hf : ∀ a b, clash (f a) (f b) → clash a b) : (t.map f hf).rows = t.rows.map f := rfl

/-- A row that `find?` returns is a row of the table that the lookup selects. -/
theorem mem_of_find? {t : IndexedTable α clash} {p : α → Bool} {r : α} (h : t.find? p = some r) :
    r ∈ t.rows ∧ p r = true :=
  ⟨List.mem_of_find?_eq_some h, List.find?_some h⟩

/-- No row is selected by a lookup that finds nothing. -/
theorem find?_eq_none_iff {t : IndexedTable α clash} {p : α → Bool} :
    t.find? p = none ↔ ∀ r ∈ t.rows, p r = false := by
  simp [find?]

/-- `rows` is `l₁ ++ r :: l₂` and `r` is the only one of them that `p` selects. -/
structure SplitAt (p : α → Bool) (rows : List α) (l₁ : List α) (r : α) (l₂ : List α) : Prop where
  /-- The rows around `r`. -/
  eq : rows = l₁ ++ r :: l₂
  /-- `p` selects no row before `r`. -/
  left : ∀ x ∈ l₁, p x = false
  /-- `p` selects `r`. -/
  sel : p r = true
  /-- `p` selects no row after `r`. -/
  right : ∀ x ∈ l₂, p x = false

/-- The row that a lookup by a unique key finds splits the table: it is the only row that the
lookup selects. -/
theorem split_of_find? {t : IndexedTable α clash} {p : α → Bool} {r : α} (hp : UniqueKey clash p)
    (h : t.find? p = some r) : ∃ l₁ l₂, SplitAt p t.rows l₁ r l₂ := by
  obtain ⟨hr, l₁, l₂, hsplit, h₁⟩ := List.find?_eq_some_iff_append.1 h
  refine ⟨l₁, l₂, hsplit, fun x hx => by simpa using h₁ x hx, hr, fun x hx => ?_⟩
  -- a later row that the lookup selects would clash with `r`
  have hpw := t.no_clash
  rw [hsplit, List.pairwise_append, List.pairwise_cons] at hpw
  cases hx' : p x
  · rfl
  · exact absurd (hp r x hr hx') (hpw.2.1.1 x hx)

/-- A lookup finds the one row that it selects in a split. -/
theorem SplitAt.find? {p : α → Bool} {rows l₁ l₂ : List α} {r : α} (h : SplitAt p rows l₁ r l₂) :
    rows.find? p = some r := by
  rw [h.eq, List.find?_append, List.find?_eq_none.2 (fun x hx => by simp [h.left x hx]),
    Option.none_or]
  simp [h.sel]

/-- Another lookup that selects neither the row of a split nor its replacement finds the same
row before and after the replacement. -/
theorem find?_replace {q : α → Bool} {l₁ l₂ : List α} {r r' : α} (hr : q r = false)
    (hr' : q r' = false) : (l₁ ++ r' :: l₂).find? q = (l₁ ++ r :: l₂).find? q := by
  rw [List.find?_append, List.find?_append, List.find?_cons_of_neg (by simp [hr']),
    List.find?_cons_of_neg (by simp [hr])]

/-- Another lookup that does not select the row of a split finds the same row without it. -/
theorem find?_drop {q : α → Bool} {l₁ l₂ : List α} {r : α} (hr : q r = false) :
    (l₁ ++ l₂).find? q = (l₁ ++ r :: l₂).find? q := by
  rw [List.find?_append, List.find?_append, List.find?_cons_of_neg (by simp [hr])]

/-- A unique key selects no row of a table besides the one that it finds. -/
theorem eq_of_find? {t : IndexedTable α clash} {p : α → Bool} {r x : α} (hp : UniqueKey clash p)
    (h : t.find? p = some r) (hx : x ∈ t.rows) (hpx : p x = true) : x = r := by
  obtain ⟨l₁, l₂, hs⟩ := split_of_find? hp h
  rw [hs.eq, List.mem_append, List.mem_cons] at hx
  rcases hx with hx | rfl | hx
  · rw [hs.left x hx] at hpx; cases hpx
  · rfl
  · rw [hs.right x hx] at hpx; cases hpx

/-- A lookup by a unique key finds the row that it selects. -/
theorem find?_of_mem {t : IndexedTable α clash} {p : α → Bool} {x : α} (hp : UniqueKey clash p)
    (hx : x ∈ t.rows) (hpx : p x = true) : t.find? p = some x := by
  cases h : t.find? p with
  | none =>
    have hsel := find?_eq_none_iff.1 h x hx
    rw [hpx] at hsel
    cases hsel
  | some r => rw [eq_of_find? hp h hx hpx]

/-- Two rows of a table that clash are one row, when clashing is symmetric. -/
theorem eq_of_clash {t : IndexedTable α clash} (hsymm : ∀ a b, clash a b → clash b a) {a b : α}
    (ha : a ∈ t.rows) (hb : b ∈ t.rows) (hab : clash a b) : a = b := by
  have : Std.Symm fun a b => ¬ clash a b := ⟨fun a b h h' => h (hsymm b a h')⟩
  by_contra hne
  exact t.no_clash.forall ha hb hne hab

/-- A created row goes at the end of the table. -/
theorem rows_of_create [DecidableRel clash] {t t' : IndexedTable α clash} {x : α}
    (h : t.create x = some t') : t'.rows = t.rows ++ [x] := by
  unfold create at h
  split at h
  · cases h; rfl
  · cases h

/-- A row that clashes with no row of the table is created. -/
theorem create_of_fresh [DecidableRel clash] {t : IndexedTable α clash} {x : α}
    (h : ∀ r ∈ t.rows, ¬ clash r x) : ∃ t', t.create x = some t' ∧ t'.rows = t.rows ++ [x] := by
  unfold create
  rw [dif_pos h]
  exact ⟨_, rfl, rfl⟩

/-- A row that clashes with a row already there is not created. -/
theorem create_of_clash [DecidableRel clash] {t : IndexedTable α clash} {x r : α}
    (hr : r ∈ t.rows) (hc : clash r x) : t.create x = none := by
  unfold create
  rw [dif_neg (fun h => h r hr hc)]

/-- A modification replaces the selected rows by their images. -/
theorem rows_of_modify [DecidableRel clash] {t t' : IndexedTable α clash} {p : α → Bool}
    {f : α → α} (h : t.modify p f = some t') : t'.rows = mapSelected p f t.rows := by
  unfold modify at h
  split at h
  · cases h; rfl
  · cases h

/-- The images under a modification of rows that it does not select are the rows themselves. -/
theorem mapSelected_of_unselected {l : List α} {p : α → Bool} (f : α → α)
    (h : ∀ x ∈ l, p x = false) : mapSelected p f l = l := by
  unfold mapSelected
  conv_rhs => rw [← List.map_id l]
  apply List.map_congr_left
  intro x hx
  simp [h x hx]

/-- A test that a modification does not change is true of the same rows after it. -/
theorem any_mapSelected {l : List α} {p q : α → Bool} {f : α → α} (hq : ∀ r, q (f r) = q r) :
    (mapSelected p f l).any q = l.any q := by
  simp only [mapSelected, List.any_map]
  congr 1
  funext r
  by_cases hp : p r <;> simp [hp, hq]

/-! ### Properties of every row

A property of every row is kept by a creation of a row that has it, by a modification whose images
of selected rows have it, and by every removal. -/

section Rows

variable {P : α → Prop}

/-- A created row that has the property keeps it true of every row. -/
theorem forall_of_create [DecidableRel clash] {t t' : IndexedTable α clash} {x : α}
    (h : t.create x = some t') (ht : ∀ r ∈ t.rows, P r) (hx : P x) : ∀ r ∈ t'.rows, P r := by
  rw [rows_of_create h]
  intro r hr
  rcases List.mem_append.1 hr with hr | hr
  · exact ht r hr
  · rw [List.mem_singleton.1 hr]
    exact hx

/-- A modification whose images of selected rows have the property keeps it true of every row. -/
theorem forall_of_modify [DecidableRel clash] {t t' : IndexedTable α clash} {p : α → Bool}
    {f : α → α} (h : t.modify p f = some t') (ht : ∀ r ∈ t.rows, P r)
    (hf : ∀ r ∈ t.rows, p r = true → P (f r)) : ∀ r ∈ t'.rows, P r := by
  rw [rows_of_modify h]
  intro r' hr'
  obtain ⟨r, hr, rfl⟩ := List.mem_map.1 hr'
  by_cases hp : p r
  · rw [if_pos hp]
    exact hf r hr hp
  · rw [if_neg hp]
    exact ht r hr

/-- A removal keeps a property of every row. -/
theorem forall_remove {t : IndexedTable α clash} (ht : ∀ r ∈ t.rows, P r) (p : α → Bool) :
    ∀ r ∈ (t.remove p).rows, P r := fun r hr =>
  ht r (List.mem_of_mem_filter ((rows_remove t p) ▸ hr))

end Rows

/-- At a split around the one selected row, a modification replaces that row only. -/
theorem SplitAt.mapSelected_eq {p : α → Bool} {rows l₁ l₂ : List α} {r : α}
    (h : SplitAt p rows l₁ r l₂) (f : α → α) :
    IndexedTable.mapSelected p f rows = l₁ ++ f r :: l₂ := by
  have e : IndexedTable.mapSelected p f (l₁ ++ r :: l₂) =
      IndexedTable.mapSelected p f l₁ ++ f r :: IndexedTable.mapSelected p f l₂ := by
    simp [IndexedTable.mapSelected, h.sel]
  rw [h.eq, e, mapSelected_of_unselected f h.left, mapSelected_of_unselected f h.right]

/-- A modification of the row of a split succeeds when the new row clashes with none of the
others, and leaves the others in their places. -/
theorem modify_split [DecidableRel clash] {t : IndexedTable α clash} {p : α → Bool} {r : α}
    {l₁ l₂ : List α} (f : α → α) (h : SplitAt p t.rows l₁ r l₂)
    (hc₁ : ∀ x ∈ l₁, ¬ clash x (f r)) (hc₂ : ∀ x ∈ l₂, ¬ clash (f r) x) :
    ∃ t', t.modify p f = some t' ∧ t'.rows = l₁ ++ f r :: l₂ := by
  have hmap := h.mapSelected_eq f
  -- the untouched rows keep their mutual order, and the new row clashes with none of them
  have hpw := t.no_clash
  rw [h.eq, List.pairwise_append, List.pairwise_cons] at hpw
  obtain ⟨hl₁, ⟨-, hl₂⟩, hcross⟩ := hpw
  have hnew : (l₁ ++ f r :: l₂).Pairwise fun a b => ¬ clash a b := by
    refine List.pairwise_append.2 ⟨hl₁, List.pairwise_cons.2 ⟨hc₂, hl₂⟩, ?_⟩
    intro a ha b hb
    rcases List.mem_cons.1 hb with rfl | hb
    · exact hc₁ a ha
    · exact hcross a ha b (List.mem_cons_of_mem _ hb)
  unfold modify
  rw [hmap, dif_pos hnew]
  exact ⟨_, rfl, rfl⟩

/-- After a modification by a unique key, the lookup finds the image of the row it found, when the
image is still selected. -/
theorem find?_of_modify [DecidableRel clash] {t t' : IndexedTable α clash} {p : α → Bool}
    {f : α → α} {r : α} (hp : UniqueKey clash p) (hfind : t.find? p = some r)
    (hmod : t.modify p f = some t') (hsel : p (f r) = true) : t'.find? p = some (f r) := by
  obtain ⟨l₁, l₂, hs⟩ := split_of_find? hp hfind
  have hsplit : SplitAt p t'.rows l₁ (f r) l₂ :=
    ⟨by rw [rows_of_modify hmod, hs.mapSelected_eq f], hs.left, hsel, hs.right⟩
  exact hsplit.find?

/-- At a split around the one selected row, a removal drops that row only. -/
theorem remove_split {t : IndexedTable α clash} {p : α → Bool} {r : α} {l₁ l₂ : List α}
    (h : SplitAt p t.rows l₁ r l₂) : (t.remove p).rows = l₁ ++ l₂ := by
  have e₁ : l₁.filter (fun r => !p r) = l₁ := List.filter_eq_self.2 (by simpa using h.left)
  have e₂ : l₂.filter (fun r => !p r) = l₂ := List.filter_eq_self.2 (by simpa using h.right)
  rw [rows_remove, h.eq, List.filter_append, List.filter_cons, h.sel, e₁, e₂]
  rfl

/-! ## Lookups by a key

When rows with equal keys clash, the table is looked up by key (`lookup`). A removal by key, a
modification by key that keeps the key, and a creation change the lookup at one key only
(`lookup_remove`, `lookup_of_modify`, `lookup_of_create`), and a row is in the table exactly when
the lookup at its key finds it (`mem_of_lookup`, `lookup_of_mem`). -/

section Keyed

variable {κ : Type} [BEq κ] [LawfulBEq κ]

/-- The row whose key is `k`. -/
def lookup (t : IndexedTable α clash) (key : α → κ) (k : κ) : Option α :=
  t.find? (fun r => key r == k)

variable {key : α → κ}

/-- A row that the lookup finds is in the table, with the key. -/
theorem mem_of_lookup {t : IndexedTable α clash} {k : κ} {r : α} (h : t.lookup key k = some r) :
    r ∈ t.rows ∧ key r = k := by
  obtain ⟨hr, hsel⟩ := mem_of_find? h
  exact ⟨hr, by simpa using hsel⟩

/-- The lookup finds every row of a table whose equal keys clash. -/
theorem lookup_of_mem {t : IndexedTable α clash} (hkey : ∀ a b, key a = key b → clash a b)
    {r : α} (hr : r ∈ t.rows) : t.lookup key (key r) = some r :=
  find?_of_mem (fun a b ha hb => hkey a b (by simp at ha hb; rw [ha, hb])) hr (by simp)

/-- The lookup finds nothing at a key that no row has. -/
theorem lookup_eq_none {t : IndexedTable α clash} {k : κ} :
    t.lookup key k = none ↔ ∀ r ∈ t.rows, key r ≠ k := by
  simp [lookup, find?_eq_none_iff]

/-- A removal by key empties that key and leaves the others. -/
theorem lookup_remove [DecidableEq κ] (t : IndexedTable α clash) (k₀ k : κ) :
    (t.remove (fun r => key r == k₀)).lookup key k = if k = k₀ then none else t.lookup key k := by
  unfold lookup find?
  rw [rows_remove, List.find?_filter]
  split_ifs with h
  · subst h
    simp
  · congr 1
    funext r
    by_cases hr : key r = k
    · simp [hr, h]
    · simp [hr]

/-- A modification by key that keeps keys changes the row at that key and leaves the others. -/
theorem lookup_of_modify [DecidableEq κ] [DecidableRel clash] {t t' : IndexedTable α clash}
    {k₀ : κ} {f : α → α}
    (h : t.modify (fun r => key r == k₀) f = some t') (hf : ∀ r, key (f r) = key r) (k : κ) :
    t'.lookup key k = if k = k₀ then (t.lookup key k₀).map f else t.lookup key k := by
  unfold lookup find?
  rw [rows_of_modify h, mapSelected, List.find?_map]
  have hsame : ((fun r => key r == k) ∘ fun r => if (key r == k₀) = true then f r else r) =
      fun r => key r == k := by
    funext r
    by_cases hr : key r = k₀ <;> simp [hr, hf]
  rw [hsame]
  split_ifs with hk
  · subst hk
    cases hfind : t.rows.find? (fun r => key r == k) with
    | none => rfl
    | some r =>
      have hr : key r = k := by simpa using List.find?_some hfind
      simp [hr]
  · cases hfind : t.rows.find? (fun r => key r == k) with
    | none => rfl
    | some r =>
      have hr : key r = k := by simpa using List.find?_some hfind
      simp [hr, hk]

/-- A creation sets the lookup at the new row's key, which no row had, and leaves the others. -/
theorem lookup_of_create [DecidableEq κ] [DecidableRel clash]
    (hkey : ∀ a b, key a = key b → clash a b)
    {t t' : IndexedTable α clash} {x : α} (h : t.create x = some t') (k : κ) :
    t.lookup key (key x) = none ∧
      t'.lookup key k = if k = key x then some x else t.lookup key k := by
  have hfresh : t.lookup key (key x) = none := by
    unfold create at h
    split at h
    · rename_i hnc
      exact lookup_eq_none.2 fun r hr e => hnc r hr (hkey r x e)
    · cases h
  refine ⟨hfresh, ?_⟩
  unfold lookup find?
  rw [rows_of_create h, List.find?_append]
  split_ifs with hk
  · subst hk
    have hnone : t.rows.find? (fun r => key r == key x) = none := hfresh
    simp [hnone]
  · cases t.rows.find? (fun r => key r == k) <;> simp [Ne.symm hk]

/-- A modification by key of a row that the lookup finds replaces that row in its place. -/
theorem rows_of_modify_lookup [DecidableRel clash] (hkey : ∀ a b, key a = key b → clash a b)
    {t t' : IndexedTable α clash} {k : κ} {r : α} {f : α → α} (hr : t.lookup key k = some r)
    (h : t.modify (fun x => key x == k) f = some t') :
    ∃ l₁ l₂, t.rows = l₁ ++ r :: l₂ ∧ t'.rows = l₁ ++ f r :: l₂ := by
  have hu : UniqueKey clash (fun x => key x == k) := fun a b ha hb =>
    hkey a b (by simp at ha hb; rw [ha, hb])
  obtain ⟨l₁, l₂, hs⟩ := split_of_find? hu hr
  exact ⟨l₁, l₂, hs.eq, by rw [rows_of_modify h, hs.mapSelected_eq f]⟩

/-- A removal by key of a row that the lookup finds drops that row from its place. -/
theorem rows_of_remove_lookup (hkey : ∀ a b, key a = key b → clash a b) {t : IndexedTable α clash}
    {k : κ} {r : α} (hr : t.lookup key k = some r) :
    ∃ l₁ l₂, t.rows = l₁ ++ r :: l₂ ∧ (t.remove (fun x => key x == k)).rows = l₁ ++ l₂ := by
  have hu : UniqueKey clash (fun x => key x == k) := fun a b ha hb =>
    hkey a b (by simp at ha hb; rw [ha, hb])
  obtain ⟨l₁, l₂, hs⟩ := split_of_find? hu hr
  exact ⟨l₁, l₂, hs.eq, remove_split hs⟩

end Keyed

/-! ## Sums over a table

A count or a charge over the rows is a sum of a weight (`sumBy`). A creation adds the new row's
weight, and a replacement or a removal in place moves the sum by the weights of the rows involved;
the statements are additive so that they serve counts in `Nat` as well as charges in `Int`. -/

section Sum

variable {β : Type} [AddCommMonoid β]

/-- The sum of a weight over the rows. -/
def sumBy (t : IndexedTable α clash) (w : α → β) : β := (t.rows.map w).sum

@[simp] theorem sumBy_empty (w : α → β) : (empty : IndexedTable α clash).sumBy w = 0 := rfl

/-- A creation adds the weight of the new row. -/
theorem sumBy_of_create [DecidableRel clash] {t t' : IndexedTable α clash} {x : α}
    (h : t.create x = some t') (w : α → β) : t'.sumBy w = t.sumBy w + w x := by
  simp [sumBy, rows_of_create h]

/-- A replacement in place moves the sum by the weights of the old and the new row. -/
theorem sumBy_of_replace {t t' : IndexedTable α clash} {l₁ l₂ : List α} {r r' : α}
    (h : t.rows = l₁ ++ r :: l₂) (h' : t'.rows = l₁ ++ r' :: l₂) (w : α → β) :
    t'.sumBy w + w r = t.sumBy w + w r' := by
  simp only [sumBy, h, h', List.map_append, List.map_cons, List.sum_append, List.sum_cons]
  ac_rfl

/-- A removal from its place takes away the weight of the row. -/
theorem sumBy_of_drop {t t' : IndexedTable α clash} {l₁ l₂ : List α} {r : α}
    (h : t.rows = l₁ ++ r :: l₂) (h' : t'.rows = l₁ ++ l₂) (w : α → β) :
    t'.sumBy w + w r = t.sumBy w := by
  simp only [sumBy, h, h', List.map_append, List.map_cons, List.sum_append, List.sum_cons]
  ac_rfl

end Sum

end IndexedTable
