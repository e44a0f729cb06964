import Mathlib.Data.List.Nodup

/-!
# Parents before children

A list of nodes, each naming its parent by a key, in which every node's parent is the root or a
node placed before it: the orders in which the nodes can be added one by one to a tree that takes
a node only once it holds the node's parent.

A list sorted by a relation under which no node may follow its parent is in such an order
(`parentsFirst_of_pairwise`); a list with unique keys sorted by one under which some parent may
not precede its child is not (`not_parentsFirst_of_pairwise`).
-/

namespace ParentOrder

variable {α κ : Type} (key prev : α → κ) (r : κ)

/-- Each node's `prev` is the root `r`, one of the keys `done`, or the key of a node before it. -/
def ParentsFirst : List κ → List α → Prop
  | _, [] => True
  | done, a :: l => (prev a = r ∨ prev a ∈ done) ∧ ParentsFirst (done ++ [key a]) l

variable {key prev r}

/-- The order, node by node: the parent of each node is the root, one of the keys `done`, or the
key of a node of the prefix before it. -/
theorem parentsFirst_iff : ∀ {done : List κ} {l : List α},
    ParentsFirst key prev r done l ↔
      ∀ l₁ a l₂, l = l₁ ++ a :: l₂ → prev a = r ∨ prev a ∈ done ++ l₁.map key
  | done, [] => by simp [ParentsFirst]
  | done, b :: l => by
    rw [ParentsFirst, parentsFirst_iff]
    constructor
    · rintro ⟨hb, hl⟩ l₁ a l₂ h
      cases l₁ with
      | nil =>
        obtain ⟨rfl, -⟩ := List.cons.inj h
        simpa using hb
      | cons c l₁ =>
        obtain ⟨rfl, rfl⟩ := List.cons.inj h
        simpa using hl l₁ a l₂ rfl
    · intro h
      refine ⟨by simpa using h [] b l rfl, fun l₁ a l₂ hl => ?_⟩
      simpa using h (b :: l₁) a l₂ (by rw [hl, List.cons_append])

/-- A list sorted by `R` in which each node's parent is the root, or a node of the list that is
another node and does not stand in `R` to it, has its parents first. -/
theorem parentsFirst_of_pairwise {R : α → α → Prop} {l : List α} (hl : l.Pairwise R)
    (hpar : ∀ b ∈ l, prev b = r ∨ ∃ a ∈ l, key a = prev b ∧ a ≠ b ∧ ¬ R b a) :
    ParentsFirst key prev r [] l := by
  refine parentsFirst_iff.2 fun l₁ b l₂ hsplit => ?_
  subst hsplit
  rcases hpar b (by simp) with hr | ⟨a, ha, hkey, hne, hR⟩
  · exact .inl hr
  rcases List.mem_append.1 ha with ha | ha
  · exact .inr (List.mem_append_right _ (hkey ▸ List.mem_map_of_mem ha))
  rcases List.mem_cons.1 ha with rfl | ha
  · exact absurd rfl hne
  · -- a parent after its child is related to it by the sort
    exact absurd ((List.pairwise_cons.1 (List.pairwise_append.1 hl).2.1).1 a ha) hR

/-- A list with unique keys, sorted by `R`, that holds a node `b` built on a node `a` other than
the root where `a` does not stand in `R` to `b`, does not have its parents first: `b` comes first. -/
theorem not_parentsFirst_of_pairwise {R : α → α → Prop} {l : List α} (hl : l.Pairwise R)
    (hkey : (l.map key).Nodup) {a b : α} (ha : a ∈ l) (hb : b ∈ l) (hab : key a = prev b)
    (hr : prev b ≠ r) (hR : ¬ R a b) : ¬ ParentsFirst key prev r [] l := by
  intro h
  obtain ⟨l₁, l₂, hsplit⟩ := List.append_of_mem hb
  rcases parentsFirst_iff.1 h l₁ b l₂ hsplit with h₁ | h₁
  · exact hr h₁
  obtain ⟨a', ha', hka'⟩ := List.mem_map.1 (by simpa using h₁)
  -- the keys are unique, so the node before `b` with the parent's key is the parent
  have ha'l : a' ∈ l := by
    rw [hsplit]
    exact List.mem_append_left _ ha'
  obtain rfl := List.inj_on_of_nodup_map hkey ha'l ha (hka'.trans hab.symm)
  rw [hsplit] at hl
  exact hR ((List.pairwise_append.1 hl).2.2 a' ha' b List.mem_cons_self)

end ParentOrder
