import Mathlib.Data.List.Pairwise

/-!
# Parent links

A tree given by parent links: `up x` is the parent of `x`, when it has one. The nodes are a set
`S` and a root `r`; `Linked` says that every node of `S` has a parent that is the root or in `S`,
one level lower (`num`, the level, is a block number or a depth). Following the links from a node
of `S` then ends at the root, and the root is not in `S`.

`IsPath x l a` says that `l` lists the nodes from `x` down to, but excluding, its ancestor `a`.
Along a path the level falls by one at each node (`IsPath.num_add_length`), so a path is in
descending order of level (`IsPath.pairwise_num_lt`) and an ancestor at the level of a node is the
node itself (`IsAncestor.eq_of_num`). The lowest common ancestor of two nodes (`IsLCA`) is the
common ancestor of which every common ancestor is an ancestor. It does not change when the higher
of two nodes is replaced by its parent (`IsLCA.of_parent_left`), or two different nodes at one
level by their parents (`IsLCA.of_parents`); two different nodes with one parent have it as their
lowest common ancestor (`isLCA_of_parent`). These are the steps of the walks that find it.
-/

namespace ParentLinks

variable {β : Type} (up : β → Option β) (S : β → Prop)

/-- `l` lists the nodes from `x` down to, but excluding, its ancestor `a`: each node of `l` is in
`S`, and the node after it is its parent. -/
inductive IsPath : β → List β → β → Prop
  | nil (x : β) : IsPath x [] x
  | cons {x p a : β} {l : List β} : S x → up x = some p → IsPath p l a → IsPath x (x :: l) a

/-- `a` is `x` or one of its ancestors. -/
def IsAncestor (a x : β) : Prop := ∃ l, IsPath up S x l a

/-- `c` is the lowest common ancestor of `x` and `y`: every common ancestor is one of `c`. -/
def IsLCA (c x y : β) : Prop :=
  IsAncestor up S c x ∧ IsAncestor up S c y ∧
    ∀ a, IsAncestor up S a x → IsAncestor up S a y → IsAncestor up S a c

/-- Every node of `S` has a parent one level lower, which is the root `r` or in `S`. -/
def Linked (num : β → Nat) (r : β) : Prop :=
  ∀ x, S x → ∃ p, up x = some p ∧ (p = r ∨ S p) ∧ num p + 1 = num x

variable {up S}

/-- Paths compose. -/
theorem IsPath.append {x a b : β} {l l' : List β} (h : IsPath up S x l a)
    (h' : IsPath up S a l' b) : IsPath up S x (l ++ l') b := by
  induction h with
  | nil => exact h'
  | cons hx hup _ ih => exact .cons hx hup (ih h')

/-- The nodes of a path are nodes of `S`. -/
theorem IsPath.mem {x a y : β} {l : List β} (h : IsPath up S x l a) (hy : y ∈ l) : S y := by
  induction h with
  | nil => simp at hy
  | cons hx _ _ ih =>
    rcases List.mem_cons.1 hy with rfl | hy
    · exact hx
    · exact ih hy

/-- A path is empty at its end, or starts with its first node and goes on from that node's
parent. -/
theorem IsPath.eq_nil_or_cons {x a : β} {l : List β} (h : IsPath up S x l a) :
    (l = [] ∧ x = a) ∨ (S x ∧ ∃ p l', up x = some p ∧ l = x :: l' ∧ IsPath up S p l' a) := by
  cases h with
  | nil => exact .inl ⟨rfl, rfl⟩
  | cons hx hp hl => exact .inr ⟨hx, _, _, hp, rfl, hl⟩

/-- The parent of a node of a path is the next node of the path, or its end. -/
theorem IsPath.parent_mem {x a y p : β} {l : List β} (h : IsPath up S x l a) (hy : y ∈ l)
    (hp : up y = some p) : p ∈ l ∨ p = a := by
  induction h with
  | nil => simp at hy
  | cons _ hq hl ih =>
    rcases List.mem_cons.1 hy with rfl | hy
    · rw [hq, Option.some.injEq] at hp
      subst hp
      cases hl with
      | nil => exact .inr rfl
      | cons => exact .inl (List.mem_cons_of_mem _ List.mem_cons_self)
    · exact (ih hy).imp_left (List.mem_cons_of_mem _)

/-- A path stays a path for other links and nodes that agree with these on its nodes. -/
theorem IsPath.congr {up' : β → Option β} {S' : β → Prop} {x a : β} {l : List β}
    (h : IsPath up S x l a) (hS : ∀ y ∈ l, S' y)
    (hup : ∀ y ∈ l, ∀ p, up y = some p → up' y = some p) : IsPath up' S' x l a := by
  induction h with
  | nil => exact .nil _
  | cons hx hq _ ih =>
    refine .cons (hS _ List.mem_cons_self) (hup _ List.mem_cons_self _ hq) (ih ?_ ?_)
    · exact fun y hy => hS y (List.mem_cons_of_mem _ hy)
    · exact fun y hy => hup y (List.mem_cons_of_mem _ hy)

/-- A path splits where its list does. -/
theorem IsPath.of_append {x a : β} {l₁ l₂ : List β} (h : IsPath up S x (l₁ ++ l₂) a) :
    ∃ m, IsPath up S x l₁ m ∧ IsPath up S m l₂ a := by
  induction l₁ generalizing x with
  | nil => exact ⟨x, .nil x, h⟩
  | cons y l₁ ih =>
    cases h with
    | cons hx hq hl =>
      obtain ⟨m, h₁, h₂⟩ := ih hl
      exact ⟨m, .cons hx hq h₁, h₂⟩

/-- A path whose last node is `y` is a path down to `y`, whose parent is the end. -/
theorem IsPath.of_append_singleton {x a y : β} {l : List β} (h : IsPath up S x (l ++ [y]) a) :
    IsPath up S x l y ∧ S y ∧ up y = some a := by
  obtain ⟨m, hl, hy⟩ := h.of_append
  rcases hy.eq_nil_or_cons with ⟨hnil, -⟩ | ⟨hS, q, l', hq, hcons, hl'⟩
  · simp at hnil
  obtain ⟨rfl, rfl⟩ := List.cons.inj hcons
  cases hl'
  exact ⟨hl, hS, hq⟩

/-- A path splits at each of its nodes. -/
theorem IsPath.split_of_mem {x a y : β} {l : List β} (h : IsPath up S x l a) (hy : y ∈ l) :
    ∃ l₁ l₂, l = l₁ ++ y :: l₂ ∧ IsPath up S x l₁ y ∧ IsPath up S y (y :: l₂) a := by
  obtain ⟨l₁, l₂, rfl⟩ := List.append_of_mem hy
  obtain ⟨m, hl₁, hm⟩ := h.of_append
  rcases hm.eq_nil_or_cons with ⟨hnil, -⟩ | ⟨-, p, l', -, hcons, -⟩
  · simp at hnil
  · obtain ⟨rfl, -⟩ := List.cons.inj hcons
    exact ⟨l₁, l₂, rfl, hl₁, hm⟩

/-- Two paths from one node with as many nodes are one path: the links fix each next node. -/
theorem IsPath.eq_of_length {x a a' : β} {l l' : List β} (h : IsPath up S x l a)
    (h' : IsPath up S x l' a') (hlen : l.length = l'.length) : l = l' := by
  induction h generalizing l' with
  | nil => exact (List.eq_nil_of_length_eq_zero hlen.symm).symm
  | cons _ hq _ ih =>
    cases h' with
    | nil => simp at hlen
    | cons _ hq' hl' =>
      rw [hq, Option.some.injEq] at hq'
      subst hq'
      rw [ih hl' (by simpa using hlen)]

/-- Every node is its own ancestor. -/
theorem IsAncestor.refl (x : β) : IsAncestor up S x x := ⟨[], .nil x⟩

/-- Ancestry is transitive. -/
theorem IsAncestor.trans {a b x : β} (hab : IsAncestor up S a b) (hbx : IsAncestor up S b x) :
    IsAncestor up S a x := by
  obtain ⟨l, hl⟩ := hbx
  obtain ⟨l', hl'⟩ := hab
  exact ⟨l ++ l', hl.append hl'⟩

/-- The end of a path is below each of its nodes. -/
theorem IsPath.isAncestor_end {x a y : β} {l : List β} (h : IsPath up S x l a) (hy : y ∈ l) :
    IsAncestor up S a y := by
  obtain ⟨_, _, -, -, hy'⟩ := h.split_of_mem hy
  exact ⟨_, hy'⟩

/-- Each node of a path is below its start. -/
theorem IsPath.isAncestor_start {x a y : β} {l : List β} (h : IsPath up S x l a) (hy : y ∈ l) :
    IsAncestor up S y x := by
  obtain ⟨_, _, -, hl₁, -⟩ := h.split_of_mem hy
  exact ⟨_, hl₁⟩

/-- A parent is an ancestor. -/
theorem IsAncestor.parent {x p : β} (hx : S x) (hup : up x = some p) : IsAncestor up S p x :=
  ⟨[x], .cons hx hup (.nil p)⟩

/-- An ancestor other than the node itself is an ancestor of its parent. -/
theorem IsAncestor.of_parent {a x p : β} (hup : up x = some p) (h : IsAncestor up S a x)
    (hne : a ≠ x) : IsAncestor up S a p := by
  obtain ⟨l, hl⟩ := h
  cases hl with
  | nil => exact absurd rfl hne
  | cons _ hup' hl =>
    -- the path goes through the one parent of `x`
    rw [hup, Option.some.injEq] at hup'
    subst hup'
    exact ⟨_, hl⟩

/-- A node is its own lowest common ancestor. -/
theorem isLCA_self (x : β) : IsLCA up S x x x :=
  ⟨.refl x, .refl x, fun _ ha _ => ha⟩

/-- The lowest common ancestor is symmetric. -/
theorem IsLCA.symm {c x y : β} (h : IsLCA up S c x y) : IsLCA up S c y x :=
  ⟨h.2.1, h.1, fun a hay hax => h.2.2 a hax hay⟩

section Linked

variable {num : β → Nat} {r : β} (hL : Linked up S num r)
include hL

/-- Every step of a path stays in the tree and goes one level down. -/
theorem IsPath.num_add_length {x a : β} {l : List β} (h : IsPath up S x l a)
    (hx : x = r ∨ S x) : (a = r ∨ S a) ∧ num a + l.length = num x := by
  induction h with
  | nil => exact ⟨hx, rfl⟩
  | cons hx' hup _ ih =>
    obtain ⟨p', hup', hp', hnum⟩ := hL _ hx'
    rw [hup, Option.some.injEq] at hup'
    subst hup'
    obtain ⟨ha, hlen⟩ := ih hp'
    exact ⟨ha, by rw [List.length_cons]; omega⟩

/-- Numbers grow from an ancestor. -/
theorem IsAncestor.num_le {a x : β} (h : IsAncestor up S a x) (hx : x = r ∨ S x) :
    num a ≤ num x := by
  obtain ⟨l, hl⟩ := h
  have := (hl.num_add_length hL hx).2
  omega

/-- An ancestor of a node of the tree is in the tree. -/
theorem IsAncestor.mem_tree {a x : β} (h : IsAncestor up S a x) (hx : x = r ∨ S x) :
    a = r ∨ S a :=
  (h.choose_spec.num_add_length hL hx).1

/-- Every node of a path lies above its end. -/
theorem IsPath.lt_of_mem {x a y : β} {l : List β} (h : IsPath up S x l a) (hy : y ∈ l) :
    num a < num y := by
  obtain ⟨l₁, l₂, -, -, hy'⟩ := h.split_of_mem hy
  have := (hy'.num_add_length hL (.inr (h.mem hy))).2
  simp only [List.length_cons] at this
  omega

/-- There is one path between two nodes: the levels give every path between them one length. -/
theorem IsPath.unique {x a : β} {l l' : List β} (h : IsPath up S x l a)
    (h' : IsPath up S x l' a) (hx : x = r ∨ S x) : l = l' := by
  have hlen := (h.num_add_length hL hx).2
  have hlen' := (h'.num_add_length hL hx).2
  exact h.eq_of_length h' (by omega)

/-- A path to an ancestor at the level of the node is empty. -/
theorem IsPath.eq_nil_of_num {x a : β} {l : List β} (h : IsPath up S x l a) (hx : x = r ∨ S x)
    (hnum : num a = num x) : l = [] :=
  List.eq_nil_of_length_eq_zero (by have := (h.num_add_length hL hx).2; omega)

/-- An ancestor at the level of the node is the node itself. -/
theorem IsAncestor.eq_of_num {a x : β} (h : IsAncestor up S a x) (hx : x = r ∨ S x)
    (hnum : num a = num x) : a = x := by
  obtain ⟨l, hl⟩ := h
  have hnil := hl.eq_nil_of_num hL hx hnum
  subst hnil
  cases hl
  rfl

/-- The nodes of `S` lie above the root. -/
theorem num_root_lt {x : β} (hx : S x) : num r < num x := by
  -- by induction on the level: the parent is the root or lies above it
  induction hn : num x using Nat.strongRecOn generalizing x with
  | ind n ih =>
    obtain ⟨p, -, hp, hnum⟩ := hL x hx
    rcases hp with rfl | hp
    · omega
    · have := ih (num p) (by omega) hp rfl
      omega

/-- Every node of `S` has a path down to the root. -/
theorem exists_isPath_root {x : β} (hx : S x) : ∃ l, IsPath up S x l r := by
  -- by induction on the level: the parent is the root or a lower node of `S`
  induction hn : num x using Nat.strongRecOn generalizing x with
  | ind n ih =>
    obtain ⟨p, hup, hp, hnum⟩ := hL x hx
    rcases hp with rfl | hp
    · exact ⟨[x], .cons hx hup (.nil _)⟩
    · obtain ⟨l, hl⟩ := ih (num p) (by omega) hp rfl
      exact ⟨x :: l, .cons hx hup hl⟩

/-- No node of the set is the root. -/
theorem not_root {x : β} (hx : S x) : x ≠ r := by
  rintro rfl
  exact absurd (num_root_lt hL hx) (Nat.lt_irrefl _)

/-- Every node of a path lies at most at the level of its first node. -/
theorem IsPath.num_le_of_mem {x a b : β} {l : List β} (h : IsPath up S x l a)
    (hx : x = r ∨ S x) (hb : b ∈ l) : num b ≤ num x := by
  induction h with
  | nil => simp at hb
  | cons hx' hup hl ih =>
    rcases List.mem_cons.1 hb with rfl | hb
    · exact Nat.le_refl _
    · obtain ⟨p', hup', hp', hnum⟩ := hL _ hx'
      rw [hup, Option.some.injEq] at hup'
      subst hup'
      have := ih hp' hb
      omega

/-- A path lists its nodes in descending order of level. -/
theorem IsPath.pairwise_num_lt {x a : β} {l : List β} (h : IsPath up S x l a)
    (hx : x = r ∨ S x) : l.Pairwise fun b b' => num b' < num b := by
  induction h with
  | nil => exact List.Pairwise.nil
  | cons hx' hup hl ih =>
    obtain ⟨p', hup', hp', hnum⟩ := hL _ hx'
    rw [hup, Option.some.injEq] at hup'
    subst hup'
    refine List.Pairwise.cons (fun b hb => ?_) (ih hp')
    have := hl.num_le_of_mem hL hp' hb
    omega

/-- Replacing the higher of two nodes by its parent keeps their lowest common ancestor: no common
ancestor lies at the level of the higher node. -/
theorem IsLCA.of_parent_left {c x y p : β} (hx : S x) (hup : up x = some p)
    (hy : y = r ∨ S y) (hlt : num y < num x) (h : IsLCA up S c p y) : IsLCA up S c x y := by
  obtain ⟨hcp, hcy, hleast⟩ := h
  refine ⟨hcp.trans (.parent hx hup), hcy, fun a hax hay => hleast a (hax.of_parent hup ?_) hay⟩
  rintro rfl
  exact absurd (hay.num_le hL hy) (Nat.not_le.2 hlt)

/-- Replacing two different nodes at one level by their parents keeps their lowest common
ancestor: neither node is an ancestor of the other. -/
theorem IsLCA.of_parents {c x y p q : β} (hx : S x) (hy : S y) (hupx : up x = some p)
    (hupy : up y = some q) (hne : x ≠ y) (hnum : num x = num y) (h : IsLCA up S c p q) :
    IsLCA up S c x y := by
  obtain ⟨hcp, hcq, hleast⟩ := h
  refine ⟨hcp.trans (.parent hx hupx), hcq.trans (.parent hy hupy), fun a hax hay =>
    hleast a (hax.of_parent hupx ?_) (hay.of_parent hupy ?_)⟩
  · rintro rfl
    exact hne (hay.eq_of_num hL (.inr hy) hnum)
  · rintro rfl
    exact hne (hax.eq_of_num hL (.inr hx) hnum.symm).symm

/-- Two different nodes at one level with one parent have it as their lowest common ancestor. -/
theorem isLCA_of_parent {x y p : β} (hx : S x) (hy : S y) (hupx : up x = some p)
    (hupy : up y = some p) (hne : x ≠ y) (hnum : num x = num y) : IsLCA up S p x y :=
  IsLCA.of_parents hL hx hy hupx hupy hne hnum (isLCA_self p)

/-- Replacing a node by an ancestor keeps the lowest common ancestor while every node passed lies
above the other node. -/
theorem IsLCA.of_isPath_left {c x x' y : β} {l : List β} (h : IsPath up S x l x')
    (hy : y = r ∨ S y) (hlt : ∀ b ∈ l, num y < num b) (hc : IsLCA up S c x' y) :
    IsLCA up S c x y := by
  induction h with
  | nil => exact hc
  | cons hx hup _ ih =>
    have hnext := ih (fun b hb => hlt b (List.mem_cons_of_mem _ hb)) hc
    exact hnext.of_parent_left hL hx hup hy (hlt _ List.mem_cons_self)

/-- A node that is an ancestor of the other is their lowest common ancestor. -/
theorem IsLCA.eq_left {c x y : β} (h : IsLCA up S c x y) (hxy : IsAncestor up S x y)
    (hx : x = r ∨ S x) : c = x := by
  obtain ⟨hcx, -, hleast⟩ := h
  have hxc := hleast x (.refl x) hxy
  -- each of `c` and `x` is an ancestor of the other, so they lie at one level
  have hc := hcx.mem_tree hL hx
  have h1 := hcx.num_le hL hx
  have h2 := hxc.num_le hL hc
  exact hcx.eq_of_num hL hx (Nat.le_antisymm h1 h2)

/-- The path from a node that is an ancestor of the other down to their lowest common ancestor
is empty. -/
theorem IsLCA.eq_nil_left {c x y : β} {l : List β} (h : IsLCA up S c x y)
    (hxy : IsAncestor up S x y) (hx : x = r ∨ S x) (hl : IsPath up S x l c) : l = [] := by
  have hc := h.eq_left hL hxy hx
  subst hc
  exact hl.eq_nil_of_num hL hx rfl

end Linked

end ParentLinks
