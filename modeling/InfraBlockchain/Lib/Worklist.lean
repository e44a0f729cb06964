import Mathlib.Logic.Relation
import Mathlib.Data.List.Nodup
import Mathlib.Data.List.Perm.Subperm

/-!
# Draining a worklist

A first-in first-out worklist over a graph given by `children`: the first node of the queue is
checked, moved to the nodes done, and its children are queued behind the others; the first node
that fails the check stops the drain with an error. Nothing is marked as visited, so a node is
queued once for each way of reaching it.

When the drain returns, it returns the nodes done and every node reachable from the queue
(`drain_ok_mem`), all of which passed the check (`drain_ok_pass`); it raises only when some
reachable node fails (`drain_error`). The loop has a fuel, and `none` is a drain that has not
ended within it. On a forest whose levels grow from parent to child, every node is queued at
most once, so one round more than the number of nodes below the start drains the queue
(`drain_isSome`).
-/

namespace Worklist

variable {β ε : Type} (children : β → List β)

/-- `y` is `x` or is reached from `x` through children. -/
def Reaches (x y : β) : Prop := Relation.ReflTransGen (fun a b => b ∈ children a) x y

/-- The drain of the queue `pending` after the nodes `done`: the first node is checked by `pass`,
moved to `done` and replaced by its children at the end of the queue, and a node that fails
raises `e`. -/
def drain (pass : β → Bool) (e : ε) : Nat → List β → List β → Option (Except ε (List β))
  | _, done, [] => some (.ok done)
  | 0, _, _ :: _ => none
  | fuel + 1, done, x :: pending =>
    if pass x then drain pass e fuel (done ++ [x]) (pending ++ children x) else some (.error e)

variable {children}

/-- Every node reaches itself. -/
theorem Reaches.refl (x : β) : Reaches children x x := Relation.ReflTransGen.refl

/-- A node reaches its children. -/
theorem Reaches.child {x y : β} (h : y ∈ children x) : Reaches children x y :=
  Relation.ReflTransGen.single h

/-- Reach is transitive. -/
theorem Reaches.trans {x y z : β} (hxy : Reaches children x y) (hyz : Reaches children y z) :
    Reaches children x z :=
  Relation.ReflTransGen.trans hxy hyz

/-- A node is reached from the queue `x :: pending` when it is `x`, or is reached from the queue
after `x` is replaced by its children: one round of the drain. -/
theorem reaches_cons_iff {x y : β} {pending : List β} :
    (∃ x' ∈ x :: pending, Reaches children x' y) ↔
      y = x ∨ ∃ x' ∈ pending ++ children x, Reaches children x' y := by
  constructor
  · rintro ⟨x', hx', hy⟩
    rcases List.mem_cons.1 hx' with rfl | hx'
    · rcases Relation.ReflTransGen.cases_head hy with rfl | ⟨c, hc, hcy⟩
      · exact .inl rfl
      · exact .inr ⟨c, List.mem_append_right _ hc, hcy⟩
    · exact .inr ⟨x', List.mem_append_left _ hx', hy⟩
  · rintro (rfl | ⟨x', hx', hy⟩)
    · exact ⟨y, List.mem_cons_self, .refl y⟩
    · rcases List.mem_append.1 hx' with hx' | hx'
      · exact ⟨x', List.mem_cons_of_mem _ hx', hy⟩
      · exact ⟨x, List.mem_cons_self, Relation.ReflTransGen.head hx' hy⟩

variable {pass : β → Bool} {e : ε}

/-- What a drain returns: the nodes done and the nodes reached from the queue. -/
theorem drain_ok_mem : ∀ {fuel : Nat} {done pending q : List β},
    drain children pass e fuel done pending = some (.ok q) →
      ∀ y, y ∈ q ↔ y ∈ done ∨ ∃ x ∈ pending, Reaches children x y
  | _, done, [], q, h => by
    simp only [drain, Option.some.injEq, Except.ok.injEq] at h
    subst h
    simp
  | 0, _, _ :: _, _, h => by simp [drain] at h
  | fuel + 1, done, x :: pending, q, h => by
    simp only [drain] at h
    split at h
    · intro y
      rw [drain_ok_mem h y, reaches_cons_iff, List.mem_append, List.mem_singleton, or_assoc]
    · cases h

/-- Every node reached from the queue of a drain that returns passed the check. -/
theorem drain_ok_pass : ∀ {fuel : Nat} {done pending q : List β},
    drain children pass e fuel done pending = some (.ok q) →
      ∀ x ∈ pending, ∀ y, Reaches children x y → pass y = true
  | _, _, [], _, _ => by simp
  | 0, _, _ :: _, _, h => by simp [drain] at h
  | fuel + 1, done, x :: pending, q, h => by
    simp only [drain] at h
    split at h
    · next hx =>
      intro x' hx' y hy
      rcases reaches_cons_iff.1 ⟨x', hx', hy⟩ with rfl | ⟨x'', hx'', hy'⟩
      · exact hx
      · exact drain_ok_pass h x'' hx'' y hy'
    · cases h

/-- A drain raises only its error, and only when some node reached from the queue fails. -/
theorem drain_error : ∀ {fuel : Nat} {done pending : List β} {e' : ε},
    drain children pass e fuel done pending = some (.error e') →
      e' = e ∧ ∃ x ∈ pending, ∃ y, Reaches children x y ∧ pass y = false
  | _, _, [], _, h => by simp [drain] at h
  | 0, _, _ :: _, _, h => by simp [drain] at h
  | fuel + 1, done, x :: pending, e', h => by
    simp only [drain] at h
    split at h
    · obtain ⟨he, x', hx', y, hy, hfail⟩ := drain_error h
      obtain ⟨x'', hx'', hy''⟩ := reaches_cons_iff.2 (.inr ⟨x', hx', hy⟩)
      exact ⟨he, x'', hx'', y, hy'', hfail⟩
    · next hx =>
      simp only [Option.some.injEq, Except.error.injEq] at h
      exact ⟨h.symm, x, List.mem_cons_self, x, .refl x, by simpa using hx⟩

/-! ## Termination on a forest -/

section Forest

variable (lvl : β → Nat) (hlvl : ∀ x y, y ∈ children x → lvl x < lvl y)
include hlvl

/-- Levels grow along reach. -/
theorem Reaches.lvl_le {x y : β} (h : Reaches children x y) : lvl x ≤ lvl y := by
  induction h with
  | refl => exact Nat.le_refl _
  | tail _ hyz ih => exact Nat.le_of_lt (Nat.lt_of_le_of_lt ih (hlvl _ _ hyz))

omit hlvl in
/-- The queue of a drain from `x₀`, with the nodes done: no node twice, each node the start or
a child of a node done, and each reached from the start. -/
structure Queued (children : β → List β) (x₀ : β) (done pending : List β) : Prop where
  /-- No node is queued or done twice. -/
  nodup : (done ++ pending).Nodup
  /-- Each is the start or a child of one done. -/
  origin : ∀ y ∈ done ++ pending, y = x₀ ∨ ∃ x ∈ done, y ∈ children x
  /-- Each is reached from the start. -/
  reach : ∀ y ∈ done ++ pending, Reaches children x₀ y

omit hlvl in
/-- The start alone is queued. -/
theorem Queued.start (x₀ : β) : Queued children x₀ [] [x₀] where
  nodup := List.nodup_singleton x₀
  origin y hy := .inl (by simpa using hy)
  reach y hy := by
    rw [List.nil_append, List.mem_singleton] at hy
    subst hy
    exact .refl y

/-- One round keeps the queue free of repeats: the children of the node taken are new, since
their one parent is that node, which is not done, and the start is no node's child below it. -/
theorem Queued.step (hparent : ∀ x x' y, y ∈ children x → y ∈ children x' → x = x')
    (hnodup : ∀ x, (children x).Nodup) {x₀ x : β} {done pending : List β}
    (h : Queued children x₀ done (x :: pending)) :
    Queued children x₀ (done ++ [x]) (pending ++ children x) := by
  have hx : x ∈ done ++ x :: pending := List.mem_append_right _ List.mem_cons_self
  have hrw : done ++ [x] ++ (pending ++ children x) = (done ++ x :: pending) ++ children x := by
    simp
  have hxdone : x ∉ done := by
    have := h.nodup
    rw [List.nodup_append] at this
    exact fun hd => this.2.2 x hd x List.mem_cons_self rfl
  refine ⟨?_, ?_, ?_⟩
  · rw [hrw]
    refine List.Nodup.append h.nodup (hnodup x) (List.disjoint_left.2 fun y hy hyc => ?_)
    rcases h.origin y hy with rfl | ⟨x', hx', hyx'⟩
    · -- the start as a child of a node reached from it would lie above itself
      have := (h.reach x hx).lvl_le lvl hlvl
      have := hlvl _ _ hyc
      omega
    · exact hxdone (hparent x x' y hyc hyx' ▸ hx')
  · rw [hrw]
    intro y hy
    rcases List.mem_append.1 hy with hy | hy
    · rcases h.origin y hy with rfl | ⟨x', hx', hyx'⟩
      · exact .inl rfl
      · exact .inr ⟨x', List.mem_append_left _ hx', hyx'⟩
    · exact .inr ⟨x, by simp, hy⟩
  · rw [hrw]
    intro y hy
    rcases List.mem_append.1 hy with hy | hy
    · exact h.reach y hy
    · exact Relation.ReflTransGen.tail (h.reach x hx) hy

/-- With fuel for every node below the start, draining finishes. -/
theorem drain_isSome_of (U : List β) (hmem : ∀ x y, y ∈ children x → y ∈ U)
    (hparent : ∀ x x' y, y ∈ children x → y ∈ children x' → x = x')
    (hnodup : ∀ x, (children x).Nodup) (x₀ : β) :
    ∀ (fuel : Nat) (done pending : List β), Queued children x₀ done pending →
      U.length + 1 ≤ fuel + done.length → (drain children pass e fuel done pending).isSome
  | _, _, [], _, _ => by simp [drain]
  | 0, done, x :: pending, h, hfuel => by
    -- the queue has more nodes than the start and the nodes below it
    have hsub : done ++ x :: pending ⊆ x₀ :: U := fun y hy => by
      rcases h.origin y hy with rfl | ⟨x', -, hyx'⟩
      · exact List.mem_cons_self
      · exact List.mem_cons_of_mem _ (hmem x' y hyx')
    have hlen := (List.Nodup.subperm h.nodup hsub).length_le
    simp only [List.length_append, List.length_cons] at hlen
    omega
  | fuel + 1, done, x :: pending, h, hfuel => by
    simp only [drain]
    split
    · refine drain_isSome_of U hmem hparent hnodup x₀ fuel _ _
        (h.step lvl hlvl hparent hnodup) ?_
      simp only [List.length_append, List.length_singleton]
      omega
    · rfl

/-- On a forest whose nodes below the start lie in `U`, one round more than `U` has nodes
drains the queue. -/
theorem drain_isSome (U : List β) (hmem : ∀ x y, y ∈ children x → y ∈ U)
    (hparent : ∀ x x' y, y ∈ children x → y ∈ children x' → x = x')
    (hnodup : ∀ x, (children x).Nodup) (x₀ : β) {fuel : Nat} (hfuel : U.length + 1 ≤ fuel) :
    (drain children pass e fuel [] [x₀]).isSome :=
  drain_isSome_of lvl hlvl U hmem hparent hnodup x₀ fuel [] [x₀] (Queued.start x₀) (by simpa)

end Forest

end Worklist
