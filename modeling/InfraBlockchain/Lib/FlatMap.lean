import Mathlib.Data.List.Basic

/-!
# Maps kept as lists of pairs

A `flat_map` is a vector of key-value pairs with distinct keys. Here it is a list of pairs:
`List.lookup` finds the value of a key, and `assign`, the assignment through `operator[]`, replaces
the value of a key in place or adds the pair when the key is new. The sorted order of a `flat_map`
is not kept: the key set, the values and the lookups do not depend on it.

Assignment keeps the keys distinct, adds its key to the key set, and keeps a bound on all values
that the new value meets; assigning a key that is present changes its entry only, so the values
read in order are the old ones with that entry replaced (`map_snd_assign`). A map built by
assigning every key of a list in turn has exactly those keys. `erase`, the erasure of a key, and
`assign` change the lookup of their key only (`lookup_assign`, `lookup_erase`).
-/

namespace FlatMap

variable {κ ν : Type} [DecidableEq κ]

/-- `m[k] = v`. -/
def assign : List (κ × ν) → κ → ν → List (κ × ν)
  | [], k, v => [(k, v)]
  | e :: m, k, v => if e.1 = k then (k, v) :: m else e :: assign m k v

/-- The keys of an assignment are the old ones and the assigned one. -/
theorem mem_keys_assign (m : List (κ × ν)) (k k' : κ) (v : ν) :
    k' ∈ (assign m k v).map Prod.fst ↔ k' = k ∨ k' ∈ m.map Prod.fst := by
  induction m with
  | nil => simp [assign]
  | cons e m ih =>
    unfold assign
    split
    · next he =>
      simp only [List.map_cons, List.mem_cons]
      constructor
      · rintro (h | h)
        · exact .inl h
        · exact .inr (.inr h)
      · rintro (h | h | h)
        · exact .inl h
        · exact .inl (h.trans he)
        · exact .inr h
    · simp only [List.map_cons, List.mem_cons, ih]
      tauto

/-- An assignment keeps the keys distinct. -/
theorem nodup_keys_assign {m : List (κ × ν)} (h : (m.map Prod.fst).Nodup) (k : κ) (v : ν) :
    ((assign m k v).map Prod.fst).Nodup := by
  induction m with
  | nil => simp [assign]
  | cons e m ih =>
    rw [List.map_cons, List.nodup_cons] at h
    unfold assign
    split
    · next he =>
      rw [List.map_cons, List.nodup_cons]
      exact ⟨he ▸ h.1, h.2⟩
    · next he =>
      rw [List.map_cons, List.nodup_cons, mem_keys_assign]
      exact ⟨fun hk => hk.elim (fun h' => he h') h.1, ih h.2⟩

/-- A bound on every value that the assigned value meets holds after the assignment. -/
theorem forall_assign {P : ν → Prop} {m : List (κ × ν)} (hm : ∀ e ∈ m, P e.2) (k : κ) {v : ν}
    (hv : P v) : ∀ e ∈ assign m k v, P e.2 := by
  induction m with
  | nil => simpa [assign] using hv
  | cons e m ih =>
    unfold assign
    split
    · intro e' he'
      rcases List.mem_cons.1 he' with rfl | he'
      · exact hv
      · exact hm e' (List.mem_cons_of_mem _ he')
    · intro e' he'
      rcases List.mem_cons.1 he' with rfl | he'
      · exact hm e' List.mem_cons_self
      · exact ih (fun e'' h => hm e'' (List.mem_cons_of_mem _ h)) e' he'

/-- Assigning a key that is present replaces its value where it stands. -/
theorem map_snd_assign {m : List (κ × ν)} (h : (m.map Prod.fst).Nodup) {k : κ}
    (hk : k ∈ m.map Prod.fst) (v : ν) :
    (assign m k v).map Prod.snd = m.map fun e => if e.1 = k then v else e.2 := by
  induction m with
  | nil => simp at hk
  | cons e m ih =>
    rw [List.map_cons, List.nodup_cons] at h
    unfold assign
    split
    · next he =>
      -- the key is at the head, and nowhere after it
      have hrest : (m.map fun e => if e.1 = k then v else e.2) = m.map Prod.snd := by
        apply List.map_congr_left
        intro e' he'
        have hne : e'.1 ≠ k := fun h' => h.1 (he ▸ h' ▸ List.mem_map_of_mem he')
        rw [if_neg hne]
      simp [he, hrest]
    · next he =>
      have hk' : k ∈ m.map Prod.fst := by
        rcases List.mem_cons.1 (List.map_cons (f := Prod.fst) ▸ hk) with h' | h'
        · exact absurd h'.symm he
        · exact h'
      simp [he, ih h.2 hk']

/-- A value found by `lookup` is the value of a pair of the map. -/
theorem mem_of_lookup_eq_some {m : List (κ × ν)} {k : κ} {v : ν} (h : m.lookup k = some v) :
    (k, v) ∈ m := by
  obtain ⟨l₁, l₂, rfl, -⟩ := List.lookup_eq_some_iff.1 h
  simp

/-- The keys of a map built by assigning each entry of a list are those of the list. -/
theorem mem_keys_foldl_assign (f : κ → ν) (l : List κ) (m : List (κ × ν)) (k : κ) :
    k ∈ (l.foldl (fun m x => assign m x (f x)) m).map Prod.fst ↔
      k ∈ l ∨ k ∈ m.map Prod.fst := by
  induction l generalizing m with
  | nil => simp
  | cons x l ih =>
    rw [List.foldl_cons, ih, mem_keys_assign, List.mem_cons]
    tauto

/-- A bound that every assigned value meets holds for a map built from nothing. -/
theorem forall_foldl_assign {P : ν → Prop} (f : κ → ν) (l : List κ) (hf : ∀ x ∈ l, P (f x))
    {m : List (κ × ν)} (hm : ∀ e ∈ m, P e.2) :
    ∀ e ∈ l.foldl (fun m x => assign m x (f x)) m, P e.2 := by
  induction l generalizing m with
  | nil => exact hm
  | cons x l ih =>
    rw [List.foldl_cons]
    exact ih (fun y hy => hf y (List.mem_cons_of_mem _ hy))
      (forall_assign hm x (hf x List.mem_cons_self))

/-- Assigning each entry of a list in turn keeps the keys distinct. -/
theorem nodup_keys_foldl_assign (f : κ → ν) (l : List κ) {m : List (κ × ν)}
    (hm : (m.map Prod.fst).Nodup) : ((l.foldl (fun m x => assign m x (f x)) m).map Prod.fst).Nodup := by
  induction l generalizing m with
  | nil => exact hm
  | cons x l ih =>
    rw [List.foldl_cons]
    exact ih (nodup_keys_assign hm x (f x))

/-- `m.erase(k)`: the map without the key. -/
def erase (m : List (κ × ν)) (k : κ) : List (κ × ν) := m.filter fun e => e.1 ≠ k

/-- A lookup passes an entry of another key. -/
theorem lookup_cons_of_ne {k k' : κ} (v : ν) (m : List (κ × ν)) (h : k' ≠ k) :
    ((k, v) :: m).lookup k' = m.lookup k' := by
  simp [List.lookup_cons, beq_eq_false_iff_ne.2 h]

/-- The value of a key after an assignment. -/
theorem lookup_assign (m : List (κ × ν)) (k k' : κ) (v : ν) :
    (assign m k v).lookup k' = if k' = k then some v else m.lookup k' := by
  induction m with
  | nil =>
    by_cases h : k' = k
    · simp [assign, h]
    · simp [assign, lookup_cons_of_ne _ _ h, h]
  | cons e m ih =>
    obtain ⟨k₀, v₀⟩ := e
    unfold assign
    split
    · next he =>
      dsimp only at he
      subst he
      by_cases h : k' = k₀
      · simp [h]
      · simp [lookup_cons_of_ne _ _ h, h]
    · next he =>
      dsimp only at he
      by_cases h : k' = k₀
      · subst h
        simp [he]
      · rw [lookup_cons_of_ne _ _ h, lookup_cons_of_ne _ _ h, ih]

/-- The value of a key after an erasure. -/
theorem lookup_erase (m : List (κ × ν)) (k k' : κ) :
    (erase m k).lookup k' = if k' = k then none else m.lookup k' := by
  induction m with
  | nil => simp [erase]
  | cons e m ih =>
    obtain ⟨k₀, v₀⟩ := e
    by_cases h₀ : k₀ = k
    · subst h₀
      have hdrop : erase ((k₀, v₀) :: m) k₀ = erase m k₀ := by simp [erase]
      rw [hdrop, ih]
      by_cases h : k' = k₀
      · simp [h]
      · simp [lookup_cons_of_ne _ _ h, h]
    · have hkeep : erase ((k₀, v₀) :: m) k = (k₀, v₀) :: erase m k := by simp [erase, h₀]
      rw [hkeep]
      by_cases h : k' = k₀
      · subst h
        simp [h₀]
      · rw [lookup_cons_of_ne _ _ h, lookup_cons_of_ne _ _ h, ih]

end FlatMap
