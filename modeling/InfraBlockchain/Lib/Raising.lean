import Mathlib.Logic.Basic

/-!
# Programs that raise and keep their state

A program over states `σ` returns a value or raises an `ε`, in the state it has reached either way,
as C++ code does whose exceptions leave in place what was changed before the throw; or it runs a
loop that does not end (`none`). This is `ExceptT ε (StateT σ Option)`, and `exec x s` is what
running `x` from `s` gives.

`Triple P x Q R` is total correctness for such a program: from every state satisfying `P`, `x`
ends, returning `a` in a state satisfying `Q a` or raising in a state satisfying `R`. The rules
build a program's triple along its structure: `Triple.bind` for sequencing, `Triple.tryCatch` for
a handler, which starts from the state the failure left, and `Triple.forM` for a loop over a list,
with an invariant indexed by the part of the list still to run.
-/

namespace Raising

/-- A program over states `σ` that returns an `α` or raises an `ε`, keeping its state either way;
`none` is a loop that does not end. -/
abbrev Prog (ε σ α : Type) := ExceptT ε (StateT σ Option) α

variable {ε σ α β : Type}

/-- A loop that does not end. -/
def diverge : Prog ε σ α := ExceptT.lift (StateT.lift none)

/-- The outcome of running `x` from `s`. -/
def exec (x : Prog ε σ α) (s : σ) : Option (Except ε α × σ) := x.run.run s

@[simp] theorem exec_pure (a : α) (s : σ) : exec (pure a : Prog ε σ α) s = some (.ok a, s) := rfl

/-- Running a bind runs the first and, on a value, the second from the state it left. -/
theorem exec_bind (x : Prog ε σ α) (f : α → Prog ε σ β) (s : σ) :
    exec (x >>= f) s = match exec x s with
      | some (.ok a, s') => exec (f a) s'
      | some (.error e, s') => some (.error e, s')
      | none => none := by
  simp only [exec, ExceptT.run_bind, StateT.run_bind]
  cases x.run.run s with
  | none => rfl
  | some r =>
    obtain ⟨_ | _, _⟩ := r <;> rfl

@[simp] theorem exec_throw (e : ε) (s : σ) :
    exec (throw e : Prog ε σ α) s = some (.error e, s) := rfl

@[simp] theorem exec_get (s : σ) : exec (get : Prog ε σ σ) s = some (.ok s, s) := rfl

@[simp] theorem exec_set (s s' : σ) : exec (set s' : Prog ε σ PUnit) s = some (.ok ⟨⟩, s') := rfl

@[simp] theorem exec_modify (f : σ → σ) (s : σ) :
    exec (modify f : Prog ε σ PUnit) s = some (.ok ⟨⟩, f s) := rfl

@[simp] theorem exec_diverge (s : σ) : exec (diverge : Prog ε σ α) s = none := rfl

@[simp] theorem exec_liftExcept (x : Except ε α) (s : σ) :
    exec (monadLift x : Prog ε σ α) s = some (x, s) := rfl

/-- Running a catch runs the handler on an exception, from the state the exception left. -/
theorem exec_tryCatch (x : Prog ε σ α) (h : ε → Prog ε σ α) (s : σ) :
    exec (tryCatch x h) s = match exec x s with
      | some (.error e, s') => exec (h e) s'
      | r => r := by
  change (ExceptT.tryCatch x h).run.run s = _
  simp only [ExceptT.tryCatch, ExceptT.run_mk, StateT.run_bind]
  change (x.run.run s).bind _ = _
  unfold exec
  cases x.run.run s with
  | none => rfl
  | some r =>
    obtain ⟨_ | _, _⟩ := r <;> rfl

/-- A loop of updates returns the state that folding the updates over the list gives. -/
theorem exec_forM_modify (l : List β) (f : β → σ → σ) (s : σ) :
    exec (l.forM fun b => (modify (f b) : Prog ε σ PUnit)) s =
      some (.ok ⟨⟩, l.foldl (fun s b => f b s) s) := by
  induction l generalizing s with
  | nil => rfl
  | cons b rest ih =>
    show exec (modify (f b) >>= fun _ => rest.forM fun b => modify (f b)) s = _
    rw [exec_bind, exec_modify]
    exact ih (f b s)

/-! ## Triples -/

/-- What an outcome must satisfy: a return in a state satisfying `Q` of the value, a raise in a
state satisfying `R`, and an end. -/
def Post (Q : α → σ → Prop) (R : σ → Prop) : Option (Except ε α × σ) → Prop
  | some (.ok a, s) => Q a s
  | some (.error _, s) => R s
  | none => False

@[simp] theorem post_ok {Q : α → σ → Prop} {R : σ → Prop} {a : α} {s : σ} :
    Post (ε := ε) Q R (some (.ok a, s)) ↔ Q a s := Iff.rfl

@[simp] theorem post_error {Q : α → σ → Prop} {R : σ → Prop} {e : ε} {s : σ} :
    Post Q R (some (.error e, s)) ↔ R s := Iff.rfl

@[simp] theorem post_none {Q : α → σ → Prop} {R : σ → Prop} : ¬ Post (ε := ε) Q R none := id

/-- From every state satisfying `P`, `x` ends, returning `a` in a state satisfying `Q a` or
raising in a state satisfying `R`. -/
def Triple (P : σ → Prop) (x : Prog ε σ α) (Q : α → σ → Prop) (R : σ → Prop) : Prop :=
  ∀ s, P s → Post Q R (exec x s)

variable {P P' : σ → Prop} {Q Q' : α → σ → Prop} {R R' : σ → Prop}

/-- Consequence: a stronger precondition, weaker postconditions. -/
theorem Triple.mono {x : Prog ε σ α} (h : Triple P x Q R) (hP : ∀ s, P' s → P s)
    (hQ : ∀ a s, Q a s → Q' a s) (hR : ∀ s, R s → R' s) : Triple P' x Q' R' := by
  intro s hs
  have := h s (hP s hs)
  cases hx : exec x s with
  | none => rw [hx] at this; exact this
  | some r =>
    obtain ⟨_ | a, s'⟩ := r <;> rw [hx] at this
    · exact hR s' this
    · exact hQ a s' this

/-- `pure` returns its value in the state it started in. -/
theorem Triple.pure {a : α} (h : ∀ s, P s → Q a s) : Triple P (pure a : Prog ε σ α) Q R :=
  fun s hs => h s hs

/-- Sequencing: the second program starts from what the first returns. -/
theorem Triple.bind {x : Prog ε σ α} {f : α → Prog ε σ β} {Q : β → σ → Prop} {Q₁ : α → σ → Prop}
    (hx : Triple P x Q₁ R) (hf : ∀ a, Triple (Q₁ a) (f a) Q R) : Triple P (x >>= f) Q R := by
  intro s hs
  have := hx s hs
  rw [exec_bind]
  cases hr : exec x s with
  | none => rw [hr] at this; exact this
  | some r =>
    obtain ⟨_ | a, s'⟩ := r <;> rw [hr] at this
    · exact this
    · exact hf a s' this

/-- `throw` raises in the state it started in. -/
theorem Triple.throw {e : ε} (h : ∀ s, P s → R s) : Triple P (throw e : Prog ε σ α) Q R :=
  fun s hs => h s hs

/-- `get` returns the state. -/
theorem Triple.get {Q : σ → σ → Prop} (h : ∀ s, P s → Q s s) :
    Triple P (get : Prog ε σ σ) Q R :=
  fun s hs => h s hs

/-- `modify` applies its function to the state. -/
theorem Triple.modify {f : σ → σ} {Q : PUnit → σ → Prop} (h : ∀ s, P s → Q ⟨⟩ (f s)) :
    Triple P (modify f : Prog ε σ PUnit) Q R :=
  fun s hs => h s hs

/-- `set` replaces the state. -/
theorem Triple.set {s' : σ} {Q : PUnit → σ → Prop} (h : ∀ s, P s → Q ⟨⟩ s') :
    Triple P (set s' : Prog ε σ PUnit) Q R :=
  fun s hs => h s hs


/-- A handler starts from the state that the failure left. -/
theorem Triple.tryCatch {x : Prog ε σ α} {h : ε → Prog ε σ α} (hx : Triple P x Q R')
    (hh : ∀ e, Triple R' (h e) Q R) : Triple P (tryCatch x h) Q R := by
  intro s hs
  have := hx s hs
  rw [exec_tryCatch]
  cases hr : exec x s with
  | none => rw [hr] at this; exact this
  | some r =>
    obtain ⟨e | a, s'⟩ := r <;> rw [hr] at this
    · exact hh e s' this
    · exact this


/-- A loop over a list, with an invariant indexed by the part of the list still to run. -/
theorem Triple.forM {l : List β} {f : β → Prog ε σ PUnit} (I : List β → σ → Prop)
    (h : ∀ b rest, Triple (I (b :: rest)) (f b) (fun _ => I rest) R) :
    Triple (I l) (l.forM f) (fun _ => I []) R := by
  induction l with
  | nil => exact Triple.pure fun _ hs => hs
  | cons b rest ih =>
    show Triple _ (f b >>= fun _ => rest.forM f) _ _
    exact (h b rest).bind fun _ => ih

end Raising
