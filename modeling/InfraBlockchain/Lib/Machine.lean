import Mathlib

/-!
# Runs of a machine whose steps are rolled back on failure

A step of the machine takes a state and a request and either returns the next state or fails.
A failed step is rolled back as a whole, as an undo session is, so a run over a list of requests
keeps the state of each failed step's start. `run_invariant` is the induction that every
invariant of the development uses: a property that holds at the start and that every successful
step keeps holds after every run; `runSum_eq` is the telescoping that every ledger of a run uses,
and `runSum_le` the same telescoping for a quantity that each step raises at most by its share.
-/

namespace Machine

variable {σ α ε : Type}

/-- One request: the next state when the step succeeds, and the state unchanged when it fails. -/
def commit (step : σ → α → Except ε σ) (s : σ) (a : α) : σ :=
  match step s a with
  | .ok s' => s'
  | .error _ => s

/-- A failed request leaves the state as it was. -/
theorem commit_of_error {step : σ → α → Except ε σ} {s : σ} {a : α} {e : ε}
    (h : step s a = .error e) : commit step s a = s := by
  simp [commit, h]

/-- A successful request gives the state that its step returns. -/
theorem commit_of_ok {step : σ → α → Except ε σ} {s s' : σ} {a : α} (h : step s a = .ok s') :
    commit step s a = s' := by
  simp [commit, h]

/-- The requests in order, each committed or rolled back. -/
def run (step : σ → α → Except ε σ) (s : σ) (as : List α) : σ :=
  as.foldl (commit step) s

/-- The states that some run reaches from `init`. -/
def Reachable (step : σ → α → Except ε σ) (init s : σ) : Prop :=
  ∃ as, run step init as = s

@[simp] theorem run_nil (step : σ → α → Except ε σ) (s : σ) : run step s [] = s := rfl

@[simp] theorem run_cons (step : σ → α → Except ε σ) (s : σ) (a : α) (as : List α) :
    run step s (a :: as) = run step (commit step s a) as := rfl

/-- A run over two lists is the run over the second from where the first ends. -/
theorem run_append (step : σ → α → Except ε σ) (s : σ) (as bs : List α) :
    run step s (as ++ bs) = run step (run step s as) bs := by
  simp [run, List.foldl_append]

/-- A committed request keeps every property that its successful step keeps. -/
theorem commit_invariant {step : σ → α → Except ε σ} (I : σ → Prop) {s : σ} {a : α} (hs : I s)
    (hstep : ∀ s', step s a = .ok s' → I s') : I (commit step s a) := by
  unfold commit
  split
  · rename_i s' h
    exact hstep s' h
  · exact hs

/-- Induction over runs: a property that holds at the start and that every successful step keeps
holds after every run. -/
theorem run_invariant {step : σ → α → Except ε σ} (I : σ → Prop)
    (hstep : ∀ s a s', I s → step s a = .ok s' → I s') :
    ∀ (as : List α) {s : σ}, I s → I (run step s as)
  | [], _, hs => hs
  | a :: as, s, hs => run_invariant I hstep as (commit_invariant I hs (hstep s a · hs))

/-- Induction over one run whose requests are known: a property that every successful step of
one of its requests keeps holds after the run. -/
theorem run_invariant_of_mem {step : σ → α → Except ε σ} (I : σ → Prop) :
    ∀ (as : List α), (∀ s a s', a ∈ as → I s → step s a = .ok s' → I s') →
      ∀ {s : σ}, I s → I (run step s as)
  | [], _, _, hs => hs
  | a :: as, hstep, s, hs =>
    run_invariant_of_mem I as (fun s b s' hb => hstep s b s' (List.mem_cons_of_mem a hb))
      (commit_invariant I hs (hstep s a · List.mem_cons_self hs))

/-- The sum over a run of what `f` reads off each request with the states before and after it. -/
def runSum (step : σ → α → Except ε σ) (f : σ → α → σ → Int) : σ → List α → Int
  | _, [] => 0
  | s, a :: as => f s a (commit step s a) + runSum step f (commit step s a) as

/-- Telescoping over one run: when each of its requests, from a state with `I`, keeps `I` and adds
to the sum what it adds to `g`, the whole run adds to the sum what it adds to `g`. -/
theorem runSum_eq {step : σ → α → Except ε σ} {f : σ → α → σ → Int} (I : σ → Prop)
    (g : σ → Int) :
    ∀ (as : List α), (∀ s a, a ∈ as → I s →
        I (commit step s a) ∧ f s a (commit step s a) = g (commit step s a) - g s) →
      ∀ {s : σ}, I s → runSum step f s as = g (run step s as) - g s
  | [], _, _, _ => by simp [runSum]
  | a :: as, hstep, s, hs => by
    obtain ⟨hs', hf⟩ := hstep s a List.mem_cons_self hs
    have ih := runSum_eq I g as (fun s b hb => hstep s b (List.mem_cons_of_mem a hb)) hs'
    rw [runSum, run_cons, ih, hf]
    omega

/-- A sum over a run of shares scaled by one factor is the factor times the sum of the shares. -/
theorem runSum_mul (step : σ → α → Except ε σ) (f : σ → α → σ → Int) (c : Int) :
    ∀ (as : List α) (s : σ),
      runSum step (fun s a s' => c * f s a s') s as = c * runSum step f s as
  | [], _ => by simp [runSum]
  | a :: as, s => by
    rw [runSum, runSum, runSum_mul step f c as, Int.mul_add]

/-- Telescoping as a bound: when each request of a run, from a state with `I`, keeps `I` and adds
to `g` at most what it adds to the sum, the whole run adds to `g` at most the sum. -/
theorem runSum_le {step : σ → α → Except ε σ} {f : σ → α → σ → Int} (I : σ → Prop)
    (g : σ → Int) :
    ∀ (as : List α), (∀ s a, a ∈ as → I s →
        I (commit step s a) ∧ g (commit step s a) - g s ≤ f s a (commit step s a)) →
      ∀ {s : σ}, I s → g (run step s as) - g s ≤ runSum step f s as
  | [], _, _, _ => by simp [runSum]
  | a :: as, hstep, s, hs => by
    obtain ⟨hs', hf⟩ := hstep s a List.mem_cons_self hs
    have ih := runSum_le I g as (fun s b hb => hstep s b (List.mem_cons_of_mem a hb)) hs'
    rw [runSum, run_cons]
    omega

/-- Induction over the steps of one request that is a sequence of steps, any failure of which fails
the request, with a budget: `I n s` holds with `n` left to spend, and each step spends its cost. -/
theorem foldlM_invariant {f : σ → α → Except ε σ} (I : Nat → σ → Prop) (cost : α → Nat)
    (hstep : ∀ s a s' n, I (cost a + n) s → f s a = .ok s' → I n s') :
    ∀ (as : List α) {s s' : σ} (n : Nat), I ((as.map cost).sum + n) s →
      as.foldlM f s = .ok s' → I n s'
  | [], s, s', n, hs, h => by
    simp only [List.foldlM_nil, pure, Except.pure, Except.ok.injEq] at h
    subst h
    simpa using hs
  | a :: as, s, s', n, hs, h => by
    simp only [List.foldlM_cons, bind, Except.bind] at h
    split at h
    · cases h
    · rename_i t ht
      refine foldlM_invariant I cost hstep as n (hstep s a t _ ?_ ht) h
      simpa [Nat.add_assoc] using hs

/-- Induction over runs with a budget: a property that every successful step keeps while spending
its cost, and that a smaller budget keeps, holds after a run whose costs the budget covers. -/
theorem run_invariant_budget {step : σ → α → Except ε σ} (I : Nat → σ → Prop) (cost : α → Nat)
    (hmono : ∀ m n s, m ≤ n → I n s → I m s)
    (hstep : ∀ s a s' n, I (cost a + n) s → step s a = .ok s' → I n s') :
    ∀ (as : List α) {s : σ} (n : Nat), I ((as.map cost).sum + n) s → I n (run step s as)
  | [], s, n, hs => by simpa using hs
  | a :: as, s, n, hs => by
    have hs' : I (cost a + ((as.map cost).sum + n)) s := by simpa [Nat.add_assoc] using hs
    refine run_invariant_budget I cost hmono hstep as n ?_
    exact commit_invariant (I _) (hmono _ _ s (Nat.le_add_left _ _) hs')
      (fun s' h => hstep s a s' _ hs' h)

/-- Every reachable state has every property that holds initially and that steps keep. -/
theorem Reachable.invariant {step : σ → α → Except ε σ} {init s : σ} (I : σ → Prop)
    (h0 : I init) (hstep : ∀ s a s', I s → step s a = .ok s' → I s')
    (h : Reachable step init s) : I s := by
  obtain ⟨as, rfl⟩ := h
  exact run_invariant I hstep as h0

/-- A state reached by a successful step from a reachable state is reachable. -/
theorem Reachable.step {step : σ → α → Except ε σ} {init s s' : σ} {a : α}
    (h : Reachable step init s) (hs : step s a = .ok s') : Reachable step init s' := by
  obtain ⟨as, rfl⟩ := h
  refine ⟨as ++ [a], ?_⟩
  rw [run_append]
  simp [commit, hs]

/-- The start is reachable. -/
theorem Reachable.init (step : σ → α → Except ε σ) (init : σ) : Reachable step init init :=
  ⟨[], rfl⟩

end Machine
