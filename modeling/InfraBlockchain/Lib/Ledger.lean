import Mathlib.Logic.Basic
import Mathlib.Data.Int.Init

/-!
# Ledgers of fungible assets

An abstract ledger keeps, in integers, a supply for each registered asset and the holding of each
holder in each asset. `register` gives an asset a supply, zero unless it had one; `mint` and `burn`
change a supply and one holding by the same amount; `move` passes an amount from one holder to
another. A store of holdings in machine words refines the ledger when each of its successful
operations changes its integer view as the ledger operation does: then no word of it wrapped.

The lemmas are the simp set that evaluates the operations pointwise.
-/

/-- Supplies and holdings of assets `α` by holders `β`. -/
@[ext] structure Ledger (α β : Type) where
  /-- The supply of each registered asset. -/
  supply : α → Option ℤ
  /-- The holding of each holder in each asset. -/
  balance : α → β → ℤ

namespace Ledger

variable {α β : Type} [DecidableEq α]

/-- Registers asset `a`, with the supply zero unless it has one. -/
def register (L : Ledger α β) (a : α) : Ledger α β where
  supply a' := if a' = a then some ((L.supply a).getD 0) else L.supply a'
  balance := L.balance

/-- Adds `v` to the supply of asset `a`, when it has one. -/
def grow (L : Ledger α β) (a : α) (v : ℤ) : Ledger α β where
  supply a' := if a' = a then (L.supply a).map (· + v) else L.supply a'
  balance := L.balance

/-- Adds `v` to the holding of `h` in asset `a`. -/
def credit [DecidableEq β] (L : Ledger α β) (a : α) (h : β) (v : ℤ) : Ledger α β where
  supply := L.supply
  balance a' h' := L.balance a' h' + if a' = a ∧ h' = h then v else 0

/-- Takes `v` from the holding of `h` in asset `a`. -/
def debit [DecidableEq β] (L : Ledger α β) (a : α) (h : β) (v : ℤ) : Ledger α β where
  supply := L.supply
  balance a' h' := L.balance a' h' - if a' = a ∧ h' = h then v else 0

/-- `v` new units of `a`, held by `h`. -/
def mint [DecidableEq β] (L : Ledger α β) (a : α) (h : β) (v : ℤ) : Ledger α β :=
  (L.grow a v).credit a h v

/-- `v` units of `a` held by `h`, destroyed. -/
def burn [DecidableEq β] (L : Ledger α β) (a : α) (h : β) (v : ℤ) : Ledger α β :=
  (L.grow a (-v)).debit a h v

/-- `v` units of `a` passed from `f` to `t`. -/
def move [DecidableEq β] (L : Ledger α β) (a : α) (f t : β) (v : ℤ) : Ledger α β :=
  (L.debit a f v).credit a t v

variable (L : Ledger α β) (a a' : α) (h h' : β) (v : ℤ)

@[simp] theorem register_supply :
    (L.register a).supply a' = if a' = a then some ((L.supply a).getD 0) else L.supply a' := rfl

@[simp] theorem register_balance : (L.register a).balance = L.balance := rfl

@[simp] theorem grow_supply :
    (L.grow a v).supply a' = if a' = a then (L.supply a).map (· + v) else L.supply a' := rfl

@[simp] theorem grow_balance : (L.grow a v).balance = L.balance := rfl

@[simp] theorem credit_supply [DecidableEq β] : (L.credit a h v).supply = L.supply := rfl

@[simp] theorem credit_balance [DecidableEq β] :
    (L.credit a h v).balance a' h' = L.balance a' h' + if a' = a ∧ h' = h then v else 0 := rfl

@[simp] theorem debit_supply [DecidableEq β] : (L.debit a h v).supply = L.supply := rfl

@[simp] theorem debit_balance [DecidableEq β] :
    (L.debit a h v).balance a' h' = L.balance a' h' - if a' = a ∧ h' = h then v else 0 := rfl

end Ledger
