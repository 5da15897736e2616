import Mathlib.Algebra.BigOperators.Group.Finset.Basic
import Mathlib.Algebra.Order.BigOperators.Group.Finset
import Mathlib.Data.Fintype.Basic
import Mathlib.Algebra.BigOperators.Pi

/-!
# Conserved ledgers

A ledger is a balance for every account together with the proof that the balances
add up to the supply, so a ledger that does not balance cannot be built. Arithmetic
is on naturals; a machine-word store is related to a ledger, not replaced by it.
-/

namespace OlsDapp.Lib

open Finset

section Update

variable {α : Type*} [Fintype α] [DecidableEq α]

/-- Rewriting one account moves the total by exactly that account's change. -/
theorem sum_update_add (f : α → ℕ) (a : α) (v : ℕ) :
    ∑ x, Function.update f a v x + f a = ∑ x, f x + v := by
  have hf := Finset.sum_erase_add univ f (mem_univ a)
  have hu := Finset.sum_erase_add univ (Function.update f a v) (mem_univ a)
  have hrest : ∑ x ∈ univ.erase a, Function.update f a v x = ∑ x ∈ univ.erase a, f x :=
    Finset.sum_congr rfl fun x hx => Function.update_of_ne (Finset.ne_of_mem_erase hx) _ _
  rw [Function.update_self] at hu
  omega

end Update

structure Ledger (α : Type*) [Fintype α] where
  balance : α → ℕ
  supply : ℕ
  conserved : ∑ a, balance a = supply

namespace Ledger

variable {α : Type*} [Fintype α] [DecidableEq α]

omit [DecidableEq α] in
theorem balance_le (L : Ledger α) (a : α) : L.balance a ≤ L.supply := by
  rw [← L.conserved]
  exact Finset.single_le_sum (fun x _ => Nat.zero_le (L.balance x)) (mem_univ a)

/-- Two accounts together hold at most everything. -/
theorem add_balance_le (L : Ledger α) {a b : α} (h : a ≠ b) :
    L.balance a + L.balance b ≤ L.supply := by
  have hsub : ({a, b} : Finset α) ⊆ univ := Finset.subset_univ _
  have hle := Finset.sum_le_sum_of_subset (f := L.balance) hsub
  rw [Finset.sum_pair h, L.conserved] at hle
  exact hle

/-- One account holds everything. -/
def single (a : α) (v : ℕ) : Ledger α where
  balance := Function.update (fun _ => 0) a v
  supply := v
  conserved := by
    have h := sum_update_add (fun _ : α => 0) a v
    rwa [Finset.sum_const_zero, Nat.add_zero, Nat.zero_add] at h

/-- Take `v` from `src` first and then add it to `dst`, which may be `src` itself. -/
def transfer (L : Ledger α) (src dst : α) (v : ℕ) (h : v ≤ L.balance src) : Ledger α where
  balance :=
    let taken := Function.update L.balance src (L.balance src - v)
    Function.update taken dst (taken dst + v)
  supply := L.supply
  conserved := by
    have h1 := sum_update_add L.balance src (L.balance src - v)
    have h2 := sum_update_add (Function.update L.balance src (L.balance src - v)) dst
      (Function.update L.balance src (L.balance src - v) dst + v)
    have h3 := L.conserved
    dsimp only
    omega

def burn (L : Ledger α) (src : α) (v : ℕ) (h : v ≤ L.balance src) : Ledger α where
  balance := Function.update L.balance src (L.balance src - v)
  supply := L.supply - v
  conserved := by
    have h1 := sum_update_add L.balance src (L.balance src - v)
    have h2 := L.conserved
    omega

def mint (L : Ledger α) (dst : α) (v : ℕ) : Ledger α where
  balance := Function.update L.balance dst (L.balance dst + v)
  supply := L.supply + v
  conserved := by
    have h1 := sum_update_add L.balance dst (L.balance dst + v)
    have h2 := L.conserved
    omega

/-- The steps that create nothing: rest, transfer, burn. -/
inductive Step : Ledger α → Ledger α → Prop where
  | rest (L : Ledger α) : Step L L
  | transfer (L : Ledger α) (src dst : α) (v : ℕ) (h : v ≤ L.balance src) :
      Step L (L.transfer src dst v h)
  | burn (L : Ledger α) (src : α) (v : ℕ) (h : v ≤ L.balance src) : Step L (L.burn src v h)

theorem Step.supply_le {L L' : Ledger α} (h : Step L L') : L'.supply ≤ L.supply := by
  cases h with
  | rest => exact le_rfl
  | transfer => exact le_rfl
  | burn src v _ => exact Nat.sub_le _ _

end Ledger

end OlsDapp.Lib
