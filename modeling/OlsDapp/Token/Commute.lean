import OlsDapp.Token.Authority
import OlsDapp.Token.Success
import Mathlib.Tactic.Ring

/-!
# Moves of different payers commute

Every cell a move writes is changed by a fixed amount, so two moves lead to the same storage in
either order, whatever their addresses. That both are accepted in either order is where the
payers have to differ: a move takes tokens and allowance from its payer only, and it gives to
any other account no less than it had.
-/

namespace OlsDapp.Token.Commute

open Supply Authority Success

section Cells

variable (s : Storage) (mv : Move)

theorem applyMove_balance (a : Address) :
    (s.applyMove mv).balances a =
      s.balances a - (if a = mv.src then mv.value else 0) +
        (if mv.dst = some a then mv.value else 0) := by
  have htaken (b : Address) :
      s.taken mv b = s.balances b - if b = mv.src then mv.value else 0 := by
    by_cases hb : b = mv.src
    · rw [if_pos hb, hb, Storage.taken, Function.update_self]
    · rw [if_neg hb, taken_of_ne hb, sub_zero]
  by_cases hd : mv.dst = some a
  · rw [if_pos hd, ← htaken]
    simp only [Storage.applyMove, hd]
    rw [Function.update_self]
  · rw [if_neg hd, add_zero, ← htaken, applyMove_balance_of_ne hd]

theorem applyMove_allowed (o x : Address) :
    (s.applyMove mv).allowed o x =
      s.allowed o x - if o = mv.src ∧ mv.spender = some x then mv.value else 0 := by
  by_cases h : o = mv.src ∧ mv.spender = some x
  · obtain ⟨rfl, hx⟩ := h
    rw [if_pos ⟨rfl, hx⟩]
    simp only [Storage.applyMove, hx]
    rw [Function.update_self, Function.update_self]
  · rw [if_neg h, sub_zero, applyMove_allowed_of_ne fun ho hx => h ⟨ho, hx⟩]

theorem applyMove_supply :
    (s.applyMove mv).totalSupply_ =
      s.totalSupply_ - if mv.dst = none then mv.value else 0 := by
  cases hd : mv.dst with
  | some d =>
    rw [if_neg (Option.some_ne_none d), sub_zero]
    simp only [Storage.applyMove, hd]
  | none =>
    rw [if_pos rfl]
    simp only [Storage.applyMove, hd]

end Cells

/-- The writes of two moves can be made in either order. -/
theorem applyMove_comm (s : Storage) (a b : Move) :
    (s.applyMove a).applyMove b = (s.applyMove b).applyMove a := by
  have hbalances : ((s.applyMove a).applyMove b).balances =
      ((s.applyMove b).applyMove a).balances := by
    funext c
    simp only [applyMove_balance]
    ring
  have hallowed : ((s.applyMove a).applyMove b).allowed =
      ((s.applyMove b).applyMove a).allowed := by
    funext o x
    simp only [applyMove_allowed]
    ring
  have hsupply : ((s.applyMove a).applyMove b).totalSupply_ =
      ((s.applyMove b).applyMove a).totalSupply_ := by
    simp only [applyMove_supply]
    ring
  rw [Storage.mk.injEq]
  exact ⟨hbalances, hallowed, hsupply, rfl⟩

section Success

variable {s : Storage} {m m₁ m₂ : Msg} {mv mv₁ mv₂ : Move}

theorem applyMove_conserved (h : Conserved s) (ok : Movable s m mv) :
    Conserved (s.applyMove mv) := by
  obtain ⟨L, hL⟩ := (conserved_iff s).mp h
  obtain ⟨L', hL', _⟩ := move_refines hL ok
  exact (conserved_iff _).mpr ⟨L', hL'⟩

/-- An account that does not pay keeps at least its balance. -/
theorem le_applyMove_balance (ok : Movable s m mv) {a : Address} (ha : a ≠ mv.src) :
    s.balances a ≤ (s.applyMove mv).balances a := by
  rw [BitVec.le_def]
  by_cases hd : mv.dst = some a
  · rw [applyMove_balance_dst ok hd, taken_of_ne ha]
    omega
  · rw [applyMove_balance_of_ne hd, taken_of_ne ha]

/-- A move stays possible after a move of another payer. -/
theorem movable_applyMove (h : Conserved s) (ok₁ : Movable s m₁ mv₁) (ok₂ : Movable s m₂ mv₂)
    (hne : mv₁.src ≠ mv₂.src) : Movable (s.applyMove mv₁) m₂ mv₂ := by
  have hr := (movable_iff_requires h).mp ok₂
  apply (movable_iff_requires (applyMove_conserved h ok₁)).mpr
  constructor
  · have hle := BitVec.le_def.mp (le_applyMove_balance ok₁ hne.symm)
    have hv := BitVec.le_def.mp hr.funds
    exact BitVec.le_def.mpr (by omega)
  · intro x hx
    have hsame : (s.applyMove mv₁).allowed mv₂.src x = s.allowed mv₂.src x :=
      applyMove_allowed_of_ne fun ho _ => hne ho.symm
    rw [hsame]
    exact hr.budget x hx
  · exact hr.target
  · exact hr.burning

end Success

/-- In a reachable storage, two token-moving calls that pay from different accounts and each
succeed alone succeed in both orders, emit the same events and lead to the same storage. -/
theorem moves_commute (s : Storage) (hs : Reachable s) (m₁ m₂ : Msg) (mv₁ mv₂ : Move)
    (hm₁ : m₁.move? = some mv₁) (hm₂ : m₂.move? = some mv₂) (hne : mv₁.src ≠ mv₂.src)
    (h₁ : (call s m₁).isSome) (h₂ : (call s m₂).isSome) :
    ∃ s₁ s₂ t es₁ es₂,
      call s m₁ = some (s₁, es₁) ∧ call s₁ m₂ = some (t, es₂) ∧
      call s m₂ = some (s₂, es₂) ∧ call s₂ m₁ = some (t, es₁) := by
  have h := reachable_conserved hs
  have ok₁ := (isSome_iff_movable hm₁).mp h₁
  have ok₂ := (isSome_iff_movable hm₂).mp h₂
  have ok₁₂ := movable_applyMove h ok₁ ok₂ hne
  have ok₂₁ := movable_applyMove h ok₂ ok₁ hne.symm
  have hlast := (call_iff m₁).mpr (.move mv₁ hm₁ ok₂₁)
  rw [applyMove_comm] at hlast
  exact ⟨s.applyMove mv₁, s.applyMove mv₂, (s.applyMove mv₁).applyMove mv₂, _, _,
    (call_iff m₁).mpr (.move mv₁ hm₁ ok₁), (call_iff m₂).mpr (.move mv₂ hm₂ ok₁₂),
    (call_iff m₂).mpr (.move mv₂ hm₂ ok₂), hlast⟩

theorem moves_commute_crossing :
    ∃ s₁ s₂ t es₁ es₂,
      call (run (MyToken.deploy 1) [⟨1, .transfer 2 5⟩]) ⟨1, .transfer 2 3⟩ = some (s₁, es₁) ∧
      call s₁ ⟨2, .transfer 1 4⟩ = some (t, es₂) ∧
      call (run (MyToken.deploy 1) [⟨1, .transfer 2 5⟩]) ⟨2, .transfer 1 4⟩ = some (s₂, es₂) ∧
      call s₂ ⟨1, .transfer 2 3⟩ = some (t, es₁) :=
  moves_commute _ ⟨1, _, by decide, rfl⟩ ⟨1, .transfer 2 3⟩ ⟨2, .transfer 1 4⟩ _ _ rfl rfl
    (by decide) (by decide) (by decide)

end OlsDapp.Token.Commute
