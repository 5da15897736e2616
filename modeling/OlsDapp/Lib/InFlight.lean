import Mathlib.Algebra.BigOperators.Group.List.Basic
import Mathlib.Algebra.Ring.Nat
import Mathlib.Data.List.Perm.Basic
import Mathlib.Tactic.Common

/-!
# Work in flight

Tasks that run concurrently form a list in which the order does not count. When one of them
is resumed it is taken out and what it leaves to do is put in.
-/

namespace OlsDapp.Lib.InFlight

universe u

variable {α : Type u} [DecidableEq α] {l next : List α} {a b : α}

def resume (l : List α) (a : α) (next : List α) : List α := next ++ l.erase a

theorem mem_resume_imp (h : b ∈ resume l a next) : b ∈ next ∨ b ∈ l := by
  rcases List.mem_append.mp h with h | h
  · exact Or.inl h
  · exact Or.inr (List.mem_of_mem_erase h)

theorem mem_resume_of_mem_next (h : b ∈ next) : b ∈ resume l a next := List.mem_append_left _ h

theorem mem_resume_of_ne (h : b ∈ l) (hne : b ≠ a) : b ∈ resume l a next :=
  List.mem_append_right _ ((List.mem_erase_of_ne hne).mpr h)

theorem countP_eq_zero {β : Type u} {l : List β} {q : β → Bool} (h : ∀ a ∈ l, q a = false) :
    l.countP q = 0 :=
  List.countP_eq_zero.mpr fun a ha => by rw [h a ha]; decide

theorem countP_erase_add (q : α → Bool) (h : a ∈ l) :
    (l.erase a).countP q + (if q a then 1 else 0) = l.countP q := by
  rw [(List.perm_cons_erase h).countP_eq q, List.countP_cons]

theorem countP_erase_le (q : α → Bool) : (l.erase a).countP q ≤ l.countP q :=
  List.erase_sublist.countP_le

theorem countP_resume (q : α → Bool) (next : List α) (h : a ∈ l) :
    (resume l a next).countP q + (if q a then 1 else 0) = next.countP q + l.countP q := by
  rw [resume, List.countP_append, Nat.add_assoc, countP_erase_add q h]

theorem countP_resume_le (q : α → Bool) (next : List α) :
    (resume l a next).countP q ≤ next.countP q + l.countP q := by
  rw [resume, List.countP_append]
  exact Nat.add_le_add_left (countP_erase_le q) _

/-- A task that goes on and counts as it did before. -/
theorem countP_resume_eq (q : α → Bool) (h : a ∈ l) (hq : q b = q a) :
    (resume l a [b]).countP q = l.countP q := by
  have hcount := countP_resume q [b] h
  rw [List.countP_singleton, hq] at hcount
  omega

/-- The only task of a kind is the only one. -/
theorem eq_of_countP_eq_one (q : α → Bool) (hone : l.countP q = 1) (ha : a ∈ l) (hb : b ∈ l)
    (hqa : q a = true) (hqb : q b = true) : a = b := by
  by_contra hne
  have hcount := countP_erase_add q ha
  have hpos : 0 < (l.erase a).countP q :=
    List.countP_pos_iff.mpr ⟨b, (List.mem_erase_of_ne (Ne.symm hne)).mpr hb, hqb⟩
  rw [hqa, if_pos rfl] at hcount
  omega

theorem sum_erase_add (weight : α → Nat) (h : a ∈ l) :
    ((l.erase a).map weight).sum + weight a = (l.map weight).sum := by
  rw [((List.perm_cons_erase h).map weight).sum_eq, List.map_cons, List.sum_cons, Nat.add_comm]

theorem sum_resume (weight : α → Nat) (next : List α) (h : a ∈ l) :
    ((resume l a next).map weight).sum + weight a = (next.map weight).sum + (l.map weight).sum := by
  rw [resume, List.map_append, List.sum_append, Nat.add_assoc, sum_erase_add weight h]

end OlsDapp.Lib.InFlight
