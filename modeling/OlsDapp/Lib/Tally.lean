import Mathlib.Algebra.Order.BigOperators.Group.List
import Mathlib.Data.List.Perm.Subperm

/-!
# Totals over lists

What was paid out for distinct entries of a list is at most the total of the list, and entries
are distinct when each key is counted at most once.
-/

namespace OlsDapp.Lib.Tally

universe u v

variable {α : Type u} {β : Type v} {M : Type*}

section Order

variable [AddCommMonoid M] [PartialOrder M] [IsOrderedAddMonoid M] {f : α → M} {l l' : List α}

theorem sum_map_nonneg (hf : ∀ a, 0 ≤ f a) (l : List α) : 0 ≤ (l.map f).sum := by
  apply List.sum_nonneg
  intro x hx
  obtain ⟨a, _, rfl⟩ := List.mem_map.mp hx
  exact hf a

theorem sum_map_le_of_nodup (hf : ∀ a, 0 ≤ f a) (hnodup : l.Nodup) (hsub : l ⊆ l') :
    (l.map f).sum ≤ (l'.map f).sum := by
  obtain ⟨k, hperm, hsublist⟩ := List.subperm_of_subset hnodup hsub
  rw [← (hperm.map f).sum_eq]
  apply (hsublist.map f).sum_le_sum
  intro x hx
  obtain ⟨a, _, rfl⟩ := List.mem_map.mp hx
  exact hf a

end Order

theorem sum_map_append [AddMonoid M] (f : α → M) (l l' : List α) :
    ((l ++ l').map f).sum = (l.map f).sum + (l'.map f).sum := by
  rw [List.map_append, List.sum_append]

/-- Values that only some entries have are the values of these entries. -/
theorem sum_filterMap [AddMonoid M] {g : α → Option β} {h : β → M} {f : α → M}
    (l : List α) (hf : ∀ a ∈ l, f a = ((g a).map h).getD 0) :
    (l.map f).sum = ((l.filterMap g).map h).sum := by
  induction l with
  | nil => rfl
  | cons a l ih =>
    rw [List.map_cons, List.sum_cons, ih fun b hb => hf b (List.mem_cons_of_mem a hb),
      hf a List.mem_cons_self]
    cases hg : g a with
    | none =>
      rw [List.filterMap_cons_none hg]
      exact zero_add _
    | some b =>
      rw [List.filterMap_cons_some hg, List.map_cons, List.sum_cons]
      rfl

/-- No entry occurs twice when no key does. -/
theorem nodup_of_countP [DecidableEq α] (same : α → α → Bool) (hrefl : ∀ a, same a a = true)
    {l : List α} (h : ∀ a, l.countP (same a) ≤ 1) : l.Nodup := by
  apply List.nodup_iff_count.mpr
  intro a
  refine le_trans ?_ (h a)
  apply List.countP_mono_left
  intro b _ hb
  obtain rfl := beq_iff_eq.mp hb
  exact hrefl b

end OlsDapp.Lib.Tally
