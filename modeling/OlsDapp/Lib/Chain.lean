import Mathlib.Data.List.Basic
import Mathlib.Tactic.Common

/-!
# Chains of blocks

A chain is the list of its blocks, a block the list of its logs, and the number of a block
is its place. A reorganisation replaces the last blocks.
-/

namespace OlsDapp.Lib.Chain

universe u

variable {α : Type u} {chain : List (List α)}

/-- The block of the number, without logs when there is none. -/
def block (chain : List (List α)) (b : Nat) : List α := chain[b]?.getD []

/-- The logs from a block on. -/
def logsFrom (chain : List (List α)) (b : Nat) : List α := (chain.drop b).flatten

/-- The last `depth` blocks give way to `blocks`. -/
def replaceLast (chain : List (List α)) (depth : Nat) (blocks : List (List α)) : List (List α) :=
  chain.take (chain.length - depth) ++ blocks

theorem mem_logsFrom {n : Nat} {e : α} :
    e ∈ logsFrom chain n ↔ ∃ b, n ≤ b ∧ e ∈ block chain b := by
  unfold logsFrom block
  rw [List.mem_flatten]
  constructor
  · intro h
    obtain ⟨blk, hblk, he⟩ := h
    obtain ⟨i, hi⟩ := List.mem_iff_getElem?.mp hblk
    rw [List.getElem?_drop] at hi
    refine ⟨n + i, Nat.le_add_right n i, ?_⟩
    rw [hi]
    exact he
  · intro h
    obtain ⟨b, hb, he⟩ := h
    cases hblk : chain[b]? with
    | none =>
      rw [hblk] at he
      exact absurd he List.not_mem_nil
    | some blk =>
      rw [hblk] at he
      refine ⟨blk, List.mem_iff_getElem?.mpr ⟨b - n, ?_⟩, he⟩
      rw [List.getElem?_drop, Nat.add_sub_cancel' hb]
      exact hblk

theorem block_append {b : Nat} (blocks : List (List α)) (hb : b < chain.length) :
    block (chain ++ blocks) b = block chain b := by
  unfold block
  rw [List.getElem?_append_left hb]

theorem length_replaceLast {depth : Nat} (blocks : List (List α)) (hdepth : depth ≤ chain.length) :
    (replaceLast chain depth blocks).length + depth = chain.length + blocks.length := by
  unfold replaceLast
  rw [List.length_append, List.length_take]
  omega

/-- The blocks below the replaced ones stay. -/
theorem block_replaceLast {b depth : Nat} (blocks : List (List α))
    (hb : b + depth < chain.length) :
    block (replaceLast chain depth blocks) b = block chain b := by
  have hlt : b < chain.length - depth := by omega
  unfold replaceLast block
  rw [List.getElem?_append_left]
  · rw [List.getElem?_take_of_lt hlt]
  · rw [List.length_take]
    omega

end OlsDapp.Lib.Chain
