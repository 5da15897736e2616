import OlsDapp.Lib.Table
import Mathlib.Logic.Function.Basic

/-!
# A table as a map

Nothing keeps two rows of a table from having one key, and a row is saved from a copy that may be
old. Looked up by the key a table is a map all the same, as long as rows are only copied from the
first of their key: an insert adds an entry where there is none, a save overwrites one.
-/

namespace OlsDapp.Lib

universe u v w

/-- What a writer does to the map. -/
inductive Write (ρ : Type u) where
  | record (v : ρ)
  | overwrite (v : ρ)
  deriving DecidableEq

section Map

variable {ρ : Type u} {κ : Type v} [DecidableEq κ] (key : ρ → κ)

/-- The first record of a key is kept; only an entry that is there is overwritten. -/
def Write.apply (m : κ → Option ρ) : Write ρ → κ → Option ρ
  | .record v => Function.update m (key v) ((m (key v)).or (some v))
  | .overwrite v => Function.update m (key v) ((m (key v)).map fun _ => v)

def Write.applyAll (m : κ → Option ρ) (ws : List (Write ρ)) : κ → Option ρ :=
  ws.foldl (Write.apply key) m

end Map

namespace Table

variable {ρ : Type u} {κ : Type v} {φ : Type w} [DecidableEq κ] {key : ρ → κ} {f : ρ → φ}
  {t : Table ρ} {row row' r : Row ρ} {v : ρ} {k : κ}

section Definitions

variable (key : ρ → κ) (f : ρ → φ)

/-- `findOne` with the key as its condition. -/
def findKey (t : Table ρ) (k : κ) : Option (Row ρ) := t.findOne fun v => key v = k

def lookup (t : Table ρ) (k : κ) : Option ρ := (t.findKey key k).map (·.val)

/-- The row was copied from the first of its key, and the copy agrees with it in `f`. -/
def CopyOf (t : Table ρ) (row : Row ρ) : Prop :=
  ∃ r, t.findKey key (key row.val) = some r ∧ r.id = row.id ∧ f r.val = f row.val

end Definitions

theorem key_of_findKey (h : t.findKey key k = some row) : key row.val = k :=
  of_decide_eq_true (mem_of_findOne h).2

/-- A row that is found is a copy of itself. -/
theorem copyOf_of_findKey (h : t.findKey key k = some row) : t.CopyOf key f row := by
  refine ⟨row, ?_, rfl, rfl⟩
  rw [key_of_findKey h]
  exact h

theorem findKey_insert : (t.insert v).findKey key k =
    (t.findKey key k).or (if key v = k then some ⟨t.nextId, v⟩ else none) := by
  unfold findKey
  rw [findOne_insert]
  simp only [decide_eq_true_eq]

theorem lookup_insert : (t.insert v).lookup key = Write.apply key (t.lookup key) (.record v) := by
  funext k
  show ((t.insert v).findKey key k).map _ =
    Function.update (t.lookup key) (key v) ((t.lookup key (key v)).or (some v)) k
  rw [findKey_insert, Option.map_or]
  by_cases hk : key v = k
  · subst hk
    rw [if_pos rfl, Function.update_self]
    rfl
  · rw [if_neg hk, Option.map_none, Option.or_none, Function.update_of_ne (Ne.symm hk)]
    rfl

/-- A save from a copy replaces the first row of its key. -/
theorem findKey_save (h : t.CopyOf key f row) :
    (t.save row).findKey key k = (t.findKey key k).map (replace row) := by
  obtain ⟨r, hfound, hid, _⟩ := h
  have hmem := (mem_of_findOne hfound).1
  refine findOne_save fun r' hr' hid' => ?_
  rw [eq_of_id_eq hr' hmem (hid'.trans hid.symm), key_of_findKey hfound]

theorem findKey_save_self (h : t.CopyOf key f row) :
    (t.save row).findKey key (key row.val) = some row := by
  rw [findKey_save h]
  obtain ⟨r, hfound, hid, _⟩ := h
  rw [hfound, Option.map_some, replace, if_pos hid]

theorem findKey_save_ne (h : t.CopyOf key f row) (hne : key row.val ≠ k) :
    (t.save row).findKey key k = t.findKey key k := by
  rw [findKey_save h]
  obtain ⟨r, hfound, hid, _⟩ := h
  cases hk : t.findKey key k with
  | none => rfl
  | some r' =>
    have hne' : r'.id ≠ row.id := by
      intro hid'
      have heq := eq_of_id_eq (mem_of_findOne hk).1 (mem_of_findOne hfound).1
        (hid'.trans hid.symm)
      rw [heq] at hk
      exact hne ((key_of_findKey hfound).symm.trans (key_of_findKey hk))
    rw [Option.map_some, replace, if_neg hne']

theorem lookup_save (h : t.CopyOf key f row) :
    (t.save row).lookup key = Write.apply key (t.lookup key) (.overwrite row.val) := by
  funext k
  show ((t.save row).findKey key k).map _ =
    Function.update (t.lookup key) (key row.val) ((t.lookup key (key row.val)).map _) k
  by_cases hk : key row.val = k
  · subst hk
    rw [findKey_save_self h, Function.update_self]
    obtain ⟨r, hfound, _, _⟩ := h
    rw [lookup, hfound]
    rfl
  · rw [findKey_save_ne h hk, Function.update_of_ne (Ne.symm hk)]
    rfl

/-- A copy stays one: no insert comes before the row it was read from. -/
theorem copyOf_insert (h : t.CopyOf key f row) : (t.insert v).CopyOf key f row := by
  obtain ⟨r, hfound, hsame⟩ := h
  refine ⟨r, ?_, hsame⟩
  rw [findKey_insert, hfound, Option.some_or]

theorem copyOf_save (h : t.CopyOf key f row) (hother : t.CopyOf key f row') :
    (t.save row').CopyOf key f row := by
  obtain ⟨r, hfound, hid, hf⟩ := h
  by_cases hk : key row'.val = key row.val
  · refine ⟨row', ?_, ?_⟩
    · rw [← hk]
      exact findKey_save_self hother
    · obtain ⟨r', hfound', hid', hf'⟩ := hother
      rw [hk, hfound] at hfound'
      obtain rfl := Option.some.inj hfound'
      exact ⟨hid'.symm.trans hid, hf'.symm.trans hf⟩
  · refine ⟨r, ?_, hid, hf⟩
    rw [findKey_save_ne hother hk]
    exact hfound

/-- A change to a copy that the key and `f` do not see leaves it one. -/
theorem copyOf_of_eq (h : t.CopyOf key f row) (hkey : key v = key row.val)
    (hf : f v = f row.val) : t.CopyOf key f ⟨row.id, v⟩ := by
  obtain ⟨r, hfound, hid, hsame⟩ := h
  refine ⟨r, ?_, hid, hsame.trans hf.symm⟩
  show t.findKey key (key v) = some r
  rw [hkey]
  exact hfound

section Moves

variable {t' : Table ρ} {ws : List (Write ρ)}

variable (key f t) in
/-- A write to the table, with what it is to the map. -/
inductive Moves : List (Write ρ) → Table ρ → Prop where
  | stays : Moves [] t
  | record (v : ρ) : Moves [.record v] (t.insert v)
  | overwrite (row : Row ρ) (copy : t.CopyOf key f row) : Moves [.overwrite row.val] (t.save row)

theorem Moves.lookup_eq (h : t.Moves key f ws t') :
    t'.lookup key = Write.applyAll key (t.lookup key) ws := by
  cases h with
  | stays => rfl
  | record v => exact lookup_insert
  | overwrite row copy => exact lookup_save copy

theorem Moves.copyOf (h : t.Moves key f ws t') (hcopy : t.CopyOf key f row) :
    t'.CopyOf key f row := by
  cases h with
  | stays => exact hcopy
  | record v => exact copyOf_insert hcopy
  | overwrite row' copy => exact copyOf_save hcopy copy

end Moves

end Table

end OlsDapp.Lib
