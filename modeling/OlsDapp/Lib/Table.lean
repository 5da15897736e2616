import Mathlib.Data.List.Find
import Mathlib.Tactic.Common

/-!
# Tables with generated keys

A table is a list of rows in the order of their ids, which are given out by a counter.
Of several matches `findOne` returns the one of the lowest id.
-/

namespace OlsDapp.Lib

universe u

structure Row (ρ : Type u) where
  id : Nat
  val : ρ
  deriving DecidableEq

structure Table (ρ : Type u) where
  rows : List (Row ρ)
  nextId : Nat
  sorted : rows.Pairwise (·.id < ·.id)
  fresh : ∀ r ∈ rows, r.id < nextId

namespace Table

variable {ρ : Type u} {t : Table ρ} {p : ρ → Bool} {row r : Row ρ} {v v' : ρ} {id : Nat}

def empty : Table ρ := ⟨[], 1, List.Pairwise.nil, fun _ h => absurd h List.not_mem_nil⟩

def findOne (t : Table ρ) (p : ρ → Bool) : Option (Row ρ) := t.rows.find? fun r => p r.val

def findById (t : Table ρ) (id : Nat) : Option (Row ρ) := t.rows.find? fun r => r.id == id

/-- `save` of a new entity. -/
def insert (t : Table ρ) (v : ρ) : Table ρ where
  rows := t.rows ++ [⟨t.nextId, v⟩]
  nextId := t.nextId + 1
  sorted := by
    rw [List.pairwise_append]
    refine ⟨t.sorted, List.pairwise_singleton _ _, fun a ha b hb => ?_⟩
    obtain rfl := List.mem_singleton.mp hb
    exact t.fresh a ha
  fresh := by
    intro r hr
    rcases List.mem_append.mp hr with hr | hr
    · exact Nat.lt_succ_of_lt (t.fresh r hr)
    · obtain rfl := List.mem_singleton.mp hr
      exact Nat.lt_succ_self _

def replace (row r : Row ρ) : Row ρ := if r.id = row.id then row else r

theorem replace_id (row r : Row ρ) : (replace row r).id = r.id := by
  unfold replace
  split
  · next h => exact h.symm
  · rfl

/-- `save` of an entity that was loaded: every column of its row is written. -/
def save (t : Table ρ) (row : Row ρ) : Table ρ where
  rows := t.rows.map (replace row)
  nextId := t.nextId
  sorted := by
    rw [List.pairwise_map]
    exact t.sorted.imp fun h => by rwa [replace_id, replace_id]
  fresh := by
    intro r hr
    obtain ⟨r', hr', rfl⟩ := List.mem_map.mp hr
    rw [replace_id]
    exact t.fresh r' hr'

theorem eq_of_id_eq {r r' : Row ρ} (hr : r ∈ t.rows) (hr' : r' ∈ t.rows) (h : r.id = r'.id) :
    r = r' := by
  have hs := List.pairwise_iff_getElem.mp t.sorted
  obtain ⟨i, hi, rfl⟩ := List.mem_iff_getElem.mp hr
  obtain ⟨j, hj, rfl⟩ := List.mem_iff_getElem.mp hr'
  rcases Nat.lt_trichotomy i j with hij | rfl | hij
  · have hlt := hs i j hi hj hij
    omega
  · rfl
  · have hlt := hs j i hj hi hij
    omega

theorem mem_of_findOne (h : t.findOne p = some r) : r ∈ t.rows ∧ p r.val = true :=
  ⟨List.mem_of_find?_eq_some h, List.find?_some (p := fun r : Row ρ => p r.val) h⟩

theorem findOne_eq_none : t.findOne p = none ↔ ∀ r ∈ t.rows, p r.val = false := by
  simp [findOne]

theorem mem_of_findById (h : t.findById id = some r) : r ∈ t.rows ∧ r.id = id :=
  ⟨List.mem_of_find?_eq_some h,
    beq_iff_eq.mp (List.find?_some (p := fun r : Row ρ => r.id == id) h)⟩

theorem findById_eq_some : t.findById id = some r ↔ r ∈ t.rows ∧ r.id = id := by
  refine ⟨mem_of_findById, fun ⟨hr, hid⟩ => ?_⟩
  cases hf : t.findById id with
  | none =>
    have hno := List.find?_eq_none.mp hf r hr
    exact absurd (beq_iff_eq.mpr hid) hno
  | some r' =>
    obtain ⟨hr', hid'⟩ := mem_of_findById hf
    rw [eq_of_id_eq hr hr' (hid.trans hid'.symm)]

section Insert

theorem mem_insert : r ∈ (t.insert v).rows ↔ r ∈ t.rows ∨ r = ⟨t.nextId, v⟩ := by
  simp [insert]

theorem findOne_insert :
    (t.insert v).findOne p =
      (t.findOne p).or (if p v then some ⟨t.nextId, v⟩ else none) := by
  simp only [findOne, insert, List.find?_append, List.find?_singleton]

theorem findOne_insert_of_some (h : t.findOne p = some r) :
    (t.insert v).findOne p = some r := by
  rw [findOne_insert, h, Option.some_or]

theorem insert_inj {w : ρ} (h : t.insert v = t.insert w) : v = w := by
  have hrows : t.rows ++ [⟨t.nextId, v⟩] = t.rows ++ [⟨t.nextId, w⟩] := congrArg Table.rows h
  have hrow := List.singleton_inj.mp (List.append_cancel_left hrows)
  exact congrArg Row.val hrow

theorem countP_insert (q : Row ρ → Bool) :
    (t.insert v).rows.countP q = t.rows.countP q + if q ⟨t.nextId, v⟩ then 1 else 0 := by
  simp only [insert, List.countP_append, List.countP_singleton]

end Insert

section Save

theorem mem_save (h : r ∈ (t.save row).rows) : r = row ∨ (r ∈ t.rows ∧ r.id ≠ row.id) := by
  obtain ⟨r', hr', rfl⟩ := List.mem_map.mp h
  unfold replace
  split
  · exact Or.inl rfl
  · next hne => exact Or.inr ⟨hr', hne⟩

theorem mem_save_of_ne (h : r ∈ t.rows) (hne : r.id ≠ row.id) : r ∈ (t.save row).rows := by
  refine List.mem_map.mpr ⟨r, h, ?_⟩
  rw [replace, if_neg hne]

theorem mem_save_self (h : r ∈ t.rows) (heq : r.id = row.id) : row ∈ (t.save row).rows := by
  refine List.mem_map.mpr ⟨r, h, ?_⟩
  rw [replace, if_pos heq]

theorem findById_save_self (h : t.findById row.id = some r) :
    (t.save row).findById row.id = some row := by
  obtain ⟨hr, hid⟩ := mem_of_findById h
  exact findById_eq_some.mpr ⟨mem_save_self hr hid, rfl⟩

theorem findById_save_ne (hne : id ≠ row.id) : (t.save row).findById id = t.findById id := by
  cases hf : t.findById id with
  | some r =>
    obtain ⟨hr, hid⟩ := mem_of_findById hf
    exact findById_eq_some.mpr ⟨mem_save_of_ne hr (hid ▸ hne), hid⟩
  | none =>
    refine List.find?_eq_none.mpr fun r hr => ?_
    rcases mem_save hr with rfl | ⟨hr, _⟩
    · simpa using hne.symm
    · exact List.find?_eq_none.mp hf r hr

/-- Saving a row that keeps the property leaves the first match at its place. -/
theorem findOne_save (h : ∀ r ∈ t.rows, r.id = row.id → p r.val = p row.val) :
    (t.save row).findOne p = (t.findOne p).map (replace row) := by
  have hp : ∀ r ∈ t.rows, p (replace row r).val = p r.val := by
    intro r hr
    unfold replace
    split
    · next hid => exact (h r hr hid).symm
    · rfl
  show (t.rows.map (replace row)).find? (fun r => p r.val) = _
  rw [List.find?_map]
  exact congrArg _ (List.find?_congr hp)

/-- A save changes nothing exactly when it writes what the row holds. -/
theorem save_eq_self_iff (h : r ∈ t.rows) : t.save ⟨r.id, v⟩ = t ↔ v = r.val := by
  constructor
  · intro hsame
    have hmem : (⟨r.id, v⟩ : Row ρ) ∈ t.rows := hsame ▸ mem_save_self h rfl
    exact congrArg Row.val (eq_of_id_eq hmem h rfl)
  · rintro rfl
    have hrow : ∀ r' ∈ t.rows, replace r r' = id r' := by
      intro r' hr'
      unfold replace
      split
      · next hid => exact (eq_of_id_eq hr' h hid).symm
      · rfl
    have hrows : t.rows.map (replace r) = t.rows := by
      rw [List.map_congr_left hrow, List.map_id]
    rw [save]
    simp only [hrows]

theorem save_inj (h : r ∈ t.rows) : t.save ⟨r.id, v⟩ = t.save ⟨r.id, v'⟩ ↔ v = v' := by
  constructor
  · intro hsame
    have hmem : (⟨r.id, v⟩ : Row ρ) ∈ (t.save ⟨r.id, v'⟩).rows := hsame ▸ mem_save_self h rfl
    have hmem' : (⟨r.id, v'⟩ : Row ρ) ∈ (t.save ⟨r.id, v'⟩).rows := mem_save_self h rfl
    exact congrArg Row.val (eq_of_id_eq hmem hmem' rfl)
  · rintro rfl
    rfl

theorem countP_save (h : ∀ r ∈ t.rows, r.id = row.id → p r.val = p row.val) :
    (t.save row).rows.countP (fun r => p r.val) = t.rows.countP fun r => p r.val := by
  show (t.rows.map (replace row)).countP _ = _
  rw [List.countP_map]
  refine List.countP_congr fun r hr => ?_
  unfold Function.comp replace
  split
  · next hid => rw [h r hr hid]
  · rfl

end Save

section Image

universe v

variable {β : Type v} {f : ρ → β}

/-- The ids with one attribute of each row. -/
def image (t : Table ρ) (f : ρ → β) : List (Nat × β) := t.rows.map fun r => (r.id, f r.val)

theorem mem_image (h : r ∈ t.rows) : (r.id, f r.val) ∈ t.image f :=
  List.mem_map.mpr ⟨r, h, rfl⟩

/-- A save that keeps the attribute of its row keeps every id and every attribute. -/
theorem image_save (h : (row.id, f row.val) ∈ t.image f) : (t.save row).image f = t.image f := by
  obtain ⟨r', hr', heq⟩ := List.mem_map.mp h
  obtain ⟨hid, hf⟩ := Prod.mk.inj heq
  show (t.rows.map (replace row)).map _ = _
  rw [List.map_map]
  refine List.map_congr_left fun r hr => ?_
  unfold Function.comp replace
  split
  · next hrid =>
    rw [eq_of_id_eq hr hr' (hrid.trans hid.symm)]
    exact heq.symm
  · rfl

/-- Which row is found by an attribute depends on the ids and the attributes only. -/
theorem findOne_image (q : β → Bool) :
    (t.findOne fun v => q (f v)).map (·.id) = ((t.image f).find? fun x => q x.2).map (·.1) := by
  rw [image, List.find?_map, Option.map_map]
  rfl

end Image

end Table

end OlsDapp.Lib
