import Mathlib.Data.List.DropRight
import Mathlib.Tactic.Linarith
import Mathlib.Tactic.NormNum
import Mathlib.Tactic.Ring

/-!
# Numbers as text

Some libraries write a large number with an exponent, and some readers take every character for a
digit. A number that is written the one way and read the other comes back as another number, and
not as one that differs by zero bytes at its end either.
-/

namespace OlsDapp.Lib.Numeral

/-- The digits of a number without the zeros at their end. -/
def significant (n : Nat) : List Char := (Nat.toDigits 10 n).rdropWhile (· = '0')

/-- The point of scientific notation. -/
def pointed : List Char → List Char
  | d :: d' :: ds => d :: '.' :: d' :: ds
  | ds => ds

def scientific (n : Nat) : List Char :=
  pointed (significant n) ++ 'e' :: '+' :: Nat.toDigits 10 ((Nat.toDigits 10 n).length - 1)

/-- The number with an exponent when it has more than `limit` digits. -/
def write (limit n : Nat) : List Char :=
  if (Nat.toDigits 10 n).length ≤ limit then Nat.toDigits 10 n else scientific n

/-- The digit of a character by its code alone, letters after the figures. -/
def digitOf (c : Char) : Int :=
  let code : Int := c.toNat - 48
  if 49 ≤ code then code - 39 else if 17 ≤ code then code - 7 else code

def readFrom (init : Int) (text : List Char) : Int :=
  text.foldl (fun n c => n * 10 + digitOf c) init

/-- The text as a decimal of which every character is a digit. -/
def read (text : List Char) : Int := readFrom 0 text

section Reading

variable {n : Nat} {ds : List Char}

theorem readFrom_append (init : Int) (a b : List Char) :
    readFrom init (a ++ b) = readFrom (readFrom init a) b := List.foldl_append

theorem toNat_of_isDigit {c : Char} (h : c.isDigit = true) : 48 ≤ c.toNat ∧ c.toNat ≤ 57 := by
  rw [Char.isDigit, Bool.and_eq_true, decide_eq_true_eq, decide_eq_true_eq] at h
  exact ⟨UInt32.le_iff_toNat_le.mp h.1, UInt32.le_iff_toNat_le.mp h.2⟩

theorem digitOf_isDigit {c : Char} (h : c.isDigit = true) : digitOf c = ↑(c.toNat - '0'.toNat) := by
  have hzero : '0'.toNat = 48 := rfl
  have hrange := toNat_of_isDigit h
  simp only [digitOf, hzero]
  rw [if_neg (by omega), if_neg (by omega)]
  omega

theorem ofDigitChars_cons (c : Char) (ds : List Char) : Nat.ofDigitChars 10 (c :: ds) 0 =
    10 ^ ds.length * (c.toNat - '0'.toNat) + Nat.ofDigitChars 10 ds 0 := by
  rw [Nat.ofDigitChars_cons, Nat.mul_zero, Nat.zero_add]
  exact Nat.ofDigitChars_eq_ofDigitChars_zero

theorem ofDigitChars_lt (h : ∀ c ∈ ds, c.isDigit = true) :
    Nat.ofDigitChars 10 ds 0 < 10 ^ ds.length := by
  induction ds with
  | nil => exact Nat.one_pos
  | cons c ds ih =>
    have hds := ih fun c' hc' => h c' (List.mem_cons_of_mem _ hc')
    have hzero : '0'.toNat = 48 := rfl
    have hc : c.toNat - '0'.toNat ≤ 9 := by
      have hrange := toNat_of_isDigit (h c List.mem_cons_self)
      omega
    have hmul := Nat.mul_le_mul_left (10 ^ ds.length) hc
    rw [ofDigitChars_cons, List.length_cons, pow_succ]
    omega

/-- Figures are read as the number they are. -/
theorem readFrom_digits (h : ∀ c ∈ ds, c.isDigit = true) (init : Int) :
    readFrom init ds = init * 10 ^ ds.length + Nat.ofDigitChars 10 ds 0 := by
  induction ds generalizing init with
  | nil => simp [readFrom]
  | cons c ds ih =>
    have hc := digitOf_isDigit (h c List.mem_cons_self)
    have hstep : readFrom init (c :: ds) = readFrom (init * 10 + digitOf c) ds := rfl
    rw [hstep, ih (fun c' hc' => h c' (List.mem_cons_of_mem _ hc')), hc, ofDigitChars_cons,
      List.length_cons]
    push_cast
    ring

theorem toDigits_isDigit (n : Nat) : ∀ c ∈ Nat.toDigits 10 n, c.isDigit = true :=
  fun _ hc => Nat.isDigit_of_mem_toDigits (by decide) (by decide) hc

theorem read_toDigits (n : Nat) : read (Nat.toDigits 10 n) = n := by
  rw [read, readFrom_digits (toDigits_isDigit n), Nat.ofDigitChars_ten_toDigits, Int.zero_mul,
    Int.zero_add]

end Reading

section Scientific

variable {n : Nat}

theorem toDigits_eq_significant (n : Nat) :
    ∃ z, Nat.toDigits 10 n = significant n ++ List.replicate z '0' := by
  have hsplit := List.rdropWhile_append_rtakeWhile (p := (· = '0')) (l := Nat.toDigits 10 n)
  have hzeros : ∀ c ∈ (Nat.toDigits 10 n).rtakeWhile (· = '0'), c = '0' :=
    fun c hc => of_decide_eq_true (List.mem_rtakeWhile_imp (p := fun c => decide (c = '0')) hc)
  exact ⟨_, hsplit.symm.trans (congrArg _ (List.eq_replicate_of_mem hzeros))⟩

/-- The letter and the sign are read as two digits more, and the exponent as two further ones. -/
theorem read_scientific (hlow : 10 < (Nat.toDigits 10 n).length)
    (hhigh : (Nat.toDigits 10 n).length ≤ 100) : read (scientific n) =
      10 ^ 4 * read (pointed (significant n)) + 13500 + ((Nat.toDigits 10 n).length - 1 : Nat) := by
  have hlength : (Nat.toDigits 10 ((Nat.toDigits 10 n).length - 1)).length = 2 := by
    have hle := (Nat.length_toDigits_le_iff (b := 10) (n := (Nat.toDigits 10 n).length - 1)
      (k := 2) (by decide) (by decide)).mpr (by omega)
    have hgt := mt (Nat.length_toDigits_le_iff (b := 10) (n := (Nat.toDigits 10 n).length - 1)
      (k := 1) (by decide) (by decide)).mp (by omega)
    omega
  have hmarks (init : Int) (ds : List Char) :
      readFrom init ('e' :: '+' :: ds) = readFrom ((init * 10 + 14) * 10 - 5) ds := rfl
  rw [read, scientific, readFrom_append, hmarks, readFrom_digits (toDigits_isDigit _),
    Nat.ofDigitChars_ten_toDigits, hlength, read]
  ring

/-- A mantissa with its point is no shift of the number by whole bytes. -/
theorem mantissa_ne {d p r e z s : Nat} (hd : 1 ≤ d ∧ d ≤ 9)
    (he : 21 ≤ e ∧ e ≤ 77) (hz : z ≤ 1) (hp : p = 10 ^ (e - z)) :
    10 ^ 4 * ((10 * d - 2) * p + r) + 13500 + e ≠ 10 ^ z * (d * p + r) * 256 ^ s := by
  have hlarge : 10 ^ 20 ≤ p := by
    rw [hp]
    exact Nat.pow_le_pow_right (by decide) (by omega)
  have hbytes : s = 0 ∨ s = 1 ∨ s = 2 ∨ 256 ^ 3 ≤ 256 ^ s := by
    by_cases hs : s ≤ 2
    · omega
    · exact Or.inr (Or.inr (Or.inr (Nat.pow_le_pow_right (by decide) (by omega))))
  have hresidues : ∀ e ∈ List.range 78, ∀ d ∈ List.range 10,
      21 ≤ e → 1 ≤ d → (10 ^ 4 * ((9 * d - 2) * 10 ^ e) + 13500 + e) % 55536 ≠ 0 := by
    decide +kernel
  have hfirst : p ≤ d * p := Nat.le_mul_of_pos_left p hd.1
  intro heq
  rw [Nat.sub_mul, Nat.mul_assoc 10] at heq
  obtain rfl | rfl : z = 0 ∨ z = 1 := by omega
  · rcases hbytes with rfl | rfl | rfl | hs
    · omega
    · omega
    · have hne := hresidues e (List.mem_range.mpr (by omega)) d (List.mem_range.mpr (by omega)) he.1
        hd.1
      rw [Nat.sub_zero] at hp
      rw [← hp, Nat.sub_mul, Nat.mul_assoc 9] at hne
      omega
    · have hle := Nat.mul_le_mul_left (10 ^ 0 * (d * p + r)) hs
      omega
  · rcases hbytes with rfl | rfl | rfl | hs
    · omega
    · omega
    · omega
    · have hle := Nat.mul_le_mul_left (10 ^ 1 * (d * p + r)) hs
      omega

/-- The point is read as a digit of its own. -/
theorem read_pointed {d d' : Char} {ds : List Char} (h : ∀ c ∈ d :: d' :: ds, c.isDigit = true)
    (hfirst : 1 ≤ d.toNat - '0'.toNat) : read (pointed (d :: d' :: ds)) =
      ↑((10 * (d.toNat - '0'.toNat) - 2) * 10 ^ (d' :: ds).length +
        Nat.ofDigitChars 10 (d' :: ds) 0) := by
  have hpoint : read (pointed (d :: d' :: ds)) = readFrom (digitOf d * 10 - 2) (d' :: ds) := by
    have hcode : digitOf '.' = -2 := rfl
    simp only [read, pointed, readFrom, List.foldl_cons, hcode]
    ring_nf
  have hdigit : ((10 * (d.toNat - '0'.toNat) - 2 : Nat) : Int) =
      ((d.toNat - '0'.toNat : Nat) : Int) * 10 - 2 := by omega
  rw [hpoint, readFrom_digits fun c hc => h c (List.mem_cons_of_mem _ hc),
    digitOf_isDigit (h d List.mem_cons_self), Nat.cast_add, Nat.cast_mul, hdigit, Nat.cast_pow]
  rfl

/-- The first figure of a number is not zero. -/
theorem first_digit_pos {d : Char} {ds : List Char} {z : Nat} (hn : 10 ≤ n)
    (hsplit : Nat.toDigits 10 n = d :: ds ++ List.replicate z '0') : 1 ≤ d.toNat - '0'.toNat := by
  by_contra hnone
  have hlength : (Nat.toDigits 10 n).length = (ds ++ List.replicate z '0').length + 1 := by
    rw [hsplit, List.cons_append, List.length_cons]
  have hmany := mt (Nat.length_toDigits_le_iff (b := 10) (n := n) (k := 1) (by decide)
    (by decide)).mp (by omega)
  have hleast := mt (Nat.length_toDigits_le_iff (b := 10) (n := n)
    (k := (ds ++ List.replicate z '0').length) (by decide) (by omega)).mpr (by omega)
  have hrest : ∀ c ∈ ds ++ List.replicate z '0', c.isDigit = true := by
    intro c hc
    apply toDigits_isDigit n
    rw [hsplit]
    exact List.mem_cons_of_mem _ hc
  have hvalue := congrArg (Nat.ofDigitChars 10 · 0) hsplit
  rw [Nat.ofDigitChars_ten_toDigits, List.cons_append, ofDigitChars_cons,
    Nat.eq_zero_of_not_pos hnone, Nat.mul_zero, Nat.zero_add] at hvalue
  rw [hvalue] at hleast
  exact hleast (ofDigitChars_lt hrest)

/-- A number below `2 ^ 256` that is written with an exponent is read as none of its shifts by
whole bytes. -/
theorem read_scientific_ne (hlow : 10 ^ 21 ≤ n) (hhigh : n < 2 ^ 256) (s : Nat) :
    read (scientific n) ≠ ↑(n * 256 ^ s) := by
  have hmin := mt (Nat.length_toDigits_le_iff (b := 10) (n := n) (k := 21) (by decide)
    (by decide)).mp (by omega)
  have hmax := (Nat.length_toDigits_le_iff (b := 10) (n := n) (k := 78) (by decide)
    (by decide)).mpr (by omega)
  obtain ⟨z, hsplit⟩ := toDigits_eq_significant n
  have hlength : (Nat.toDigits 10 n).length = (significant n).length + z := by
    rw [hsplit, List.length_append, List.length_replicate]
  have hvalue : n = 10 ^ z * Nat.ofDigitChars 10 (significant n) 0 := by
    have h := congrArg (Nat.ofDigitChars 10 · 0) hsplit
    rwa [Nat.ofDigitChars_ten_toDigits, Nat.ofDigitChars_append,
      Nat.ofDigitChars_replicate_zero] at h
  rw [read_scientific (by omega) (by omega)]
  intro heq
  by_cases hz : 2 ≤ z
  · -- the number ends in two zeros, what is read ends in the exponent
    obtain ⟨z, rfl⟩ := Nat.exists_eq_add_of_le hz
    have hmul : n * 256 ^ s =
        100 * (10 ^ z * Nat.ofDigitChars 10 (significant n) 0 * 256 ^ s) := by
      conv_lhs => rw [hvalue, pow_add]
      ring
    rw [hmul] at heq
    push_cast at heq
    omega
  · -- so many digits have a point after the first
    match hds : significant n with
    | [] | [_] =>
      rw [hds] at hlength
      simp only [List.length_nil, List.length_singleton] at hlength
      omega
    | d :: d' :: ds =>
      rw [hds] at hsplit hlength hvalue heq
      rw [List.length_cons] at hlength
      have hfigures : ∀ c ∈ d :: d' :: ds, c.isDigit = true := by
        intro c hc
        apply toDigits_isDigit n
        rw [hsplit]
        exact List.mem_append_left _ hc
      have hd := toNat_of_isDigit (hfigures d List.mem_cons_self)
      have hzero : '0'.toNat = 48 := rfl
      have hplaces : (d' :: ds).length = (Nat.toDigits 10 n).length - 1 - z := by omega
      have hfirst := first_digit_pos (by omega) hsplit
      rw [read_pointed hfigures hfirst] at heq
      rw [ofDigitChars_cons, Nat.mul_comm _ (_ - _)] at hvalue
      apply mantissa_ne (e := (Nat.toDigits 10 n).length - 1) ⟨hfirst, by omega⟩ (by omega)
        (Nat.le_of_lt_succ (Nat.not_le.mp hz)) (congrArg (10 ^ ·) hplaces)
      rw [← hvalue]
      exact_mod_cast heq

theorem read_write (h : n < 10 ^ 21) : read (write 21 n) = n := by
  rw [write, if_pos ((Nat.length_toDigits_le_iff (by decide) (by decide)).mpr h), read_toDigits]

theorem read_write_ne (hlow : 10 ^ 21 ≤ n) (hhigh : n < 2 ^ 256) (s : Nat) :
    read (write 21 n) ≠ ↑(n * 256 ^ s) := by
  have hlong := mt (Nat.length_toDigits_le_iff (b := 10) (n := n) (k := 21) (by decide)
    (by decide)).mp (Nat.not_lt.mpr hlow)
  rw [write, if_neg hlong]
  exact read_scientific_ne hlow hhigh s

end Scientific

end OlsDapp.Lib.Numeral
