import Mathlib.Data.Nat.Digits.Lemmas
import Mathlib.Data.Nat.Prime.Basic
import Mathlib.Tactic.Ring

/-!
# Big-endian bytes

A number as the bytes of a word and bytes as the number they stand for. Zero bytes put at the end
of a word multiply what it stands for by a power of 256.
-/

namespace OlsDapp.Lib

abbrev Byte := BitVec 8

/-- The `n` low bytes of `x`, the most significant first. -/
def bigEndian (x : Nat) : Nat → List Byte
  | 0 => []
  | n + 1 => BitVec.ofNat 8 (x / 256 ^ n) :: bigEndian x n

/-- The number big-endian bytes stand for. -/
def fromBigEndian (bytes : List Byte) : Nat := Nat.ofDigits 256 (bytes.map BitVec.toNat).reverse

theorem length_bigEndian (x n : Nat) : (bigEndian x n).length = n := by
  induction n with
  | zero => rfl
  | succ n ih => rw [bigEndian, List.length_cons, ih]

/-- A word of `n` bytes holds a number up to multiples of `256 ^ n`. -/
theorem bigEndian_eq_iff (x y n : Nat) :
    bigEndian x n = bigEndian y n ↔ x % 256 ^ n = y % 256 ^ n := by
  induction n with
  | zero =>
    rw [pow_zero, Nat.mod_one, Nat.mod_one]
    exact iff_of_true rfl rfl
  | succ n ih =>
    have hpos : 0 < 256 ^ n := Nat.pow_pos (by decide)
    have hsplit (z : Nat) : z % 256 ^ (n + 1) = z % 256 ^ n + 256 ^ n * (z / 256 ^ n % 2 ^ 8) :=
      Nat.mod_pow_succ
    rw [bigEndian, bigEndian, List.cons.injEq, ih, ← BitVec.toNat_inj, BitVec.toNat_ofNat,
      BitVec.toNat_ofNat, hsplit, hsplit]
    constructor
    · intro hgiven
      obtain ⟨hhead, htail⟩ := hgiven
      rw [htail, hhead]
    · intro h
      have htail : x % 256 ^ n = y % 256 ^ n := by
        have hmod := congrArg (· % 256 ^ n) h
        simpa only [Nat.add_mul_mod_self_left, Nat.mod_mod] using hmod
      rw [htail] at h
      exact ⟨Nat.eq_of_mul_eq_mul_left hpos (Nat.add_left_cancel h), htail⟩

theorem fromBigEndian_cons (b : Byte) (bs : List Byte) :
    fromBigEndian (b :: bs) = fromBigEndian bs + 256 ^ bs.length * b.toNat := by
  rw [fromBigEndian, List.map_cons, List.reverse_cons, Nat.ofDigits_append, Nat.ofDigits_singleton,
    List.length_reverse, List.length_map]
  rfl

theorem fromBigEndian_bigEndian (x n : Nat) : fromBigEndian (bigEndian x n) = x % 256 ^ n := by
  induction n with
  | zero =>
    rw [pow_zero, Nat.mod_one]
    rfl
  | succ n ih =>
    have hsplit : x % 256 ^ (n + 1) = x % 256 ^ n + 256 ^ n * (x / 256 ^ n % 2 ^ 8) :=
      Nat.mod_pow_succ
    rw [bigEndian, fromBigEndian_cons, ih, length_bigEndian, BitVec.toNat_ofNat, hsplit]

theorem fromBigEndian_append (a b : List Byte) :
    fromBigEndian (a ++ b) = fromBigEndian a * 256 ^ b.length + fromBigEndian b := by
  induction a with
  | nil =>
    have hnil : fromBigEndian [] = 0 := rfl
    rw [List.nil_append, hnil, Nat.zero_mul, Nat.zero_add]
  | cons x a ih =>
    rw [List.cons_append, fromBigEndian_cons, ih, fromBigEndian_cons, List.length_append, pow_add]
    ring

theorem fromBigEndian_lt (bytes : List Byte) : fromBigEndian bytes < 256 ^ bytes.length := by
  induction bytes with
  | nil => exact Nat.one_pos
  | cons b bs ih =>
    have hb : 256 ^ bs.length * (b.toNat + 1) ≤ 256 ^ bs.length * 256 :=
      Nat.mul_le_mul_left _ b.isLt
    rw [Nat.mul_succ] at hb
    rw [fromBigEndian_cons, List.length_cons, pow_succ]
    omega

theorem fromBigEndian_zeros (n : Nat) : fromBigEndian (List.replicate n 0) = 0 := by
  induction n with
  | zero => rfl
  | succ n ih =>
    have hzero : (0 : Byte).toNat = 0 := rfl
    rw [List.replicate_succ, fromBigEndian_cons, ih, hzero, Nat.mul_zero]

theorem bigEndian_fromBigEndian (bytes : List Byte) :
    bigEndian (fromBigEndian bytes) bytes.length = bytes := by
  induction bytes with
  | nil => rfl
  | cons b bs ih =>
    have hlt := fromBigEndian_lt bs
    have hhead : (fromBigEndian bs + 256 ^ bs.length * b.toNat) / 256 ^ bs.length = b.toNat := by
      rw [Nat.add_mul_div_left _ _ (Nat.pow_pos (by decide)), Nat.div_eq_of_lt hlt, Nat.zero_add]
    have htail : bigEndian (fromBigEndian bs + 256 ^ bs.length * b.toNat) bs.length = bs := by
      rw [(bigEndian_eq_iff _ (fromBigEndian bs) _).mpr (Nat.add_mul_mod_self_left ..), ih]
    rw [fromBigEndian_cons, List.length_cons, bigEndian, hhead, htail, BitVec.ofNat_toNat]
    exact congrArg (· :: bs) (BitVec.setWidth_eq b)

/-- The last bytes of a word are its remainder. -/
theorem fromBigEndian_drop (bytes : List Byte) (n : Nat) (h : n ≤ bytes.length) :
    fromBigEndian (bytes.drop (bytes.length - n)) = fromBigEndian bytes % 256 ^ n := by
  have hlength : (bytes.drop (bytes.length - n)).length = n := by
    rw [List.length_drop]
    omega
  have hlt := fromBigEndian_lt (bytes.drop (bytes.length - n))
  have hsplit := fromBigEndian_append (bytes.take (bytes.length - n))
    (bytes.drop (bytes.length - n))
  rw [List.take_append_drop, hlength] at hsplit
  rw [hlength] at hlt
  rw [hsplit, Nat.mul_add_mod_self_right, Nat.mod_eq_of_lt hlt]

/-- Bytes that are the same number whether zeros follow them or not are no number of `k` bits. -/
theorem eq_zero_of_shift {n k s : Nat} (hs : 0 < s) (h : n * 256 ^ s % 2 ^ k = n % 2 ^ k) :
    n % 2 ^ k = 0 := by
  have hpos : 0 < 256 ^ s := Nat.pow_pos (by decide)
  have hle : n ≤ n * 256 ^ s := Nat.le_mul_of_pos_right n hpos
  have hdvd : 2 ^ k ∣ n * (256 ^ s - 1) := by
    rw [Nat.mul_sub_one]
    exact (Nat.modEq_iff_dvd' hle).mp h.symm
  have heven : Even (256 ^ s) := (show Even 256 by decide).pow_of_ne_zero hs.ne'
  have hodd : Odd (256 ^ s - 1) := Nat.Even.sub_odd hpos heven odd_one
  have hcoprime : Nat.Coprime (2 ^ k) (256 ^ s - 1) :=
    Nat.Coprime.pow_left k (Nat.coprime_two_left.mpr hodd)
  exact Nat.mod_eq_zero_of_dvd (hcoprime.dvd_of_dvd_mul_right hdvd)

end OlsDapp.Lib
