import Mathlib.Tactic.Common

/-!
# Base64

RFC 4648: three bytes are four digits of six bits, and `=` fills the last group up to four
characters. A text is digits followed by at most two `=`, a multiple of four in all.
-/

namespace OlsDapp.Lib.Base64

/-- The 64 digits. -/
def digit (n : Nat) : Char :=
  if n < 26 then Char.ofNat ('A'.toNat + n)
  else if n < 52 then Char.ofNat ('a'.toNat + (n - 26))
  else if n < 62 then Char.ofNat ('0'.toNat + (n - 52))
  else if n = 62 then '+' else '/'

def value (c : Char) : Option Nat :=
  if 'A' ≤ c ∧ c ≤ 'Z' then some (c.toNat - 'A'.toNat)
  else if 'a' ≤ c ∧ c ≤ 'z' then some (c.toNat - 'a'.toNat + 26)
  else if '0' ≤ c ∧ c ≤ '9' then some (c.toNat - '0'.toNat + 52)
  else if c = '+' then some 62
  else if c = '/' then some 63
  else none

def encode : List UInt8 → List Char
  | a :: b :: c :: rest =>
    digit (a.toNat / 4) :: digit (a.toNat % 4 * 16 + b.toNat / 16) ::
      digit (b.toNat % 16 * 4 + c.toNat / 64) :: digit (c.toNat % 64) :: encode rest
  | [a, b] =>
    [digit (a.toNat / 4), digit (a.toNat % 4 * 16 + b.toNat / 16), digit (b.toNat % 16 * 4), '=']
  | [a] => [digit (a.toNat / 4), digit (a.toNat % 4 * 16), '=', '=']
  | [] => []

/-- `none` for a text that is not base64 with its padding. -/
def decode : List Char → Option (List UInt8)
  | [] => some []
  | w :: x :: y :: z :: rest =>
    match value w, value x, value y, value z with
    | some p, some q, some r, some s =>
      (decode rest).map fun bytes =>
        UInt8.ofNat (p * 4 + q / 16) :: UInt8.ofNat (q % 16 * 16 + r / 4) ::
          UInt8.ofNat (r % 4 * 64 + s) :: bytes
    | some p, some q, some r, none =>
      if z = '=' ∧ rest = [] then
        some [UInt8.ofNat (p * 4 + q / 16), UInt8.ofNat (q % 16 * 16 + r / 4)]
      else none
    | some p, some q, none, none =>
      if y = '=' ∧ z = '=' ∧ rest = [] then some [UInt8.ofNat (p * 4 + q / 16)] else none
    | _, _, _, _ => none
  | _ => none

section Digits

theorem value_digit {n : Nat} (h : n < 64) : value (digit n) = some n := by
  have hall : ∀ n : Fin 64, value (digit n) = some n.val := by decide
  exact hall ⟨n, h⟩

theorem value_pad : value '=' = none := by decide

end Digits

/-- What is encoded is decoded. -/
theorem decode_encode (bytes : List UInt8) : decode (encode bytes) = some bytes := by
  induction bytes using encode.induct with
  | case1 a b c rest ih =>
    have ha := a.toNat_lt
    have hb := b.toNat_lt
    have hc := c.toNat_lt
    have h₁ : a.toNat / 4 * 4 + (a.toNat % 4 * 16 + b.toNat / 16) / 16 = a.toNat := by omega
    have h₂ : (a.toNat % 4 * 16 + b.toNat / 16) % 16 * 16 +
        (b.toNat % 16 * 4 + c.toNat / 64) / 4 = b.toNat := by omega
    have h₃ : (b.toNat % 16 * 4 + c.toNat / 64) % 4 * 64 + c.toNat % 64 = c.toNat := by omega
    simp (disch := omega) only [encode, decode, value_digit]
    rw [ih, h₁, h₂, h₃]
    simp only [Option.map_some, UInt8.ofNat_toNat]
  | case2 a b =>
    have ha := a.toNat_lt
    have hb := b.toNat_lt
    have h₁ : a.toNat / 4 * 4 + (a.toNat % 4 * 16 + b.toNat / 16) / 16 = a.toNat := by omega
    have h₂ : (a.toNat % 4 * 16 + b.toNat / 16) % 16 * 16 + b.toNat % 16 * 4 / 4 = b.toNat := by
      omega
    simp (disch := omega) only [encode, decode, value_digit, value_pad, and_self, ↓reduceIte]
    rw [h₁, h₂]
    simp only [UInt8.ofNat_toNat]
  | case3 a =>
    have ha := a.toNat_lt
    have h₁ : a.toNat / 4 * 4 + a.toNat % 4 * 16 / 16 = a.toNat := by omega
    simp (disch := omega) only [encode, decode, value_digit, value_pad, and_self, ↓reduceIte]
    rw [h₁]
    simp only [UInt8.ofNat_toNat]
  | case4 => rfl

example : encode [0x66, 0x6f] = ['Z', 'm', '8', '='] := by decide

/-- The text of any bytes is digits and then the padding its length asks for. -/
theorem encode_eq_append (bytes : List UInt8) : ∃ body pad,
    encode bytes = body ++ List.replicate pad '=' ∧ (∀ c ∈ body, ∃ n < 64, c = digit n) ∧
      pad ≤ 2 ∧ (body.length + pad) % 4 = 0 := by
  induction bytes using encode.induct with
  | case1 a b c rest ih =>
    obtain ⟨body, pad, heq, hdigits, hpad, hlength⟩ := ih
    have ha := a.toNat_lt
    have hb := b.toNat_lt
    have hc := c.toNat_lt
    refine ⟨_ :: _ :: _ :: _ :: body, pad, by rw [encode, heq]; rfl, ?_, hpad, ?_⟩
    · simp only [List.forall_mem_cons]
      exact ⟨⟨_, by omega, rfl⟩, ⟨_, by omega, rfl⟩, ⟨_, by omega, rfl⟩, ⟨_, by omega, rfl⟩,
        hdigits⟩
    · simp only [List.length_cons]
      omega
  | case2 a b =>
    have ha := a.toNat_lt
    have hb := b.toNat_lt
    refine ⟨[_, _, _], 1, rfl, ?_, by decide, by simp only [List.length_cons, List.length_nil]⟩
    simp only [List.forall_mem_cons]
    exact ⟨⟨_, by omega, rfl⟩, ⟨_, by omega, rfl⟩, ⟨_, by omega, rfl⟩, List.forall_mem_nil _⟩
  | case3 a =>
    have ha := a.toNat_lt
    refine ⟨[_, _], 2, rfl, ?_, by decide, by simp only [List.length_cons, List.length_nil]⟩
    simp only [List.forall_mem_cons]
    exact ⟨⟨_, by omega, rfl⟩, ⟨_, by omega, rfl⟩, List.forall_mem_nil _⟩
  | case4 => exact ⟨[], 0, rfl, List.forall_mem_nil _, by decide, rfl⟩

end OlsDapp.Lib.Base64
