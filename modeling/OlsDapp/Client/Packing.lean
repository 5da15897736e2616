import OlsDapp.Client.Presigned

/-!
# The tightly packed message

The parts of a pre-signed message are put one after another without lengths or separators. Each
has a width of its own: four bytes of selector, twenty of each address, thirty-two of each
number. So the bytes can be cut at fixed offsets, and what was packed is read back.
-/

namespace OlsDapp.Client

open Lib

section Definitions

/-- What an address of forty hex digits stands for, with or without `0x`. -/
def addressValue (address : String) : Option Nat :=
  let digits := stripHexPrefix address.toList
  if digits.length = 40 then
    (digits.mapM hexDigit).map fun ds => Nat.ofDigits 16 ds.reverse
  else none

/-- The five values of a message. -/
structure Packed where
  token : Nat
  to_ : Nat
  value : Nat
  fee : Nat
  nonce : Nat
  deriving DecidableEq

def field (bytes : List Byte) (offset width : Nat) : Nat :=
  fromBigEndian ((bytes.drop offset).take width)

/-- The decoder: the message is cut at fixed offsets. -/
def unpack (bytes : List Byte) : Packed where
  token := field bytes 4 20
  to_ := field bytes 24 20
  value := field bytes 44 32
  fee := field bytes 76 32
  nonce := field bytes 108 32

/-- What a message is packed from. -/
structure MessageFields where
  w : Web3
  to_ : String
  value : Nat
  fee : Nat
  nonce : Nat

namespace MessageFields

variable (m : MessageFields)

/-- The bytes that are hashed. -/
def bytes : List Byte := (components m.w m.to_ m.value m.fee m.nonce).flatten

/-- `none` unless both addresses are twenty bytes in hex. -/
def values : Option Packed := do
  let token ← addressValue m.w.tokenAddress
  let to_ ← addressValue m.to_
  return ⟨token, to_, m.value, m.fee, m.nonce⟩

/-- The numbers are 256-bit words. -/
def Words : Prop := m.value < 2 ^ 256 ∧ m.fee < 2 ^ 256 ∧ m.nonce < 2 ^ 256

end MessageFields

end Definitions

section Numerals

theorem hexDigit_lt {c : Char} {d : Nat} (h : hexDigit c = some d) : d < 16 := by
  have hcodes : '0'.toNat = 48 ∧ '9'.toNat = 57 ∧ 'a'.toNat = 97 ∧ 'f'.toNat = 102 ∧
      'A'.toNat = 65 ∧ 'F'.toNat = 70 := by decide
  unfold hexDigit at h
  split at h
  · next hc =>
    obtain rfl := Option.some.inj h
    have hle : c.toNat ≤ '9'.toNat := hc.2
    omega
  · split at h
    · next hc =>
      obtain rfl := Option.some.inj h
      have hle : c.toNat ≤ 'f'.toNat := hc.2
      omega
    · split at h
      · next hc =>
        obtain rfl := Option.some.inj h
        have hle : c.toNat ≤ 'F'.toNat := hc.2
        omega
      · cases h

/-- Two hex digits are one byte: pairs of digits and bytes are the same numeral. -/
theorem bufferFromHex_spec (digits : List Char) (ds : List Nat) (n : Nat)
    (hlength : digits.length = 2 * n) (hds : digits.mapM hexDigit = some ds) :
    (bufferFromHex digits).length = n ∧ ds.length = 2 * n ∧
      fromBigEndian (bufferFromHex digits) = Nat.ofDigits 16 ds.reverse := by
  induction n generalizing digits ds with
  | zero =>
    obtain rfl := List.length_eq_zero_iff.mp hlength
    cases hds
    exact ⟨rfl, rfl, rfl⟩
  | succ n ih =>
    match digits, hlength with
    | a :: b :: rest, hlength =>
      simp only [List.mapM_cons, Option.bind_eq_bind, Option.bind_eq_some_iff, Option.pure_def,
        Option.some.injEq] at hds
      obtain ⟨x, hx, _, ⟨y, hy, zs, hzs, rfl⟩, rfl⟩ := hds
      have hrest : rest.length = 2 * n := by
        simp only [List.length_cons] at hlength
        omega
      obtain ⟨hbytes, hdigits, hvalue⟩ := ih rest zs hrest hzs
      have hbyte : (BitVec.ofNat 8 (16 * x + y)).toNat = 16 * x + y := by
        have hx16 := hexDigit_lt hx
        have hy16 := hexDigit_lt hy
        rw [BitVec.toNat_ofNat]
        omega
      have hpow : (16 : Nat) ^ (2 * n) = 256 ^ n := by
        rw [pow_mul]
        rfl
      simp only [bufferFromHex, hx, hy]
      refine ⟨by rw [List.length_cons, hbytes], ?_, ?_⟩
      · rw [List.length_cons, List.length_cons, hdigits]
        omega
      rw [fromBigEndian_cons, hbytes, hvalue, hbyte, List.reverse_cons, List.reverse_cons,
        Nat.ofDigits_append, Nat.ofDigits_append, Nat.ofDigits_singleton, Nat.ofDigits_singleton,
        List.length_append, List.length_reverse, List.length_singleton, hdigits, pow_succ, hpow]
      ring

theorem formattedAddress_spec {address : String} {a : Nat} (h : addressValue address = some a) :
    (formattedAddress address).length = 20 ∧ fromBigEndian (formattedAddress address) = a := by
  unfold addressValue at h
  dsimp only at h
  split at h
  · next hlength =>
    obtain ⟨ds, hds, rfl⟩ := Option.map_eq_some_iff.mp h
    obtain ⟨hbytes, _, hvalue⟩ := bufferFromHex_spec _ ds 20 hlength hds
    exact ⟨hbytes, hvalue⟩
  · cases h

theorem formattedInt_spec {x : Nat} (h : x < 2 ^ 256) :
    (formattedInt x).length = 32 ∧ fromBigEndian (formattedInt x) = x := by
  have hwidth : 256 ^ 32 = 2 ^ 256 := by decide
  refine ⟨length_bigEndian x 32, ?_⟩
  rw [formattedInt, fromBigEndian_bigEndian, hwidth, Nat.mod_eq_of_lt h]

end Numerals

section Fields

theorem field_append {pre mid post : List Byte} {offset width : Nat} (hpre : pre.length = offset)
    (hmid : mid.length = width) :
    field (pre ++ (mid ++ post)) offset width = fromBigEndian mid := by
  rw [field, List.drop_left' hpre, List.take_left' hmid]

variable {m : MessageFields} {v : Packed}

theorem values_eq_some (h : m.values = some v) :
    addressValue m.w.tokenAddress = some v.token ∧ addressValue m.to_ = some v.to_ ∧
      m.value = v.value ∧ m.fee = v.fee ∧ m.nonce = v.nonce := by
  simp only [MessageFields.values, Option.bind_eq_bind, Option.bind_eq_some_iff, Option.pure_def,
    Option.some.injEq] at h
  obtain ⟨token, htoken, to_, hto, rfl⟩ := h
  exact ⟨htoken, hto, rfl, rfl, rfl⟩

theorem bytes_spec (h : m.values = some v) (hwords : m.Words) :
    m.bytes.length = 140 ∧ unpack m.bytes = v := by
  obtain ⟨htoken, hto, hvalue, hfee, hnonce⟩ := values_eq_some h
  obtain ⟨hvalue_lt, hfee_lt, hnonce_lt⟩ := hwords
  obtain ⟨l₁, e₁⟩ := formattedAddress_spec htoken
  obtain ⟨l₂, e₂⟩ := formattedAddress_spec hto
  obtain ⟨l₃, e₃⟩ := formattedInt_spec hvalue_lt
  obtain ⟨l₄, e₄⟩ := formattedInt_spec hfee_lt
  obtain ⟨l₅, e₅⟩ := formattedInt_spec hnonce_lt
  have l₀ : (bufferFromHex "48664c16".toList).length = 4 := by decide
  have hbytes : m.bytes = bufferFromHex "48664c16".toList ++ (formattedAddress m.w.tokenAddress ++
      (formattedAddress m.to_ ++ (formattedInt m.value ++ (formattedInt m.fee ++
        (formattedInt m.nonce ++ []))))) := by
    simp only [MessageFields.bytes, components, List.flatten_cons, List.flatten_nil,
      Int.natAbs_natCast]
  have htoken_field : field m.bytes 4 20 = v.token := by
    rw [hbytes, field_append l₀ l₁, e₁]
  have hto_field : field m.bytes 24 20 = v.to_ := by
    rw [hbytes, ← List.append_assoc, field_append _ l₂, e₂]
    rw [List.length_append, l₀, l₁]
  have hvalue_field : field m.bytes 44 32 = v.value := by
    rw [hbytes, ← List.append_assoc, ← List.append_assoc, field_append _ l₃, e₃, hvalue]
    simp only [List.length_append, l₀, l₁, l₂]
  have hfee_field : field m.bytes 76 32 = v.fee := by
    rw [hbytes, ← List.append_assoc, ← List.append_assoc, ← List.append_assoc,
      field_append _ l₄, e₄, hfee]
    simp only [List.length_append, l₀, l₁, l₂, l₃]
  have hnonce_field : field m.bytes 108 32 = v.nonce := by
    rw [hbytes, ← List.append_assoc, ← List.append_assoc, ← List.append_assoc,
      ← List.append_assoc, field_append _ l₅, e₅, hnonce]
    simp only [List.length_append, l₀, l₁, l₂, l₃, l₄]
  constructor
  · rw [hbytes]
    simp only [List.length_append, List.length_nil, l₀, l₁, l₂, l₃, l₄, l₅]
  · rw [unpack, htoken_field, hto_field, hvalue_field, hfee_field, hnonce_field]

end Fields

/-- A message of two twenty-byte addresses and three words is 140 bytes long, the decoder reads
its five values back, and a message of other values has other bytes. -/
theorem packing_unambiguous (m : MessageFields) (v : Packed) (h : m.values = some v)
    (hwords : m.Words) :
    m.bytes.length = 140 ∧ unpack m.bytes = v ∧
      ∀ (m' : MessageFields) (v' : Packed), m'.values = some v' → m'.Words → v ≠ v' →
        m.bytes ≠ m'.bytes := by
  obtain ⟨hlength, hunpack⟩ := bytes_spec h hwords
  refine ⟨hlength, hunpack, ?_⟩
  intro m' v' h' hwords' hne heq
  obtain ⟨_, hunpack'⟩ := bytes_spec h' hwords'
  have hsame : v = v' := by rw [← hunpack, heq, hunpack']
  exact hne hsame

/-- One address with a prefix and capitals, the other with neither. -/
def sampleMessage (nonce : Nat) : MessageFields where
  w := { sampleWeb3 with tokenAddress := "0xABCDEF0000000000000000000000000000000001" }
  to_ := "abcdef0000000000000000000000000000000002"
  value := 0
  fee := 2 ^ 256 - 1
  nonce

theorem packing_unambiguous_spellings :
    (sampleMessage 33).bytes.length = 140 ∧
      (unpack (sampleMessage 33).bytes).token + 1 = (unpack (sampleMessage 33).bytes).to_ ∧
        (sampleMessage 33).bytes ≠ (sampleMessage 34).bytes := by
  have hvalues (nonce : Nat) : (sampleMessage nonce).values =
      some ⟨0xabcdef0000000000000000000000000000000001,
        0xabcdef0000000000000000000000000000000002, 0, 2 ^ 256 - 1, nonce⟩ := by
    have htoken : addressValue "0xABCDEF0000000000000000000000000000000001" =
        some 0xabcdef0000000000000000000000000000000001 := by decide +kernel
    have hto : addressValue "abcdef0000000000000000000000000000000002" =
        some 0xabcdef0000000000000000000000000000000002 := by decide +kernel
    rw [MessageFields.values, sampleMessage, htoken, hto]
    rfl
  have hwords (nonce : Nat) (h : nonce < 256) : (sampleMessage nonce).Words := by
    show 0 < 2 ^ 256 ∧ 2 ^ 256 - 1 < 2 ^ 256 ∧ nonce < 2 ^ 256
    omega
  obtain ⟨hlength, hunpack, hother⟩ :=
    packing_unambiguous (sampleMessage 33) _ (hvalues 33) (hwords 33 (by decide))
  refine ⟨hlength, by rw [hunpack], ?_⟩
  exact hother (sampleMessage 34) _ (hvalues 34) (hwords 34 (by decide)) (by decide)

end OlsDapp.Client
