import OlsDapp.Lib.BigEndian
import OlsDapp.Lib.Numeral
import OlsDapp.Token.MyToken

/-!
# Calldata, as abi-decoder and as the contract read it

Both cut the arguments into words of 32 bytes behind the selector. The contract reads zeros where
the calldata has ended; abi-decoder formats the bytes there are, an address as the hex digits at
their end and a number as `BigNumber` writes it, with an exponent from 10^21 on.
-/

namespace OlsDapp.Handler

open Lib
open Token (Address Uint256)

section Definitions

/-- The types of the arguments in the contract's ABI. -/
inductive SolidityType where
  | address
  | uint256
  deriving DecidableEq

def hexPair (byte : Byte) : List Char :=
  [Nat.digitChar (byte.toNat / 16), Nat.digitChar (byte.toNat % 16)]

def hexDigits (bytes : List Byte) : List Char := bytes.flatMap hexPair

/-- An address as web3 receives it from the node. -/
def addressText (address : Address) : String :=
  String.ofList ('0' :: 'x' :: hexDigits (bigEndian address.toNat 20))

/-- `BigNumber.toString` -/
def bigNumberText (value : Nat) : String := String.ofList (Numeral.write 21 value)

/-- `value.slice(value.length - 40, value.length)`, where a negative start counts from the end. -/
def lastForty (value : List Char) : List Char :=
  value.drop (if 40 ≤ value.length then value.length - 40 else 2 * value.length - 40)

/-- The text of an argument, from the bytes of its word that are there. -/
def SolidityType.format (bytes : List Byte) : SolidityType → String
  | .address => String.ofList ('0' :: 'x' :: lastForty (hexDigits bytes))
  | .uint256 => bigNumberText (fromBigEndian bytes)

/-- What there is of the `i`-th argument. -/
def wordBytes (input : List Byte) (i : Nat) : List Byte := (input.drop (4 + 32 * i)).take 32

def decodeParams (types : List SolidityType) (input : List Byte) : List String :=
  types.mapIdx fun i type => type.format (wordBytes input i)

/-- The `i`-th argument for the contract; what is missing at its end reads as zero. -/
def calldataWord (input : List Byte) (i : Nat) : Uint256 :=
  BitVec.ofNat 256
    (fromBigEndian (wordBytes input i ++ List.replicate (32 - (wordBytes input i).length) 0))

/-- The state-changing functions of the contract's ABI. -/
inductive AbiFunction where
  | transfer
  | transferFrom
  | approve
  | increaseApproval
  | decreaseApproval
  | burn
  | burnFrom
  | transferOwnership
  deriving DecidableEq

namespace AbiFunction

def name : AbiFunction → String
  | transfer => "transfer"
  | transferFrom => "transferFrom"
  | approve => "approve"
  | increaseApproval => "increaseApproval"
  | decreaseApproval => "decreaseApproval"
  | burn => "burn"
  | burnFrom => "burnFrom"
  | transferOwnership => "transferOwnership"

def types : AbiFunction → List SolidityType
  | transfer | approve | increaseApproval | decreaseApproval | burnFrom => [.address, .uint256]
  | transferFrom => [.address, .address, .uint256]
  | burn => [.uint256]
  | transferOwnership => [.address]

/-- The call of the contract, with its arguments from the calldata. -/
def call (input : List Byte) : AbiFunction → Token.Call
  | transfer => .transfer ((calldataWord input 0).setWidth 160) (calldataWord input 1)
  | transferFrom => .transferFrom ((calldataWord input 0).setWidth 160)
      ((calldataWord input 1).setWidth 160) (calldataWord input 2)
  | approve => .approve ((calldataWord input 0).setWidth 160) (calldataWord input 1)
  | increaseApproval =>
    .increaseApproval ((calldataWord input 0).setWidth 160) (calldataWord input 1)
  | decreaseApproval =>
    .decreaseApproval ((calldataWord input 0).setWidth 160) (calldataWord input 1)
  | burn => .burn (calldataWord input 0)
  | burnFrom => .burnFrom ((calldataWord input 0).setWidth 160) (calldataWord input 1)
  | transferOwnership => .transferOwnership ((calldataWord input 0).setWidth 160)

end AbiFunction

structure DecodedData where
  name : String
  /-- `params[i].value` -/
  params : List String
  deriving DecidableEq

/-- `abiDecoder` with `config.contracts.token.abi`, and the functions of the deployed contract. -/
structure TokenAbi where
  /-- The selectors of the ABI's functions. -/
  methodIDs : List (List Byte)
  /-- `none` is `undefined`. -/
  decodeMethod : List Byte → Option DecodedData
  /-- The state-changing function of a selector. -/
  functionOf : List Byte → Option AbiFunction
  undefined_iff : ∀ input, decodeMethod input = none ↔ input.take 4 ∉ methodIDs
  decodes : ∀ input f, functionOf (input.take 4) = some f →
    decodeMethod input = some ⟨f.name, decodeParams f.types input⟩
  transfer_named : ∀ input decodedData, decodeMethod input = some decodedData →
    decodedData.name = "transfer" → functionOf (input.take 4) = some .transfer

/-- The call that the contract makes of the calldata. -/
def TokenAbi.dispatch (abi : TokenAbi) (input : List Byte) : Option Token.Call :=
  (abi.functionOf (input.take 4)).map (·.call input)

end Definitions

section Texts

variable {bytes bytes' : List Byte}

theorem length_hexDigits (bytes : List Byte) : (hexDigits bytes).length = 2 * bytes.length := by
  induction bytes with
  | nil => rfl
  | cons b bytes ih =>
    have hcons : hexDigits (b :: bytes) = hexPair b ++ hexDigits bytes := rfl
    have hpair : (hexPair b).length = 2 := rfl
    rw [hcons, List.length_append, ih, hpair, List.length_cons]
    omega

theorem hexDigits_drop (bytes : List Byte) (n : Nat) :
    (hexDigits bytes).drop (2 * n) = hexDigits (bytes.drop n) := by
  induction n generalizing bytes with
  | zero => rfl
  | succ n ih =>
    cases bytes with
    | nil => rfl
    | cons b bytes => exact ih bytes

theorem digitChar_inj : ∀ a < 16, ∀ b < 16, Nat.digitChar a = Nat.digitChar b → a = b := by
  decide

theorem hexDigits_inj (h : hexDigits bytes = hexDigits bytes') : bytes = bytes' := by
  induction bytes generalizing bytes' with
  | nil =>
    cases bytes' with
    | nil => rfl
    | cons => cases h
  | cons b bytes ih =>
    cases bytes' with
    | nil => cases h
    | cons b' bytes' =>
      have hb := b.isLt
      have hb' := b'.isLt
      injection h with hhigh h
      injection h with hlow hrest
      have hhigh := digitChar_inj _ (by omega) _ (by omega) hhigh
      have hlow := digitChar_inj _ (by omega) _ (by omega) hlow
      rw [ih hrest, show b = b' from BitVec.eq_of_toNat_eq (by omega)]

theorem addressText_injective : Function.Injective addressText := by
  intro a b h
  have hlist := String.ofList_injective h
  injection hlist with _ hlist
  injection hlist with _ hlist
  have hmod := (bigEndian_eq_iff _ _ _).mp (hexDigits_inj hlist)
  have ha : a.toNat < 256 ^ 20 := a.isLt
  have hb : b.toNat < 256 ^ 20 := b.isLt
  rw [Nat.mod_eq_of_lt ha, Nat.mod_eq_of_lt hb] at hmod
  exact BitVec.eq_of_toNat_eq hmod

/-- An address of fewer than twenty bytes has too few digits. -/
theorem format_short (h : bytes.length < 20) : (lastForty (hexDigits bytes)).length ≠ 40 := by
  have hlength := length_hexDigits bytes
  rw [lastForty, List.length_drop, hlength]
  split <;> omega

/-- Of twenty bytes or more the last twenty are the address. -/
theorem format_long (h : 20 ≤ bytes.length) : SolidityType.address.format bytes =
    addressText (BitVec.ofNat 160 (fromBigEndian bytes)) := by
  have hlast := fromBigEndian_drop bytes 20 h
  have hlength : (bytes.drop (bytes.length - 20)).length = 20 := by
    rw [List.length_drop]
    omega
  have hbytes := bigEndian_fromBigEndian (bytes.drop (bytes.length - 20))
  rw [hlength, hlast] at hbytes
  have hstart : 2 * bytes.length - 40 = 2 * (bytes.length - 20) := by omega
  have hvalue : (BitVec.ofNat 160 (fromBigEndian bytes)).toNat = fromBigEndian bytes % 256 ^ 20 :=
    BitVec.toNat_ofNat ..
  rw [SolidityType.format, addressText, lastForty, length_hexDigits, if_pos (by omega), hstart,
    hexDigits_drop, hvalue, hbytes]

end Texts

section Words

variable {input : List Byte} {i : Nat}

theorem length_wordBytes (input : List Byte) (i : Nat) :
    (wordBytes input i).length = min 32 (input.length - (4 + 32 * i)) := by
  rw [wordBytes, List.length_take, List.length_drop]

/-- The contract's word is the number of the bytes there are, shifted by those that are not. -/
theorem calldataWord_toNat (input : List Byte) (i : Nat) : (calldataWord input i).toNat =
    fromBigEndian (wordBytes input i) * 256 ^ (32 - (wordBytes input i).length) := by
  have hle : (wordBytes input i).length ≤ 32 := by
    rw [length_wordBytes]
    exact Nat.min_le_left ..
  have hlt := fromBigEndian_lt
    (wordBytes input i ++ List.replicate (32 - (wordBytes input i).length) 0)
  have hwidth : 256 ^ 32 = 2 ^ 256 := by decide
  rw [List.length_append, List.length_replicate, Nat.add_sub_cancel' hle, hwidth] at hlt
  rw [calldataWord, BitVec.toNat_ofNat, Nat.mod_eq_of_lt hlt, fromBigEndian_append,
    List.length_replicate, fromBigEndian_zeros, Nat.add_zero]

/-- The receiver that abi-decoder reads is the contract's when its word is complete, and else only
if both read zero. -/
theorem receiver_eq (h : BitVec.ofNat 160 (fromBigEndian (wordBytes input i)) =
    (calldataWord input i).setWidth 160) :
    (wordBytes input i).length = 32 ∨ (calldataWord input i).setWidth 160 = 0 := by
  by_cases hlength : (wordBytes input i).length = 32
  · exact Or.inl hlength
  · have hle : (wordBytes input i).length ≤ 32 := by
      rw [length_wordBytes]
      exact Nat.min_le_left ..
    have hnat := congrArg BitVec.toNat h
    rw [BitVec.toNat_ofNat, BitVec.toNat_setWidth, calldataWord_toNat] at hnat
    have hzero := eq_zero_of_shift (s := 32 - (wordBytes input i).length) (by omega) hnat.symm
    refine Or.inr (BitVec.eq_of_toNat_eq ?_)
    rw [BitVec.toNat_setWidth, calldataWord_toNat, ← hnat, hzero]
    rfl

theorem receiver_complete (h : (wordBytes input i).length = 32) :
    BitVec.ofNat 160 (fromBigEndian (wordBytes input i)) = (calldataWord input i).setWidth 160 := by
  apply BitVec.eq_of_toNat_eq
  rw [BitVec.toNat_ofNat, BitVec.toNat_setWidth, calldataWord_toNat, h, Nat.sub_self, pow_zero,
    Nat.mul_one]

end Words

end OlsDapp.Handler
