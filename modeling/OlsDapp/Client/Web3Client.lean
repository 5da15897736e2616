import OlsDapp.Lib.BigEndian
import Mathlib.Data.Rat.Lemmas
import Mathlib.Tactic.Common

/-!
# `services/web3.client.ts`: what a send method computes before its promise

Each method turns its input into the parameters it will sign, the key it signs with, the
guard it runs and the message of a refusal. `none` is an exception thrown (or an awaited
call rejected) before the promise is built. Decimal strings are read as their exact value.
web3, bip39, ethereumjs-util and the manager row are the fields of `Web3`.
-/

namespace OlsDapp.Client

open Lib (Byte bigEndian)

structure TransactionInput where
  from_ : String
  to_ : String
  amount : ℚ
  gas : Nat
  gasPrice : ℚ
  deriving DecidableEq

/-- A call of the token contract, before ABI encoding. -/
inductive Method where
  | transfer (to_ : String) (value : Int)
  | transferPreSigned (sig : String) (to_ : String) (value fee : Int) (nonce : Nat)
  deriving DecidableEq

/-- The transaction object handed to `signTransaction`. -/
structure TxParams where
  value : Int
  from_ : Option String
  to_ : String
  gas : Nat
  gasPrice : Option Int
  data : Option Method
  deriving DecidableEq

structure Manager where
  private_key : String
  deriving DecidableEq

structure Web3 where
  /-- `this.token.options.address` -/
  tokenAddress : String
  getPrivateKeyByMnemonicAndSalt : String → String → String
  /-- `privateKeyToAccount(key).address` -/
  accountAddress : String → String
  /-- The node's answer in wei; `none` when the call is rejected. -/
  getGasPrice : Option Nat
  /-- `findOne({id: 1})` on `s_manager_wallet`. -/
  manager : Option Manager
  /-- Whether `encodeABI` accepts the arguments. -/
  encodes : Method → Bool
  sha3 : List Byte → List Byte
  /-- `toRpcSig(ecsign(hash, key))`; `none` when it throws. -/
  ecsign : List Byte → List Byte → Option String

namespace Web3

def ether : Nat := 10 ^ 18
def gwei : Nat := 10 ^ 9

/-- `web3.utils.toWei`: exact scaling, which throws on too many decimals. -/
def toWei (x : ℚ) (unit : Nat) : Option Int :=
  let y := x * unit
  if y.den = 1 then some y.num else none

theorem toWei_natCast (n unit : Nat) : toWei n unit = some ((n * unit : Nat) : Int) := by
  have h : (n : ℚ) * (unit : ℚ) = ((n * unit : Nat) : ℚ) := by
    push_cast
    rfl
  simp only [toWei, h, Rat.den_natCast, Rat.num_natCast, ↓reduceIte]

theorem toWei_one (unit : Nat) : toWei 1 unit = some (unit : Int) := by
  have h := toWei_natCast 1 unit
  rwa [Nat.cast_one, Nat.one_mul] at h

def fromWei (wei : Nat) (unit : Nat) : ℚ := wei / unit

def encodeABI (w : Web3) (m : Method) : Option Method := if w.encodes m then some m else none

/-- `getCurrentGasPrice`, in gwei. -/
def getCurrentGasPrice (w : Web3) : Option ℚ := do
  let price ← w.getGasPrice
  return fromWei price gwei

end Web3

section TightPacked

def hexDigit (c : Char) : Option Nat :=
  if '0' ≤ c ∧ c ≤ '9' then some (c.toNat - '0'.toNat)
  else if 'a' ≤ c ∧ c ≤ 'f' then some (c.toNat - 'a'.toNat + 10)
  else if 'A' ≤ c ∧ c ≤ 'F' then some (c.toNat - 'A'.toNat + 10)
  else none

/-- `Buffer.from(_, 'hex')`: whole pairs of digits, up to the first that is none. -/
def bufferFromHex : List Char → List Byte
  | a :: b :: rest =>
    match hexDigit a, hexDigit b with
    | some x, some y => BitVec.ofNat 8 (16 * x + y) :: bufferFromHex rest
    | _, _ => []
  | _ => []

def stripHexPrefix (s : List Char) : List Char :=
  match s with
  | '0' :: 'x' :: rest => rest
  | _ => s

def formattedAddress (address : String) : List Byte :=
  bufferFromHex (stripHexPrefix address.toList)

/-- `ethUtil.setLengthLeft(int, 32)`. -/
def formattedInt (int : Nat) : List Byte := bigEndian int 32

def hashedTightPacked (w : Web3) (args : List (List Byte)) : List Byte := w.sha3 args.flatten

end TightPacked

/-- The balance check a method runs on its input. -/
inductive Guard where
  | sufficientBalance
  | sufficientTokenBalance
  deriving DecidableEq

/-- What the executor of the method's promise closes over. -/
structure Prepared where
  input : TransactionInput
  guard : Guard
  message : String
  params : TxParams
  key : String
  deriving DecidableEq

open Web3

def sendTransactionByMnemonic (w : Web3) (input : TransactionInput) (mnemonic salt : String) :
    Option Prepared := do
  let privateKey := w.getPrivateKeyByMnemonicAndSalt mnemonic salt
  let params : TxParams :=
    { value := ← toWei input.amount ether
      from_ := some input.from_
      to_ := input.to_
      gas := input.gas
      gasPrice := some (← toWei input.gasPrice gwei)
      data := none }
  return ⟨input, .sufficientBalance, "您的以太坊量不足", params, privateKey⟩

def sendWithdrawalByMnemonic (w : Web3) (input : TransactionInput) (mnemonic salt : String) :
    Option Prepared := do
  let privateKey := w.getPrivateKeyByMnemonicAndSalt mnemonic salt
  let params : TxParams :=
    { value := 0
      from_ := none
      to_ := w.tokenAddress
      gas := 200000
      gasPrice := none
      data := some (← w.encodeABI (.transfer input.to_ (← toWei input.amount ether))) }
  return ⟨input, .sufficientBalance, "您的以太坊量不足", params, privateKey⟩

def sendTokenByMnemonic (w : Web3) (input : TransactionInput) (mnemonic salt : String) :
    Option Prepared := do
  let privateKey := w.getPrivateKeyByMnemonicAndSalt mnemonic salt
  let params : TxParams :=
    { value := 0
      from_ := none
      to_ := w.tokenAddress
      gasPrice := some (← toWei (← w.getCurrentGasPrice) gwei)
      gas := 60000
      data := some (← w.encodeABI (.transfer input.to_ (← toWei input.amount ether))) }
  return ⟨input, .sufficientTokenBalance, "您的代币量不足", params, privateKey⟩

def sendTokenByPrivateKey (w : Web3) (input : TransactionInput) (privateKey : String) :
    Option Prepared := do
  let address := w.accountAddress privateKey
  let params : TxParams :=
    { value := 0
      from_ := some address
      to_ := w.tokenAddress
      gas := input.gas
      gasPrice := some (← toWei input.gasPrice gwei)
      data := some (← w.encodeABI (.transfer input.to_ (← toWei input.amount ether))) }
  -- `input.from = account.address`, before the guard reads the input
  let input := { input with from_ := address }
  return ⟨input, .sufficientTokenBalance, "您的代币量不足", params, privateKey⟩

/-- The fee and the nonce are constants of the source. -/
def transferFee : Nat := 10
def transferNonce : Nat := 33

/-- The parts of the message the user's key signs. -/
def components (w : Web3) (to_ : String) (value fee : Int) (nonce : Nat) : List (List Byte) :=
  [bufferFromHex "48664c16".toList,
    formattedAddress w.tokenAddress,
    formattedAddress to_,
    formattedInt value.natAbs,
    formattedInt fee.natAbs,
    formattedInt nonce]

def sendTokenWithNoEth (w : Web3) (input : TransactionInput) (mnemonic salt : String) :
    Option Prepared := do
  let manager ← w.manager
  let privateKey := w.getPrivateKeyByMnemonicAndSalt mnemonic salt
  let value ← toWei input.amount ether
  let fee ← toWei transferFee ether
  let parts := components w input.to_ value fee transferNonce
  let privateKey1 := bufferFromHex (privateKey.toList.drop 2)
  let sig ← w.ecsign (hashedTightPacked w parts) privateKey1
  let params : TxParams :=
    { value := 0
      from_ := none
      to_ := w.tokenAddress
      gasPrice := some (← toWei (← w.getCurrentGasPrice) gwei)
      gas := 600000
      data := some (← w.encodeABI (.transferPreSigned sig input.to_ value fee transferNonce)) }
  return ⟨input, .sufficientTokenBalance, "您的代币量不足", params, manager.private_key⟩

/-- The guarded send methods with their arguments. -/
inductive SendCall where
  | sendTransactionByMnemonic (input : TransactionInput) (mnemonic salt : String)
  | sendWithdrawalByMnemonic (input : TransactionInput) (mnemonic salt : String)
  | sendTokenByMnemonic (input : TransactionInput) (mnemonic salt : String)
  | sendTokenByPrivateKey (input : TransactionInput) (privateKey : String)
  | sendTokenWithNoEth (input : TransactionInput) (mnemonic salt : String)
  deriving DecidableEq

def SendCall.prepare (w : Web3) : SendCall → Option Prepared
  | .sendTransactionByMnemonic i m s => Client.sendTransactionByMnemonic w i m s
  | .sendWithdrawalByMnemonic i m s => Client.sendWithdrawalByMnemonic w i m s
  | .sendTokenByMnemonic i m s => Client.sendTokenByMnemonic w i m s
  | .sendTokenByPrivateKey i k => Client.sendTokenByPrivateKey w i k
  | .sendTokenWithNoEth i m s => Client.sendTokenWithNoEth w i m s

end OlsDapp.Client
