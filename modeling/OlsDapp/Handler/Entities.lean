import OlsDapp.Lib.Table
import Mathlib.Data.Rat.Defs

/-!
# Entities, the database and the node

The columns the handler reads or writes, under the names of `src/entities`. An amount is
the text or the column value the code holds: `parseFloat` makes a number of it, and a sum
of numbers goes back as text.
-/

namespace OlsDapp.Handler

open Lib (Row Table)

section Amounts

inductive Amount where
  | null
  /-- `'NaN'`, or any text `parseFloat` does not read. -/
  | nan
  | num (x : ℚ)
  deriving DecidableEq

/-- A JavaScript number; `none` is `NaN`. -/
abbrev Number := Option ℚ

def parseFloat : Amount → Number
  | .num x => some x
  | .null => none
  | .nan => none

def Number.add (x y : Number) : Number :=
  x.bind fun a => y.map fun b => a + b

def Number.toAmount : Number → Amount
  | some x => .num x
  | none => .nan

end Amounts

/-- `TRANSACTION_STATUS_PENDING`, `_CONFIRMED` and `_FAILED`: '0', '1' and '2'. -/
inductive TxStatus where
  | pending
  | confirmed
  | failed
  deriving DecidableEq

/-- `ETHEREUM_TRANSFER` and `OLS_TRANSFER`: 'eth' and 'ols'. -/
inductive TxType where
  | eth
  | ols
  deriving DecidableEq

structure Transaction where
  transactionHash : String
  timestamp : Nat
  blockNumber : Nat
  from_ : String
  to_ : String
  ethAmount : Amount
  tokenAmount : Amount
  status : TxStatus
  type : TxType
  deriving DecidableEq

structure UOlsWallet where
  u_user_id : Option Nat
  eth_address : Option String
  amount : Amount
  charge_amount : Amount
  draw_amount : Amount
  deriving DecidableEq

structure UOlsMyzr where
  u_user_id : Nat
  addr : String
  coinname : TxType
  type : Nat
  txhash : String
  num : Amount
  created_at : Nat
  status : Nat
  deriving DecidableEq

structure UOlsMyzc where
  u_user_id : Nat
  txhash : String
  status : Nat
  deriving DecidableEq

structure SManagerWallet where
  eth_address : String
  deriving DecidableEq

structure Db where
  transaction : Table Transaction
  uOlsWallet : Table UOlsWallet
  uOlsMyzr : Table UOlsMyzr
  uOlsMyzc : Table UOlsMyzc
  sManagerWallet : Table SManagerWallet

/-- A `Transfer` log as web3 delivers it; `from`, `to` and `value` are `returnValues`. -/
structure TransferEvent where
  transactionHash : String
  logIndex : Nat
  blockNumber : Nat
  from_ : String
  to_ : String
  value : Nat
  deriving DecidableEq

structure Receipt where
  status : Bool
  deriving DecidableEq

structure Block where
  timestamp : Nat
  number : Nat
  deriving DecidableEq

/-- What the node and MySQL answer. -/
structure Env where
  getTransactionReceipt : String → Option Receipt
  getBlock : Nat → Option Block
  /-- `Math.round(+new Date() / 1000)` -/
  now : Nat
  /-- Strict mode: an insert that omits a column without default fails. -/
  strict : Bool
  /-- What a `DOUBLE(10,2)` column keeps of a written value; `none` when it is refused. -/
  double : Amount → Option Amount
  /-- The same for `DECIMAL(20,8)`. -/
  decimal : Amount → Option Amount

/-- `config.web3` -/
structure Config where
  startBlock : Nat
  blockOffset : Nat
  deriving DecidableEq

end OlsDapp.Handler
