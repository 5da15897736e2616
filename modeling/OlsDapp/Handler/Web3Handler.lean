import OlsDapp.Handler.Entities
import Mathlib.Data.Rat.Cast.Defs

/-!
# `events/handlers/web3.handler.ts`

The parts of the handler between two awaits, and the handler run without interruption,
each effect to its end. A list of notes records which calls were made on the way.
-/

namespace OlsDapp.Handler

open Lib (Row Table)

/-- `web3.utils.fromWei` -/
def fromWei (value : Nat) : ℚ := value / (10 ^ 18 : Nat)

def getTxStatusByReceipt (receipt : Receipt) : TxStatus :=
  if receipt.status = true then .confirmed else .failed

/-- The call is not awaited, and a promise is truthy whatever it resolves to. -/
def checkMemberAddress (_addr : String) : Bool := true

def checkTokenTransfer (type : TxType) : Bool := type = .ols

/-- The calls a run makes and the writes it completes. -/
inductive Note where
  | processReceivedEthOrToken (data : TransferEvent) (tx : Row Transaction)
  | addUserCoin (data : TransferEvent) (user : Nat) (amount : Amount)
  | addUserDrawCoin (data : TransferEvent) (user : Nat) (amount : Amount)
  /-- `addUserCoin` saved the wallet. -/
  | credited (data : TransferEvent) (user : Nat) (amount : Amount)
  /-- `processWithdrawEthOrToken` saved the record. -/
  | settled (data : TransferEvent) (record status : Nat)
  /-- A `processTokenTransfer` call of the scan returned. -/
  | handled (data : TransferEvent)
  /-- A scan that fetched these events stored its cursor. -/
  | lastCheckedBlock (currentBlock : Nat) (transferEvents : List TransferEvent)
  deriving DecidableEq

section ProcessTokenTransfer

/-- The `where` of the duplicate check. -/
def TransferEvent.matches (data : TransferEvent) (tx : Transaction) : Bool :=
  tx.transactionHash = data.transactionHash ∧ tx.type = .ols ∧ tx.from_ = data.from_ ∧
    tx.to_ = data.to_

theorem matches_iff {data : TransferEvent} {tx : Transaction} : data.matches tx = true ↔
    tx.transactionHash = data.transactionHash ∧ tx.type = .ols ∧ tx.from_ = data.from_ ∧
      tx.to_ = data.to_ := by
  rw [TransferEvent.matches, decide_eq_true_iff]

def transformedTxData (env : Env) (data : TransferEvent) (receipt : Receipt) : Transaction :=
  let blockData := env.getBlock data.blockNumber
  { transactionHash := data.transactionHash
    from_ := data.from_
    type := .ols
    to_ := data.to_
    ethAmount := .num 0
    tokenAmount := .num (fromWei data.value)
    status := getTxStatusByReceipt receipt
    timestamp := (blockData.map (·.timestamp)).getD env.now
    blockNumber := (blockData.map (·.number)).getD data.blockNumber }

/-- `tx.status = status; tx.blockNumber = blockNumber` -/
def Transaction.updated (tx transformed : Transaction) : Transaction :=
  { tx with status := transformed.status, blockNumber := transformed.blockNumber }

/-- The save the handler makes, with the row it hands on. -/
inductive Save where
  | create (newTx : Transaction)
  | update (tx : Row Transaction)
  deriving DecidableEq

/-- What is left to save once the node has answered: nothing for a row that is settled. -/
def saveOf (tx : Option (Row Transaction)) (transformed : Transaction) : Option Save :=
  match tx with
  | none => some (.create transformed)
  | some tx =>
    if tx.val.status = .pending then some (.update ⟨tx.id, tx.val.updated transformed⟩) else none

def Save.run (db : Db) : Save → Db × Row Transaction
  | .create newTx =>
    ({ db with transaction := db.transaction.insert newTx }, ⟨db.transaction.nextId, newTx⟩)
  | .update tx => ({ db with transaction := db.transaction.save tx }, tx)

/-- `processTokenTransfer` up to the call it does not await; the row is the call's argument. -/
def processTokenTransfer (env : Env) (db : Db) (data : TransferEvent) :
    Db × Option (Row Transaction) :=
  let tx := db.transaction.findOne data.matches
  match env.getTransactionReceipt data.transactionHash with
  | none => (db, none)
  | some receipt =>
    match saveOf tx (transformedTxData env data receipt) with
    | none => (db, none)
    | some save => ((save.run db).1, some (save.run db).2)

end ProcessTokenTransfer

section Helpers

/-- `addUserCoin` up to its save. -/
def addUserCoin (user : UOlsWallet) (type : TxType) (amount : Amount) : UOlsWallet :=
  if type = .ols then
    { user with
      charge_amount := ((parseFloat user.charge_amount).add (parseFloat amount)).toAmount
      amount := ((parseFloat user.amount).add (parseFloat amount)).toAmount }
  else user

/-- `addUserDrawCoin` up to its save. -/
def addUserDrawCoin (user : UOlsWallet) (type : TxType) (amount : Amount) : UOlsWallet :=
  if type = .ols then
    { user with draw_amount := ((parseFloat user.draw_amount).add (parseFloat amount)).toAmount }
  else user

/-- The columns as MySQL keeps them; `none` when it refuses one. -/
def UOlsWallet.stored (env : Env) (user : UOlsWallet) : Option UOlsWallet := do
  let amount ← env.double user.amount
  let charge_amount ← env.double user.charge_amount
  let draw_amount ← env.double user.draw_amount
  return { user with amount, charge_amount, draw_amount }

/-- `memberRepo.save(user)`; a refused save changes nothing. -/
def saveWallet (env : Env) (db : Db) (user : Row UOlsWallet) : Option Db := do
  let stored ← user.val.stored env
  return { db with uOlsWallet := db.uOlsWallet.save ⟨user.id, stored⟩ }

end Helpers

section Deposits

/-- The literal of `processChargeEthOrToken`. -/
structure MyzrData where
  userid : Nat
  username : String
  coinname : TxType
  type : Nat
  txid : String
  num : Amount
  mum : Amount
  fee : Amount
  addtime : Nat
  status : Nat
  deriving DecidableEq

/-- A deposit entity before its insert; `none` is a property that was never set. -/
structure MyzrEntity where
  u_user_id : Option Nat
  addr : Option String
  coinname : Option TxType
  type : Option Nat
  txhash : Option String
  num : Option Amount
  created_at : Option Nat
  status : Option Nat
  deriving DecidableEq

/-- `myzrRepo.create` keeps the properties that are columns of the entity. -/
def MyzrData.create (data : MyzrData) : MyzrEntity where
  u_user_id := none
  addr := none
  coinname := some data.coinname
  type := some data.type
  txhash := none
  num := some data.num
  created_at := none
  status := some data.status

/-- A column that was not set: its default, else an error in strict mode, else zero. -/
def Env.column {α : Type} (env : Env) (value default_ : Option α) (zero : α) : Option α :=
  value.or (default_.or (if env.strict then none else some zero))

def MyzrEntity.row (env : Env) (entity : MyzrEntity) : Option UOlsMyzr := do
  let u_user_id ← env.column entity.u_user_id none 0
  let addr ← env.column entity.addr none ""
  let coinname ← env.column entity.coinname (some .ols) .ols
  let type ← env.column entity.type (some 0) 0
  let txhash ← env.column entity.txhash (some "") ""
  let num ← env.decimal (← env.column entity.num none (.num 0))
  let created_at ← env.column entity.created_at none 0
  let status ← env.column entity.status none 0
  return { u_user_id, addr, coinname, type, txhash, num, created_at, status }

/-- `myzrRepo.save(newTx)`; a refused insert changes nothing. -/
def saveMyzr (env : Env) (db : Db) (entity : MyzrEntity) : Db :=
  match entity.row env with
  | some row => { db with uOlsMyzr := db.uOlsMyzr.insert row }
  | none => db

end Deposits

section Effects

/-- Where an effect of `processReceivedEthOrToken` waits, with what it holds. -/
inductive EffectPc where
  /-- `managerRepo.findOne({id: 1})` -/
  | manager
  /-- `memberRepo.findOne` in `processChargeEthOrToken`. -/
  | charge
  | addUserCoin (user : Row UOlsWallet) (amount : Amount)
  | saveMyzr (newTx : MyzrEntity)
  /-- `memberRepo.findOne` in `processTransferEthOrToken`. -/
  | transfer
  | addUserDrawCoin (user : Row UOlsWallet) (amount : Amount)
  /-- `withdrawRepo.findOne` in `processWithdrawEthOrToken`. -/
  | withdraw
  /-- `memberRepo.findOne(withdrawRecord.u_user_id)`, whose answer is not used. -/
  | withdrawUser (withdrawRecord : Row UOlsMyzc)
  | saveWithdraw (withdrawRecord : Row UOlsMyzc)
  deriving DecidableEq

structure Effect where
  data : TransferEvent
  tx : Row Transaction
  pc : EffectPc
  deriving DecidableEq

/-- The three cases of `processReceivedEthOrToken`. -/
def route (managerAddress : String) (tx : Transaction) : Option EffectPc :=
  if checkMemberAddress tx.to_ ∧ tx.from_ ≠ managerAddress then some .charge
  else if checkMemberAddress tx.from_ ∧ tx.to_ = managerAddress then some .transfer
  else if tx.from_ = managerAddress then some .withdraw
  else none

def Transaction.coins (tx : Transaction) : Amount :=
  if checkTokenTransfer tx.type then tx.tokenAmount else tx.ethAmount

def myzrData (tx : Transaction) (user : Row UOlsWallet) (amount : Amount) : MyzrData where
  userid := user.id
  username := tx.from_
  coinname := tx.type
  type := 1
  txid := tx.transactionHash
  num := amount
  mum := amount
  fee := .num 0
  addtime := tx.timestamp
  status := 1

/-- What an effect does when the call it awaits has been served. -/
structure Outcome where
  db : Db
  next : List EffectPc
  notes : List Note

/-- The step of an effect from each place it can wait at. Charging goes on in two parts,
since `addUserCoin` is not awaited. -/
def Effect.resume (env : Env) (db : Db) (e : Effect) : Outcome :=
  let tx := e.tx.val
  match e.pc with
  | .manager =>
    match db.sManagerWallet.findById 1 with
    | some manager => ⟨db, (route manager.val.eth_address tx).toList, []⟩
    -- `manager.eth_address` of `undefined`
    | none => ⟨db, [], []⟩
  | .charge =>
    if tx.status = .confirmed then
      match db.uOlsWallet.findOne fun user => user.eth_address = some tx.to_ with
      | some user =>
        ⟨db, [.addUserCoin user tx.coins, .saveMyzr (myzrData tx user tx.coins).create],
          [.addUserCoin e.data user.id tx.coins]⟩
      | none => ⟨db, [], []⟩
    else ⟨db, [], []⟩
  | .addUserCoin user amount =>
    match saveWallet env db ⟨user.id, addUserCoin user.val tx.type amount⟩ with
    | some db => ⟨db, [], [.credited e.data user.id amount]⟩
    | none => ⟨db, [], []⟩
  | .saveMyzr newTx => ⟨saveMyzr env db newTx, [], []⟩
  | .transfer =>
    if tx.status = .confirmed then
      match db.uOlsWallet.findOne fun user => user.eth_address = some tx.from_ with
      | some user =>
        ⟨db, [.addUserDrawCoin user tx.coins], [.addUserDrawCoin e.data user.id tx.coins]⟩
      | none => ⟨db, [], []⟩
    else ⟨db, [], []⟩
  | .addUserDrawCoin user amount =>
    match saveWallet env db ⟨user.id, addUserDrawCoin user.val tx.type amount⟩ with
    | some db => ⟨db, [], []⟩
    | none => ⟨db, [], []⟩
  | .withdraw =>
    match db.uOlsMyzc.findOne fun record => record.txhash = tx.transactionHash with
    | some record =>
      if tx.status = .confirmed then
        ⟨db, [.withdrawUser ⟨record.id, { record.val with status := 2 }⟩], []⟩
      else ⟨db, [.saveWithdraw ⟨record.id, { record.val with status := 3 }⟩], []⟩
    | none => ⟨db, [], []⟩
  | .withdrawUser record => ⟨db, [.saveWithdraw record], []⟩
  | .saveWithdraw record =>
    ⟨{ db with uOlsMyzc := db.uOlsMyzc.save record }, [],
      [.settled e.data record.id record.val.status]⟩

end Effects

end OlsDapp.Handler
