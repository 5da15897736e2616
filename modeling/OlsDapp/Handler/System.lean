import OlsDapp.Handler.Web3Handler
import OlsDapp.Lib.InFlight
import OlsDapp.Lib.Machine

/-!
# The handler as a system of interleaved calls

Every await is a point at which any other call may go on. A label is one of those choices,
an answer from outside, or a failure. The websocket subscription starts calls of
`processTokenTransfer` at any time, the scan of `checkAndRestoreTransactions` starts them
one by one. Only the database and the redis cursor outlive a crash; `history` is no part of
the process and records its notes, the latest first.
-/

namespace OlsDapp.Handler

open Lib (Row Table)
open Lib.InFlight (resume)

/-- Where a call of `processTokenTransfer` waits, with what it holds. -/
inductive RunPc where
  | findOne
  | getTransactionReceipt (tx : Option (Row Transaction))
  | getBlock (tx : Option (Row Transaction)) (transactionReceipt : Receipt)
  | save (save : Save)
  deriving DecidableEq

structure Run where
  data : TransferEvent
  /-- The scan awaits this call. -/
  awaited : Bool
  pc : RunPc
  deriving DecidableEq

/-- What a call of `processTokenTransfer` does when its await is over: it waits again or
returns, having started an effect or not. -/
inductive RunStep where
  | waits (pc : RunPc)
  | returns
  | starts (db : Db) (tx : Row Transaction)

def Run.resume (env : Env) (db : Db) (r : Run) : RunStep :=
  match r.pc with
  | .findOne => .waits (.getTransactionReceipt (db.transaction.findOne r.data.matches))
  | .getTransactionReceipt tx =>
    match env.getTransactionReceipt r.data.transactionHash with
    | some receipt => .waits (.getBlock tx receipt)
    | none => .returns
  | .getBlock tx receipt =>
    match saveOf tx (transformedTxData env r.data receipt) with
    | some save => .waits (.save save)
    | none => .returns
  | .save save => .starts (save.run db).1 (save.run db).2

section Resume

variable {env : Env} {db : Db} {r : Run}

theorem resume_waits {pc : RunPc} (h : r.resume env db = .waits pc) :
    (r.pc = .findOne ∧ pc = .getTransactionReceipt (db.transaction.findOne r.data.matches)) ∨
      (∃ tx receipt, r.pc = .getTransactionReceipt tx ∧
        env.getTransactionReceipt r.data.transactionHash = some receipt ∧
          pc = .getBlock tx receipt) ∨
      ∃ tx receipt save, r.pc = .getBlock tx receipt ∧
        saveOf tx (transformedTxData env r.data receipt) = some save ∧ pc = .save save := by
  unfold Run.resume at h
  split at h
  · next hpc =>
    cases h
    exact Or.inl ⟨hpc, rfl⟩
  · next tx hpc =>
    split at h
    · next receipt hreceipt =>
      cases h
      exact Or.inr (Or.inl ⟨tx, receipt, hpc, hreceipt, rfl⟩)
    · cases h
  · next tx receipt hpc =>
    split at h
    · next save hsave =>
      cases h
      exact Or.inr (Or.inr ⟨tx, receipt, save, hpc, hsave, rfl⟩)
    · cases h
  · cases h

/-- A call ends without a save when there is no receipt yet or its row is settled. -/
theorem resume_returns (h : r.resume env db = .returns) :
    env.getTransactionReceipt r.data.transactionHash = none ∨
      ∃ tx receipt, r.pc = .getBlock tx receipt ∧
        saveOf tx (transformedTxData env r.data receipt) = none := by
  unfold Run.resume at h
  split at h
  · cases h
  · split at h
    · cases h
    · next hnone => exact Or.inl hnone
  · next tx receipt hpc =>
    split at h
    · cases h
    · next hnone => exact Or.inr ⟨tx, receipt, hpc, hnone⟩
  · cases h

theorem resume_starts {db' : Db} {tx : Row Transaction} (h : r.resume env db = .starts db' tx) :
    ∃ save, r.pc = .save save ∧ db' = (save.run db).1 ∧ tx = (save.run db).2 := by
  unfold Run.resume at h
  split at h
  · cases h
  · split at h <;> cases h
  · split at h <;> cases h
  · next save hpc =>
    cases h
    exact ⟨save, hpc, rfl, rfl⟩

end Resume

/-- Where `checkAndRestoreTransactions` waits, with what it holds. -/
inductive Job where
  | idle
  | getBlockNumber
  | redisGet (currentBlock : Nat)
  | getPastEvents (currentBlock : Nat) (fromBlock : Int)
  /-- At the head of the loop, before the events of `rest`. -/
  | loop (currentBlock : Nat) (transferEvents rest : List TransferEvent)
  | processTokenTransfer (currentBlock : Nat) (transferEvents : List TransferEvent)
      (event : TransferEvent) (rest : List TransferEvent)
  | redisSet (currentBlock : Nat) (transferEvents : List TransferEvent)
  deriving DecidableEq

structure Sys where
  db : Db
  /-- `lastCheckedBlock` -/
  redis : Option Nat
  runs : List Run
  effects : List Effect
  job : Job
  history : List Note

inductive Label where
  /-- The subscription delivers a log. -/
  | deliver (data : TransferEvent)
  | run (r : Run)
  | runFails (r : Run)
  | effect (e : Effect)
  | effectFails (e : Effect)
  | jobStarts
  | blockNumber (currentBlock : Nat)
  | redisGet
  | pastEvents (transferEvents : List TransferEvent)
  | nextEvent
  | redisSet
  | jobFails
  | crash
  /-- The other writer of `u_ols_myzc` stores the hash of a withdrawal it has sent. -/
  | storeTxhash (record : Nat) (txhash : String)
  deriving DecidableEq

def Config.fromBlock (cfg : Config) (lastCheckedBlock : Option Nat) : Int :=
  (lastCheckedBlock.getD cfg.startBlock : Int) - cfg.blockOffset

namespace Sys

/-- The call leaves the list; the scan goes on when it awaited it. -/
def returned (s : Sys) (r : Run) : Sys :=
  match s.job with
  | .processTokenTransfer currentBlock transferEvents _ rest =>
    if r.awaited then
      { s with
        runs := s.runs.erase r
        job := .loop currentBlock transferEvents rest
        history := .handled r.data :: s.history }
    else { s with runs := s.runs.erase r }
  | _ => { s with runs := s.runs.erase r }

/-- The call threw, and so does the scan when it awaited it. -/
def threw (s : Sys) (r : Run) : Sys :=
  { s with runs := s.runs.erase r, job := if r.awaited then .idle else s.job }

def start (db : Db) (redis : Option Nat) : Sys := ⟨db, redis, [], [], .idle, []⟩

end Sys

def step (cfg : Config) (env : Env) (s : Sys) : Label → Option Sys
  | .deliver data => some { s with runs := ⟨data, false, .findOne⟩ :: s.runs }
  | .run r =>
    if r ∈ s.runs then
      match r.resume env s.db with
      | .waits pc => some { s with runs := resume s.runs r [{ r with pc }] }
      | .returns => some (s.returned r)
      | .starts db tx =>
        some ({ s with
          db
          effects := ⟨r.data, tx, .manager⟩ :: s.effects
          history := .processReceivedEthOrToken r.data tx :: s.history }.returned r)
    else none
  | .runFails r => if r ∈ s.runs then some (s.threw r) else none
  | .effect e =>
    if e ∈ s.effects then
      let o := e.resume env s.db
      some { s with
        db := o.db
        effects := resume s.effects e (o.next.map fun pc => { e with pc })
        history := o.notes ++ s.history }
    else none
  | .effectFails e => if e ∈ s.effects then some { s with effects := s.effects.erase e } else none
  | .jobStarts => if s.job = .idle then some { s with job := .getBlockNumber } else none
  | .blockNumber currentBlock =>
    if s.job = .getBlockNumber then some { s with job := .redisGet currentBlock } else none
  | .redisGet =>
    match s.job with
    | .redisGet currentBlock =>
      some { s with job := .getPastEvents currentBlock (cfg.fromBlock s.redis) }
    | _ => none
  | .pastEvents transferEvents =>
    match s.job with
    | .getPastEvents currentBlock _ =>
      some { s with job := .loop currentBlock transferEvents transferEvents }
    | _ => none
  | .nextEvent =>
    match s.job with
    | .loop currentBlock transferEvents (event :: rest) =>
      some { s with
        runs := ⟨event, true, .findOne⟩ :: s.runs
        job := .processTokenTransfer currentBlock transferEvents event rest }
    | .loop currentBlock transferEvents [] =>
      some { s with job := .redisSet currentBlock transferEvents }
    | _ => none
  | .redisSet =>
    match s.job with
    | .redisSet currentBlock transferEvents =>
      some { s with
        redis := some currentBlock
        job := .idle
        history := .lastCheckedBlock currentBlock transferEvents :: s.history }
    | _ => none
  | .jobFails =>
    match s.job with
    | .getBlockNumber | .redisGet _ | .getPastEvents _ _ | .redisSet _ _ =>
      some { s with job := .idle }
    | _ => none
  | .crash => some { s with runs := [], effects := [], job := .idle }
  | .storeTxhash record txhash =>
    match s.db.uOlsMyzc.findById record with
    | some row =>
      if row.val.txhash = "" then
        some { s with
          db := { s.db with uOlsMyzc := s.db.uOlsMyzc.save ⟨record, { row.val with txhash }⟩ } }
      else none
    | none => none

/-- A step, with what the node and MySQL answer at that time. -/
structure Move where
  env : Env
  label : Label

def next (cfg : Config) (s : Sys) (m : Move) : Option Sys := step cfg m.env s m.label

section Sample

/-- A node on which every transaction succeeded, and columns that keep every number. -/
def sampleEnv : Env where
  getTransactionReceipt := fun _ => some ⟨true⟩
  getBlock := fun _ => none
  now := 0
  strict := true
  double := fun amount => if amount = .nan then none else some amount
  decimal := fun amount => if amount = .nan then none else some amount

/-- One member wallet, of address `b`, and the manager `m`. -/
def sampleDb : Db where
  transaction := Table.empty
  uOlsWallet := Table.empty.insert ⟨some 1, some "b", .num 0, .num 0, .num 0⟩
  uOlsMyzr := Table.empty
  uOlsMyzc := Table.empty
  sManagerWallet := Table.empty.insert ⟨"m"⟩

/-- A deposit of one token to the member wallet. -/
def sampleLog : TransferEvent := ⟨"h", 0, 5, "a", "b", 10 ^ 18⟩

def sampleConfig : Config := ⟨1, 1⟩

def sampleMoves (ls : List Label) : List Move := ls.map (Move.mk sampleEnv)

/-- A later deposit to the same wallet, in a transaction of its own. -/
def sampleLaterLog : TransferEvent := { sampleLog with transactionHash := "g" }

def sampleTx (data : TransferEvent) (id : Nat) : Row Transaction :=
  ⟨id, transformedTxData sampleEnv data ⟨true⟩⟩

/-- The rescan handles one log, up to the effect it does not await. -/
def sampleScan (data : TransferEvent) : List Label :=
  [.nextEvent, .run ⟨data, true, .findOne⟩, .run ⟨data, true, .getTransactionReceipt none⟩,
    .run ⟨data, true, .getBlock none ⟨true⟩⟩,
    .run ⟨data, true, .save (.create (transformedTxData sampleEnv data ⟨true⟩))⟩]

/-- A scan of the sample up to where it stores its cursor, which fetches the one log. -/
def sampleScanTo (tip : Nat) (data : TransferEvent) : List Label :=
  [.jobStarts, .blockNumber tip, .redisGet, .pastEvents [data]] ++ sampleScan data ++ [.nextEvent]

/-- The wallet of `sampleDb` as it is read first. -/
def sampleUser : Row UOlsWallet := ⟨1, ⟨some 1, some "b", .num 0, .num 0, .num 0⟩⟩

def sampleReads (data : TransferEvent) (id : Nat) : List Label :=
  [.effect ⟨data, sampleTx data id, .manager⟩, .effect ⟨data, sampleTx data id, .charge⟩]

def sampleSaves (data : TransferEvent) (id : Nat) (user : Row UOlsWallet) : List Label :=
  [.effect ⟨data, sampleTx data id, .addUserCoin user (.num 1)⟩,
    .effect ⟨data, sampleTx data id,
      .saveMyzr (myzrData (sampleTx data id).val user (.num 1)).create⟩]

/-- A later scan, which finds the log's row settled. -/
def sampleRescan (tip : Nat) (data : TransferEvent) : List Label :=
  [.jobStarts, .blockNumber tip, .redisGet, .pastEvents [data], .nextEvent,
    .run ⟨data, true, .findOne⟩,
    .run ⟨data, true, .getTransactionReceipt (some (sampleTx data 1))⟩,
    .run ⟨data, true, .getBlock (some (sampleTx data 1)) ⟨true⟩⟩,
    .nextEvent, .redisSet]

end Sample

end OlsDapp.Handler
