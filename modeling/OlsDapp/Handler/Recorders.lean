import OlsDapp.Handler.Invariant
import OlsDapp.Handler.TransactionService
import OlsDapp.Lib.Lookup

/-!
# The two writers of the transactions

The handler and the callers of `TransactionService` write the same table: both look a row up by
hash, type, sender and receiver, keep the entity, and save it whole when their answers have come.
Nothing makes that key unique. Whatever interleaves, the table is one map for both: the first row
of a key is the one that is found, for good, and the last save from a copy of it is what it holds.
-/

namespace OlsDapp.Handler

open Lib (Row Table Write)
open Lib.Machine (run)

section Definitions

/-- What a row is looked up by. -/
structure TransactionKey where
  transactionHash : String
  type : TxType
  from_ : String
  to_ : String
  deriving DecidableEq

def Transaction.key (tx : Transaction) : TransactionKey :=
  ⟨tx.transactionHash, tx.type, tx.from_, tx.to_⟩

def TransferEvent.key (data : TransferEvent) : TransactionKey :=
  ⟨data.transactionHash, .ols, data.from_, data.to_⟩

/-- What no writer changes in a row. -/
def Transaction.fixed (tx : Transaction) : TransactionKey × Amount × Amount :=
  (tx.key, tx.ethAmount, tx.tokenAmount)

namespace TransactionService

variable (svc : TransactionService)

/-- The promise is rejected where the calldata cannot be read, and resolves to `undefined` where
no row is found. -/
def getTxByTxData (db : Db) (transactionData : TxData) : Option (Option (Row Transaction)) := do
  let type := svc.getTxTypeByData transactionData
  let data ← svc.getFromToTokenAmountByTxDataAndType transactionData type
  return db.transaction.findOne fun tx =>
    tx.transactionHash = transactionData.hash ∧ tx.type = type ∧ tx.from_ = data.from_ ∧
      tx.to_ = data.to_

/-- The database and the entity as the call leaves them. -/
def updateTx (db : Db) (tx : Row Transaction) (status : TxStatus) (blockData : Block) :
    Db × Row Transaction :=
  let tx : Row Transaction := { tx with
    val := { tx.val with
      status, timestamp := blockData.timestamp, blockNumber := blockData.number } }
  ({ db with transaction := db.transaction.save tx }, tx)

def key (txData : TxData) : Option TransactionKey :=
  let type := svc.getTxTypeByData txData
  (svc.getFromToTokenAmountByTxDataAndType txData type).map fun data =>
    ⟨txData.hash, type, data.from_, data.to_⟩

/-- The row that `createAndSaveTransaction` saves, when it saves one. -/
def txToSave (env : Env) (transactionData : TxData) (status : TxStatus)
    (blockData : Option Block) : Option Transaction := do
  let type := svc.getTxTypeByData transactionData
  let data ← svc.getFromToTokenAmountByTxDataAndType transactionData type
  let entity : TransactionEntity :=
    { transactionHash := transactionData.hash
      from_ := data.from_
      type
      to_ := data.to_
      ethAmount := .num (fromWei transactionData.value)
      tokenAmount := data.tokenAmount
      status
      timestamp := (blockData.map (·.timestamp)).getD env.now
      blockNumber := blockData.map (·.number) }
  entity.row env

end TransactionService

/-- The handler with the entities the callers of the service hold. -/
structure Recorders where
  sys : Sys
  held : List (Row Transaction)

namespace Recorders

/-- What is done to the table, in any order; each call of the service has one query. -/
inductive Op where
  | handler (m : Move)
  | getTxByTxData (transactionData : TxData)
  | createAndSaveTransaction (env : Env) (transactionData : TxData) (status : TxStatus)
      (blockData : Option Block)
  /-- The entity is one that `getTxByTxData` has returned before. -/
  | updateTx (tx : Row Transaction) (status : TxStatus) (blockData : Block)

def start (db : Db) (redis : Option Nat) : Recorders := ⟨Sys.start db redis, []⟩

variable (svc : TransactionService) (cfg : Config)

def next (s : Recorders) : Op → Option Recorders
  | .handler m => (Handler.next cfg s.sys m).map fun sys => { s with sys }
  | .getTxByTxData transactionData =>
    match svc.getTxByTxData s.sys.db transactionData with
    | some (some tx) => some { s with held := tx :: s.held }
    | _ => some s
  | .createAndSaveTransaction env transactionData status blockData =>
    match svc.createAndSaveTransaction env s.sys.db transactionData status blockData with
    | some db => some { s with sys := { s.sys with db } }
    | none => some s
  | .updateTx tx status blockData =>
    if tx ∈ s.held then
      let saved := TransactionService.updateTx s.sys.db tx status blockData
      some { sys := { s.sys with db := saved.1 }, held := saved.2 :: s.held }
    else none

end Recorders

def Save.writes : Save → List (Write Transaction)
  | .create newTx => [.record newTx]
  | .update tx => [.overwrite tx.val]

def Label.writes : Label → List (Write Transaction)
  | .run ⟨_, _, .save save⟩ => save.writes
  | _ => []

/-- What the operation is to the map. -/
def Recorders.Op.writes (svc : TransactionService) : Recorders.Op → List (Write Transaction)
  | .handler m => m.label.writes
  | .getTxByTxData _ => []
  | .createAndSaveTransaction env transactionData status blockData =>
    ((svc.txToSave env transactionData status blockData).map Write.record).toList
  | .updateTx tx status blockData =>
    [.overwrite { tx.val with
      status, timestamp := blockData.timestamp, blockNumber := blockData.number }]

/-- The row is a copy of the one its key finds. -/
abbrev Db.Copy (db : Db) (row : Row Transaction) : Prop :=
  db.transaction.CopyOf Transaction.key Transaction.fixed row

/-- The table as a map. -/
abbrev Db.book (db : Db) : TransactionKey → Option Transaction :=
  db.transaction.lookup Transaction.key

/-- All entities that are held anywhere are copies. -/
structure Copies (s : Recorders) : Prop where
  held : ∀ tx ∈ s.held, s.sys.db.Copy tx
  runs : ∀ r ∈ s.sys.runs, ∀ tx, r.pc.held = some tx → s.sys.db.Copy tx

end Definitions

section Lookups

variable {svc : TransactionService} {env : Env} {db : Db} {txData : TxData} {status : TxStatus}
  {blockData : Option Block}

theorem findOne_matches (db : Db) (data : TransferEvent) :
    db.transaction.findOne data.matches = db.transaction.findKey Transaction.key data.key := by
  refine congrArg db.transaction.findOne (funext fun tx => ?_)
  simp only [TransferEvent.matches, Transaction.key, TransferEvent.key, TransactionKey.mk.injEq]

theorem getTxByTxData_eq (svc : TransactionService) (db : Db) (txData : TxData) :
    svc.getTxByTxData db txData =
      (svc.key txData).map (db.transaction.findKey Transaction.key) := by
  have hkey (data : FromToTokenAmount) (tx : Transaction) : decide (tx.key =
      ⟨txData.hash, svc.getTxTypeByData txData, data.from_, data.to_⟩) =
        decide (tx.transactionHash = txData.hash ∧ tx.type = svc.getTxTypeByData txData ∧
          tx.from_ = data.from_ ∧ tx.to_ = data.to_) := by
    simp only [Transaction.key, TransactionKey.mk.injEq]
  simp only [TransactionService.getTxByTxData, TransactionService.key]
  cases svc.getFromToTokenAmountByTxDataAndType txData (svc.getTxTypeByData txData) with
  | none => rfl
  | some data =>
    exact congrArg some (congrArg db.transaction.findOne (funext fun tx => (hkey data tx).symm))

theorem createAndSaveTransaction_eq (svc : TransactionService) (env : Env) (db : Db)
    (txData : TxData) (status : TxStatus) (blockData : Option Block) :
    svc.createAndSaveTransaction env db txData status blockData =
      (svc.txToSave env txData status blockData).map fun row =>
        { db with transaction := db.transaction.insert row } := by
  simp only [TransactionService.createAndSaveTransaction, TransactionService.txToSave]
  cases svc.getFromToTokenAmountByTxDataAndType txData (svc.getTxTypeByData txData) with
  | none => rfl
  | some data =>
    exact (Option.map_eq_bind ..).symm

/-- The row is saved under the key it is looked up by. -/
theorem key_of_txToSave {row : Transaction}
    (h : svc.txToSave env txData status blockData = some row) :
    svc.key txData = some row.key := by
  simp only [TransactionService.txToSave, TransactionEntity.row, Option.bind_eq_bind,
    Option.bind_eq_some_iff, Option.pure_def, Option.some.injEq] at h
  obtain ⟨data, hdata, _, _, rfl⟩ := h
  simp only [TransactionService.key, hdata, Option.map_some]
  rfl

end Lookups

section Steps

variable {svc : TransactionService} {cfg : Config} {env : Env} {db : Db} {s s' : Sys} {l : Label}
  {t t' : Recorders} {op : Recorders.Op} {row : Row Transaction}

/-- The step of a call saves exactly when it waits to. -/
theorem run_saves {r : Run} (h : step cfg env s (.run r) = some s') :
    r ∈ s.runs ∧ ((∃ save, r.pc = .save save ∧ s'.db = (save.run s.db).1) ∨
      (∀ save, r.pc ≠ .save save) ∧ s'.db = s.db) := by
  simp only [step, Option.ite_none_right_eq_some] at h
  obtain ⟨hr, h⟩ := h
  refine ⟨hr, ?_⟩
  cases hres : r.resume env s.db with
  | waits pc =>
    rw [hres] at h
    obtain rfl := Option.some.inj h
    refine Or.inr ⟨fun save hpc => ?_, rfl⟩
    rw [Run.resume, hpc] at hres
    cases hres
  | returns =>
    rw [hres] at h
    obtain rfl := Option.some.inj h
    refine Or.inr ⟨fun save hpc => ?_, returned_db s r⟩
    rw [Run.resume, hpc] at hres
    cases hres
  | starts db tx =>
    rw [hres] at h
    obtain rfl := Option.some.inj h
    obtain ⟨save, hpc, rfl, _⟩ := resume_starts hres
    exact Or.inl ⟨save, hpc, returned_db _ r⟩

/-- No other step of the handler touches the transactions. -/
theorem transaction_of_not_run (hl : ∀ r, l ≠ .run r) (h : step cfg env s l = some s') :
    s'.db.transaction = s.db.transaction := by
  cases step_change h with
  | arrives _ _ _ dbs _ _ _ => rw [dbs]
  | scans _ _ dbs _ _ _ => rw [dbs]
  | waits r _ _ _ _ _ _ _ => exact absurd rfl (hl r)
  | returns r _ _ _ _ _ _ _ _ => exact absurd rfl (hl r)
  | starts r _ _ _ _ _ _ _ _ _ => exact absurd rfl (hl r)
  | runFails _ _ dbs _ _ _ => rw [dbs]
  | effect e _ dbs _ _ _ => rw [dbs, (resumes env s.db e).frame.1]
  | effectFails _ _ dbs _ _ _ => rw [dbs]
  | crash dbs _ _ _ => rw [dbs]
  | storeTxhash _ _ _ _ _ dbs _ _ _ => rw [dbs]

theorem moves_save {save : Save} (h : ∀ tx, save = .update tx → db.Copy tx) :
    db.transaction.Moves Transaction.key Transaction.fixed save.writes
      (save.run db).1.transaction := by
  cases save with
  | create newTx => exact .record newTx
  | update tx => exact .overwrite tx (h tx rfl)

theorem moves_handler (hruns : ∀ r ∈ s.runs, ∀ tx, r.pc.held = some tx → s.db.Copy tx)
    (h : step cfg env s l = some s') :
    s.db.transaction.Moves Transaction.key Transaction.fixed l.writes s'.db.transaction := by
  by_cases hl : ∃ r, l = .run r
  · obtain ⟨r, rfl⟩ := hl
    obtain ⟨hr, ⟨save, hpc, hdb⟩ | ⟨hpc, hdb⟩⟩ := run_saves h
    · have hwrites : (Label.run r).writes = save.writes := by
        obtain ⟨data, awaited, pc⟩ := r
        cases hpc
        rfl
      rw [hwrites, hdb]
      refine moves_save fun tx htx => hruns r hr tx ?_
      rw [hpc, htx]
      rfl
    · have hwrites : (Label.run r).writes = [] := by
        obtain ⟨data, awaited, pc⟩ := r
        cases pc with
        | save save => exact absurd rfl (hpc save)
        | findOne | getTransactionReceipt | getBlock => rfl
      rw [hwrites, hdb]
      exact .stays
  · have hwrites : l.writes = [] := by
      cases l with
      | run r => exact absurd ⟨r, rfl⟩ hl
      | _ => rfl
    rw [hwrites, transaction_of_not_run (fun r hr => hl ⟨r, hr⟩) h]
    exact .stays

/-- What a call holds after its step it held before, or has just found. -/
theorem held_copies (hruns : ∀ r ∈ s.runs, ∀ tx, r.pc.held = some tx → s.db.Copy tx)
    (h : step cfg env s l = some s') :
    ∀ r ∈ s'.runs, ∀ tx, r.pc.held = some tx → s.db.Copy tx := by
  have hsub (h : s'.runs ⊆ s.runs) : ∀ r ∈ s'.runs, ∀ tx, r.pc.held = some tx → s.db.Copy tx :=
    fun r hr => hruns r (h hr)
  cases step_change h with
  | arrives data awaited _ _ runs _ _ =>
    intro r hr tx htx
    rcases List.mem_cons.mp (runs ▸ hr) with rfl | hr
    · cases htx
    · exact hruns r hr tx htx
  | scans _ _ _ runs _ _ => exact hsub (by rw [runs]; exact fun _ h => h)
  | waits r mem pc resumed _ runs _ _ =>
    intro r' hr' tx htx
    rcases Lib.InFlight.mem_resume_imp (runs ▸ hr') with hr' | hr'
    · obtain rfl := List.mem_singleton.mp hr'
      rcases resume_waits resumed with ⟨_, rfl⟩ | ⟨tx', receipt, hpc, _, rfl⟩ |
        ⟨tx', receipt, save, hpc, hsave, rfl⟩
      · have hfound : s.db.transaction.findOne r.data.matches = some tx := htx
        rw [findOne_matches] at hfound
        exact Table.copyOf_of_findKey hfound
      · refine hruns r mem tx ?_
        rw [hpc]
        exact htx
      · rcases saveOf_some hsave with ⟨rfl, rfl⟩ | ⟨row, rfl, _, rfl⟩
        · cases htx
        · cases htx
          have hcopy := hruns r mem row (by rw [hpc]; rfl)
          exact Table.copyOf_of_eq hcopy rfl rfl
    · exact hruns r' hr' tx htx
  | returns _ _ _ _ _ _ runs _ _ => exact hsub (by rw [runs]; exact List.erase_subset)
  | starts _ _ _ _ _ _ _ runs _ _ => exact hsub (by rw [runs]; exact List.erase_subset)
  | runFails _ _ _ runs _ _ => exact hsub (by rw [runs]; exact List.erase_subset)
  | effect _ _ _ runs _ _ => exact hsub (by rw [runs]; exact fun _ h => h)
  | effectFails _ _ _ runs _ _ => exact hsub (by rw [runs]; exact fun _ h => h)
  | crash _ runs _ _ => exact hsub (by rw [runs]; exact List.nil_subset _)
  | storeTxhash _ _ _ _ _ _ runs _ _ => exact hsub (by rw [runs]; exact fun _ h => h)

/-- Each operation does to the table what it does to the map, and leaves copies only. -/
theorem recorders_step (h : Copies t) (hstep : t.next svc cfg op = some t') :
    t.sys.db.transaction.Moves Transaction.key Transaction.fixed (op.writes svc)
      t'.sys.db.transaction ∧ Copies t' := by
  cases op with
  | handler m =>
    obtain ⟨sys, hsys, rfl⟩ := Option.map_eq_some_iff.mp hstep
    have hmoves := moves_handler h.runs hsys
    refine ⟨hmoves, fun tx htx => hmoves.copyOf (h.held tx htx), fun r hr tx htx => ?_⟩
    exact hmoves.copyOf (held_copies h.runs hsys r hr tx htx)
  | getTxByTxData transactionData =>
    simp only [Recorders.next] at hstep
    split at hstep
    · next tx hfound =>
      obtain rfl := Option.some.inj hstep
      rw [getTxByTxData_eq, Option.map_eq_some_iff] at hfound
      obtain ⟨k, _, hfound⟩ := hfound
      refine ⟨.stays, List.forall_mem_cons.mpr ⟨?_, h.held⟩, h.runs⟩
      exact Table.copyOf_of_findKey hfound
    · obtain rfl := Option.some.inj hstep
      exact ⟨.stays, h⟩
  | createAndSaveTransaction env transactionData status blockData =>
    simp only [Recorders.next, createAndSaveTransaction_eq] at hstep
    simp only [Recorders.Op.writes]
    cases hrow : svc.txToSave env transactionData status blockData with
    | none =>
      rw [hrow] at hstep
      obtain rfl := Option.some.inj hstep
      exact ⟨.stays, h⟩
    | some row =>
      rw [hrow] at hstep
      obtain rfl := Option.some.inj hstep
      refine ⟨.record row, fun tx htx => ?_, fun r hr tx htx => ?_⟩
      · exact Table.copyOf_insert (h.held tx htx)
      · exact Table.copyOf_insert (h.runs r hr tx htx)
  | updateTx tx status blockData =>
    simp only [Recorders.next, Option.ite_none_right_eq_some, Option.some.injEq] at hstep
    obtain ⟨hmem, rfl⟩ := hstep
    have hcopy := Table.copyOf_of_eq (v := (TransactionService.updateTx t.sys.db tx status
      blockData).2.val) (h.held tx hmem) rfl rfl
    have hmoves := Table.Moves.overwrite _ hcopy
    refine ⟨hmoves, List.forall_mem_cons.mpr ⟨hmoves.copyOf hcopy, fun tx htx => ?_⟩,
      fun r hr tx htx => ?_⟩
    · exact hmoves.copyOf (h.held tx htx)
    · exact hmoves.copyOf (h.runs r hr tx htx)

theorem copies_start (db : Db) (redis : Option Nat) : Copies (Recorders.start db redis) :=
  ⟨fun _ h => absurd h List.not_mem_nil, fun _ h => absurd h List.not_mem_nil⟩

end Steps

section Runs

variable {svc : TransactionService} {cfg : Config} {t t' : Recorders} {ops : List Recorders.Op}
  {row : Row Transaction}

theorem recorders_run (h : Copies t) (hrun : run (Recorders.next svc cfg) t ops = some t') :
    t'.sys.db.book = Write.applyAll Transaction.key t.sys.db.book
        (ops.flatMap (Recorders.Op.writes svc)) ∧
      (∀ row, t.sys.db.Copy row → t'.sys.db.Copy row) ∧ Copies t' := by
  induction ops generalizing t with
  | nil =>
    obtain rfl := Option.some.inj hrun
    exact ⟨rfl, fun _ h => h, h⟩
  | cons op ops ih =>
    obtain ⟨u, hstep, hrest⟩ := Lib.Machine.run_cons_eq_some.mp hrun
    obtain ⟨hmoves, hcopies⟩ := recorders_step h hstep
    obtain ⟨hbook, hkeeps, hcopies'⟩ := ih hcopies hrest
    refine ⟨?_, fun row hrow => hkeeps row (hmoves.copyOf hrow), hcopies'⟩
    have hstep : u.sys.db.book = _ := hmoves.lookup_eq
    rw [hbook, hstep, List.flatMap_cons]
    exact (List.foldl_append ..).symm

end Runs

/-- Whatever interleaves, both lookups of the table read one map: the first record of a key is
the one that is found, and of the saves from copies of it the last is what it holds. -/
theorem transactions_refine_map (svc : TransactionService) (cfg : Config) (db : Db)
    (redis : Option Nat) (ops : List Recorders.Op) (t : Recorders)
    (hrun : run (Recorders.next svc cfg) (Recorders.start db redis) ops = some t) :
    let book := Write.applyAll Transaction.key db.book (ops.flatMap (Recorders.Op.writes svc))
    (∀ data : TransferEvent,
      (t.sys.db.transaction.findOne data.matches).map (·.val) = book data.key) ∧
    ∀ txData, (svc.getTxByTxData t.sys.db txData).map (Option.map (·.val)) =
      (svc.key txData).map book := by
  intro book
  have hbook : t.sys.db.book = book := (recorders_run (copies_start db redis) hrun).1
  rw [← hbook]
  refine ⟨fun data => ?_, fun txData => ?_⟩
  · rw [findOne_matches]
    rfl
  · rw [getTxByTxData_eq, Option.map_map]
    rfl

/-- A token transfer with its calldata. -/
def sampleRecordedTx : TxData := sampleTxData 0x10 transferInput

/-- Its log, as the handler is given it. -/
def sampleRecordedLog : TransferEvent :=
  ⟨"h", 0, 5, sampleService.checksumAddress 0x10, sampleService.checksumAddress 0x11, 5⟩

/-- The row as it is first saved, in a block with its time. -/
def sampleRecordedRow : Row Transaction :=
  ⟨1, ⟨"h", 7, 3, sampleService.checksumAddress 0x10, sampleService.checksumAddress 0x11,
    .num 0, .num (fromWei 5), .pending, .ols⟩⟩

/-- The row as the handler saves it, from the copy it has read. -/
def sampleConfirmedRow : Row Transaction :=
  ⟨1, sampleRecordedRow.val.updated (transformedTxData sampleEnv sampleRecordedLog ⟨true⟩)⟩

def sampleCreates (status : TxStatus) : Recorders.Op :=
  .createAndSaveTransaction sampleEnv sampleRecordedTx status (some ⟨7, 3⟩)

/-- A second row is created, and `updateTx` saves between the handler's read and its save. -/
def sampleTwoWriters : List Recorders.Op :=
  [sampleCreates .failed, .getTxByTxData sampleRecordedTx,
    .handler ⟨sampleEnv, .deliver sampleRecordedLog⟩,
    .handler ⟨sampleEnv, .run ⟨sampleRecordedLog, false, .findOne⟩⟩,
    .handler ⟨sampleEnv,
      .run ⟨sampleRecordedLog, false, .getTransactionReceipt (some sampleRecordedRow)⟩⟩,
    .updateTx sampleRecordedRow .failed ⟨9, 4⟩,
    .handler ⟨sampleEnv,
      .run ⟨sampleRecordedLog, false, .getBlock (some sampleRecordedRow) ⟨true⟩⟩⟩,
    .handler ⟨sampleEnv, .run ⟨sampleRecordedLog, false, .save (.update sampleConfirmedRow)⟩⟩]

/-- The log finds what the handler has saved, with the time `updateTx` had replaced. -/
theorem transactions_refine_map_two_writers :
    ∃ t, run (Recorders.next sampleService sampleConfig) (Recorders.start sampleDb none)
        (sampleCreates .pending :: sampleTwoWriters) = some t ∧
      (t.sys.db.transaction.findOne sampleRecordedLog.matches).map (·.val) =
        some { sampleRecordedRow.val with status := .confirmed, blockNumber := 5 } := by
  have h : (run (Recorders.next sampleService sampleConfig) (Recorders.start sampleDb none)
      (sampleCreates .pending :: sampleTwoWriters)).isSome = true := by
    decide +kernel
  obtain ⟨t, ht⟩ := Option.isSome_iff_exists.mp h
  obtain ⟨hlogs, _⟩ := transactions_refine_map sampleService sampleConfig sampleDb none _ t ht
  refine ⟨t, ht, (hlogs sampleRecordedLog).trans ?_⟩
  decide +kernel

/-- A transaction that was created is found for good, as one row with its amounts: the one just
saved, or that which was found before. -/
theorem created_found (svc : TransactionService) (cfg : Config) (db : Db) (redis : Option Nat)
    (ops ops' : List Recorders.Op) (t t' : Recorders) (env : Env) (txData : TxData)
    (status : TxStatus) (blockData : Option Block) (db' : Db)
    (hrun : run (Recorders.next svc cfg) (Recorders.start db redis) ops = some t)
    (hsaved : svc.createAndSaveTransaction env t.sys.db txData status blockData = some db')
    (hrun' : run (Recorders.next svc cfg) t
      (.createAndSaveTransaction env txData status blockData :: ops') = some t') :
    ∃ found row, svc.getTxByTxData t'.sys.db txData = some (some row) ∧ row.id = found.id ∧
      row.val.fixed = found.val.fixed ∧
        (svc.getTxByTxData t.sys.db txData = some (some found) ∨
          svc.getTxByTxData t.sys.db txData = some none ∧
            db'.transaction = t.sys.db.transaction.insert found.val ∧
              found.id = t.sys.db.transaction.nextId) := by
  rw [createAndSaveTransaction_eq, Option.map_eq_some_iff] at hsaved
  obtain ⟨row, hrow, rfl⟩ := hsaved
  have hkey := key_of_txToSave hrow
  have hlookup (db : Db) : svc.getTxByTxData db txData =
      some (db.transaction.findKey Transaction.key row.key) := by
    rw [getTxByTxData_eq, hkey, Option.map_some]
  obtain ⟨_, _, hcopies⟩ := recorders_run (copies_start db redis) hrun
  obtain ⟨u, hstep, hrest⟩ := Lib.Machine.run_cons_eq_some.mp hrun'
  obtain ⟨_, hcopies'⟩ := recorders_step hcopies hstep
  simp only [Recorders.next, createAndSaveTransaction_eq, hrow, Option.map_some,
    Option.some.injEq] at hstep
  have htable : u.sys.db.transaction = t.sys.db.transaction.insert row := by rw [← hstep]
  obtain ⟨_, hkeeps, _⟩ := recorders_run hcopies' hrest
  -- the row that is found right after the save
  obtain ⟨found, hfound, hwhich⟩ : ∃ found,
      u.sys.db.transaction.findKey Transaction.key row.key = some found ∧
        (t.sys.db.transaction.findKey Transaction.key row.key = some found ∨
          t.sys.db.transaction.findKey Transaction.key row.key = none ∧
            found = ⟨t.sys.db.transaction.nextId, row⟩) := by
    rw [htable, Table.findKey_insert, if_pos rfl]
    cases hold : t.sys.db.transaction.findKey Transaction.key row.key with
    | none => exact ⟨_, rfl, Or.inr ⟨rfl, rfl⟩⟩
    | some old => exact ⟨old, rfl, Or.inl rfl⟩
  obtain ⟨last, hlast, hid, hfixed⟩ := hkeeps found (Table.copyOf_of_findKey hfound)
  rw [Table.key_of_findKey hfound] at hlast
  refine ⟨found, last, ?_, hid, hfixed, ?_⟩
  · rw [hlookup, hlast]
  · rw [hlookup]
    rcases hwhich with hold | ⟨hnone, rfl⟩
    · exact Or.inl (congrArg some hold)
    · exact Or.inr ⟨congrArg some hnone, rfl, rfl⟩

theorem created_found_two_writers :
    ∃ t, run (Recorders.next sampleService sampleConfig) (Recorders.start sampleDb none)
        (sampleCreates .pending :: sampleTwoWriters) = some t ∧
      ∃ found row : Row Transaction,
        sampleService.getTxByTxData t.sys.db sampleRecordedTx = some (some row) ∧
          row.id = found.id ∧ row.val.fixed = found.val.fixed := by
  have h : (run (Recorders.next sampleService sampleConfig) (Recorders.start sampleDb none)
      (sampleCreates .pending :: sampleTwoWriters)).isSome = true := by
    decide +kernel
  obtain ⟨t, ht⟩ := Option.isSome_iff_exists.mp h
  have hsaved : (sampleService.createAndSaveTransaction sampleEnv sampleDb sampleRecordedTx
      .pending (some ⟨7, 3⟩)).isSome = true := by
    decide +kernel
  obtain ⟨db, hdb⟩ := Option.isSome_iff_exists.mp hsaved
  obtain ⟨found, row, hrow, hid, hfixed, _⟩ := created_found sampleService sampleConfig sampleDb
    none [] sampleTwoWriters _ t sampleEnv sampleRecordedTx .pending (some ⟨7, 3⟩) db rfl hdb ht
  exact ⟨t, ht, found, row, hrow, hid, hfixed⟩

end OlsDapp.Handler
