import OlsDapp.Handler.System

/-!
# The handler without interleaving

`handle` runs one call of `processTokenTransfer` and then the effects it started, each to
its end. It is one of the interleavings of the system: from every state the system can take
those steps in a row and touch nothing else that is in flight.
-/

namespace OlsDapp.Handler

open Lib (Row Table)
open Lib.InFlight (resume)
open Lib.Machine (run run_append_eq_some)

section Functions

variable (env : Env) (db : Db) (data : TransferEvent) (tx : Transaction)

def processChargeEthOrToken : Db × List Note :=
  if tx.status = .confirmed then
    match db.uOlsWallet.findOne fun user => user.eth_address = some tx.to_ with
    | some user =>
      let amount := tx.coins
      let saved := saveWallet env db ⟨user.id, addUserCoin user.val tx.type amount⟩
      (saveMyzr env (saved.getD db) (myzrData tx user amount).create,
        (saved.map fun _ => Note.credited data user.id amount).toList ++
          [.addUserCoin data user.id amount])
    | none => (db, [])
  else (db, [])

def processTransferEthOrToken : Db × List Note :=
  if tx.status = .confirmed then
    match db.uOlsWallet.findOne fun user => user.eth_address = some tx.from_ with
    | some user =>
      let amount := tx.coins
      let saved := saveWallet env db ⟨user.id, addUserDrawCoin user.val tx.type amount⟩
      (saved.getD db, [.addUserDrawCoin data user.id amount])
    | none => (db, [])
  else (db, [])

def processWithdrawEthOrToken : Db × List Note :=
  match db.uOlsMyzc.findOne fun record => record.txhash = tx.transactionHash with
  | some record =>
    let status := if tx.status = .confirmed then 2 else 3
    let withdrawRecord : Row UOlsMyzc := ⟨record.id, { record.val with status }⟩
    ({ db with uOlsMyzc := db.uOlsMyzc.save withdrawRecord }, [.settled data record.id status])
  | none => (db, [])

def processReceivedEthOrToken : Db × List Note :=
  match db.sManagerWallet.findById 1 with
  | some manager =>
    if checkMemberAddress tx.to_ ∧ tx.from_ ≠ manager.val.eth_address then
      processChargeEthOrToken env db data tx
    else if checkMemberAddress tx.from_ ∧ tx.to_ = manager.val.eth_address then
      processTransferEthOrToken env db data tx
    else if tx.from_ = manager.val.eth_address then processWithdrawEthOrToken db data tx
    else (db, [])
  | none => (db, [])

/-- One log from its lookup to the end of its effects. -/
def handle : Db × List Note :=
  match processTokenTransfer env db data with
  | (db, none) => (db, [])
  | (db, some tx) =>
    let done := processReceivedEthOrToken env db data tx.val
    (done.1, done.2 ++ [.processReceivedEthOrToken data tx])

def handleAll : Db → List TransferEvent → Db × List Note
  | db, [] => (db, [])
  | db, data :: rest =>
    let first := handle env db data
    let others := handleAll first.1 rest
    (others.1, others.2 ++ first.2)

end Functions

section Interleaving

variable (cfg : Config) (env : Env)

/-- The system can get from the one state to the other. -/
def Reaches (s s' : Sys) : Prop := ∃ ls, run (step cfg env) s ls = some s'

variable {cfg env} {s s' s'' : Sys}

theorem Reaches.refl (s : Sys) : Reaches cfg env s s := ⟨[], rfl⟩

theorem Reaches.trans (h : Reaches cfg env s s') (h' : Reaches cfg env s' s'') :
    Reaches cfg env s s'' := by
  obtain ⟨ls, hls⟩ := h
  obtain ⟨ls', hls'⟩ := h'
  exact ⟨ls ++ ls', run_append_eq_some.mpr ⟨s', hls, hls'⟩⟩

theorem Reaches.single {l : Label} (h : step cfg env s l = some s') : Reaches cfg env s s' :=
  ⟨[l], Lib.Machine.run_cons_eq_some.mpr ⟨s', h, rfl⟩⟩

theorem resume_head {α : Type} [DecidableEq α] (a : α) (l next : List α) :
    resume (a :: l) a next = next ++ l := by
  rw [resume, List.erase_cons_head]

variable (cfg env)

/-- The effect at the head of the list takes one step. -/
theorem reaches_effect (s : Sys) (e : Effect) {o : Outcome} (h : e.resume env s.db = o) :
    Reaches cfg env { s with effects := e :: s.effects }
      { s with
        db := o.db
        effects := (o.next.map fun pc => { e with pc }) ++ s.effects
        history := o.notes ++ s.history } := by
  refine Reaches.single (l := .effect e) ?_
  subst h
  dsimp only [step]
  rw [if_pos List.mem_cons_self, resume_head]

theorem reaches_charge (s : Sys) (data : TransferEvent) (tx : Row Transaction) :
    let done := processChargeEthOrToken env s.db data tx.val
    Reaches cfg env { s with effects := ⟨data, tx, .charge⟩ :: s.effects }
      { s with db := done.1, history := done.2 ++ s.history } := by
  intro done
  simp only [done, processChargeEthOrToken]
  split
  · next hstatus =>
    split
    · next user huser =>
      let coin : EffectPc := .addUserCoin user tx.val.coins
      let deposit : EffectPc := .saveMyzr (myzrData tx.val user tx.val.coins).create
      let called : List Note := .addUserCoin data user.id tx.val.coins :: s.history
      have hfirst := reaches_effect cfg env s ⟨data, tx, .charge⟩
        (o := ⟨s.db, [coin, deposit], [.addUserCoin data user.id tx.val.coins]⟩)
        (by simp only [Effect.resume, hstatus, huser, if_true, coin, deposit])
      apply hfirst.trans
      cases hsave : saveWallet env s.db
          ⟨user.id, addUserCoin user.val tx.val.type tx.val.coins⟩ with
      | none =>
        have hcoin := reaches_effect cfg env
          { s with effects := ⟨data, tx, deposit⟩ :: s.effects, history := called }
          ⟨data, tx, coin⟩ (o := ⟨s.db, [], []⟩) (by simp only [Effect.resume, coin, hsave])
        exact hcoin.trans
          (reaches_effect cfg env { s with history := called } ⟨data, tx, deposit⟩ rfl)
      | some db =>
        have hcoin := reaches_effect cfg env
          { s with effects := ⟨data, tx, deposit⟩ :: s.effects, history := called }
          ⟨data, tx, coin⟩ (o := ⟨db, [], [.credited data user.id tx.val.coins]⟩)
          (by simp only [Effect.resume, coin, hsave])
        exact hcoin.trans (reaches_effect cfg env
          { s with db, history := .credited data user.id tx.val.coins :: called }
          ⟨data, tx, deposit⟩ rfl)
    · next huser =>
      exact reaches_effect cfg env s ⟨data, tx, .charge⟩ (o := ⟨s.db, [], []⟩)
        (by simp only [Effect.resume, hstatus, huser, if_true])
  · next hstatus =>
    exact reaches_effect cfg env s ⟨data, tx, .charge⟩ (o := ⟨s.db, [], []⟩)
      (by simp only [Effect.resume, hstatus, if_false])

theorem reaches_transfer (s : Sys) (data : TransferEvent) (tx : Row Transaction) :
    let done := processTransferEthOrToken env s.db data tx.val
    Reaches cfg env { s with effects := ⟨data, tx, .transfer⟩ :: s.effects }
      { s with db := done.1, history := done.2 ++ s.history } := by
  intro done
  simp only [done, processTransferEthOrToken]
  split
  · next hstatus =>
    split
    · next user huser =>
      let coin : EffectPc := .addUserDrawCoin user tx.val.coins
      let called : List Note := .addUserDrawCoin data user.id tx.val.coins :: s.history
      have hfirst := reaches_effect cfg env s ⟨data, tx, .transfer⟩
        (o := ⟨s.db, [coin], [.addUserDrawCoin data user.id tx.val.coins]⟩)
        (by simp only [Effect.resume, hstatus, huser, if_true, coin])
      apply hfirst.trans
      cases hsave :
        saveWallet env s.db ⟨user.id, addUserDrawCoin user.val tx.val.type tx.val.coins⟩ with
      | none =>
        exact reaches_effect cfg env { s with history := called } ⟨data, tx, coin⟩
          (o := ⟨s.db, [], []⟩)
          (by simp only [Effect.resume, coin, hsave])
      | some db =>
        exact reaches_effect cfg env { s with history := called } ⟨data, tx, coin⟩
          (o := ⟨db, [], []⟩)
          (by simp only [Effect.resume, coin, hsave])
    · next huser =>
      exact reaches_effect cfg env s ⟨data, tx, .transfer⟩ (o := ⟨s.db, [], []⟩)
        (by simp only [Effect.resume, hstatus, huser, if_true])
  · next hstatus =>
    exact reaches_effect cfg env s ⟨data, tx, .transfer⟩ (o := ⟨s.db, [], []⟩)
      (by simp only [Effect.resume, hstatus, if_false])

theorem reaches_withdraw (s : Sys) (data : TransferEvent) (tx : Row Transaction) :
    let done := processWithdrawEthOrToken s.db data tx.val
    Reaches cfg env { s with effects := ⟨data, tx, .withdraw⟩ :: s.effects }
      { s with db := done.1, history := done.2 ++ s.history } := by
  intro done
  simp only [done, processWithdrawEthOrToken]
  split
  · next record hrecord =>
    split
    · next hstatus =>
      let withdrawRecord : Row UOlsMyzc := ⟨record.id, { record.val with status := 2 }⟩
      have hfirst := reaches_effect cfg env s ⟨data, tx, .withdraw⟩
        (o := ⟨s.db, [.withdrawUser withdrawRecord], []⟩)
        (by simp only [Effect.resume, hstatus, hrecord, if_true, withdrawRecord])
      have huser := reaches_effect cfg env s
        ⟨data, tx, .withdrawUser withdrawRecord⟩ rfl
      exact (hfirst.trans huser).trans
        (reaches_effect cfg env s ⟨data, tx, .saveWithdraw withdrawRecord⟩ rfl)
    · next hstatus =>
      let withdrawRecord : Row UOlsMyzc := ⟨record.id, { record.val with status := 3 }⟩
      have hfirst := reaches_effect cfg env s ⟨data, tx, .withdraw⟩
        (o := ⟨s.db, [.saveWithdraw withdrawRecord], []⟩)
        (by simp only [Effect.resume, hstatus, hrecord, if_false, withdrawRecord])
      exact hfirst.trans (reaches_effect cfg env s ⟨data, tx, .saveWithdraw withdrawRecord⟩ rfl)
  · next hrecord =>
    exact reaches_effect cfg env s ⟨data, tx, .withdraw⟩ (o := ⟨s.db, [], []⟩)
      (by simp only [Effect.resume, hrecord])

theorem reaches_received (s : Sys) (data : TransferEvent) (tx : Row Transaction) :
    let done := processReceivedEthOrToken env s.db data tx.val
    Reaches cfg env { s with effects := ⟨data, tx, .manager⟩ :: s.effects }
      { s with db := done.1, history := done.2 ++ s.history } := by
  intro done
  simp only [done, processReceivedEthOrToken]
  split
  · next manager hmanager =>
    have hfirst := reaches_effect cfg env s ⟨data, tx, .manager⟩
      (o := ⟨s.db, (route manager.val.eth_address tx.val).toList, []⟩)
      (by simp only [Effect.resume, hmanager])
    split
    · next h1 =>
      have hroute : route manager.val.eth_address tx.val = some .charge := if_pos h1
      rw [hroute] at hfirst
      exact hfirst.trans (reaches_charge cfg env s data tx)
    · next h1 =>
      split
      · next h2 =>
        have hroute : route manager.val.eth_address tx.val = some .transfer := by
          rw [route, if_neg h1, if_pos h2]
        rw [hroute] at hfirst
        exact hfirst.trans (reaches_transfer cfg env s data tx)
      · next h2 =>
        split
        · next h3 =>
          have hroute : route manager.val.eth_address tx.val = some .withdraw := by
            rw [route, if_neg h1, if_neg h2, if_pos h3]
          rw [hroute] at hfirst
          exact hfirst.trans (reaches_withdraw cfg env s data tx)
        · next h3 =>
          have hroute : route manager.val.eth_address tx.val = none := by
            rw [route, if_neg h1, if_neg h2, if_neg h3]
          rw [hroute] at hfirst
          exact hfirst
  · next hmanager =>
    exact reaches_effect cfg env s ⟨data, tx, .manager⟩ (o := ⟨s.db, [], []⟩)
      (by simp only [Effect.resume, hmanager])

/-- The call at the head of the list goes on to its next await. -/
theorem reaches_waits (s : Sys) (data : TransferEvent) {pc : RunPc} (pc' : RunPc)
    (h : (⟨data, false, pc⟩ : Run).resume env s.db = .waits pc') :
    Reaches cfg env { s with runs := ⟨data, false, pc⟩ :: s.runs }
      { s with runs := ⟨data, false, pc'⟩ :: s.runs } := by
  refine Reaches.single (l := .run ⟨data, false, pc⟩) ?_
  dsimp only [step]
  rw [if_pos List.mem_cons_self, h]
  dsimp only
  rw [resume_head]
  rfl

theorem returned_head (s : Sys) (data : TransferEvent) (pc : RunPc) :
    ({ s with runs := ⟨data, false, pc⟩ :: s.runs } : Sys).returned ⟨data, false, pc⟩ = s := by
  unfold Sys.returned
  dsimp only
  split
  · rw [if_neg Bool.false_ne_true, List.erase_cons_head]
  · rw [List.erase_cons_head]

theorem reaches_returns (s : Sys) (data : TransferEvent) {pc : RunPc}
    (h : (⟨data, false, pc⟩ : Run).resume env s.db = .returns) :
    Reaches cfg env { s with runs := ⟨data, false, pc⟩ :: s.runs } s := by
  refine Reaches.single (l := .run ⟨data, false, pc⟩) ?_
  dsimp only [step]
  rw [if_pos List.mem_cons_self, h]
  dsimp only
  rw [returned_head]

theorem reaches_saves (s : Sys) (data : TransferEvent) (save : Save) :
    Reaches cfg env { s with runs := ⟨data, false, .save save⟩ :: s.runs }
      { s with
        db := (save.run s.db).1
        effects := ⟨data, (save.run s.db).2, .manager⟩ :: s.effects
        history := .processReceivedEthOrToken data (save.run s.db).2 :: s.history } := by
  refine Reaches.single (l := .run ⟨data, false, .save save⟩) ?_
  dsimp only [step]
  rw [if_pos List.mem_cons_self]
  dsimp only [Run.resume]
  exact congrArg some (returned_head { s with
    db := (save.run s.db).1
    effects := ⟨data, (save.run s.db).2, .manager⟩ :: s.effects
    history := .processReceivedEthOrToken data (save.run s.db).2 :: s.history } data (.save save))

theorem handle_none {db : Db} {data : TransferEvent}
    (h : processTokenTransfer env db data = (db, none)) : handle env db data = (db, []) := by
  rw [handle, h]

/-- Handling a log without interruption is a run of the system from any of its states. -/
theorem handle_reaches (s : Sys) (data : TransferEvent) :
    let done := handle env s.db data
    Reaches cfg env s { s with db := done.1, history := done.2 ++ s.history } := by
  intro done
  have hdeliver : Reaches cfg env s { s with runs := ⟨data, false, .findOne⟩ :: s.runs } :=
    Reaches.single (l := .deliver data) rfl
  have hfind := hdeliver.trans (reaches_waits cfg env s data _ rfl)
  cases hreceipt : env.getTransactionReceipt data.transactionHash with
  | none =>
    have hnone : processTokenTransfer env s.db data = (s.db, none) := by
      simp only [processTokenTransfer, hreceipt]
    simp only [done, handle_none env hnone]
    exact hfind.trans (reaches_returns cfg env s data (by simp only [Run.resume, hreceipt]))
  | some receipt =>
    have hblock := hfind.trans (reaches_waits cfg env s data
      (.getBlock (s.db.transaction.findOne data.matches) receipt)
      (by simp only [Run.resume, hreceipt]))
    cases hsave : saveOf (s.db.transaction.findOne data.matches)
      (transformedTxData env data receipt) with
    | none =>
      have hnone : processTokenTransfer env s.db data = (s.db, none) := by
        simp only [processTokenTransfer, hreceipt, hsave]
      simp only [done, handle_none env hnone]
      exact hblock.trans (reaches_returns cfg env s data (by simp only [Run.resume, hsave]))
    | some save =>
      have hsaved := (hblock.trans (reaches_waits cfg env s data (.save save)
        (by simp only [Run.resume, hsave]))).trans (reaches_saves cfg env s data save)
      have hreceived := hsaved.trans (reaches_received cfg env { s with
        db := (save.run s.db).1
        history := .processReceivedEthOrToken data (save.run s.db).2 :: s.history } data
        (save.run s.db).2)
      have hprocess : processTokenTransfer env s.db data =
          ((save.run s.db).1, some (save.run s.db).2) := by
        simp only [processTokenTransfer, hreceipt, hsave]
      simp only [done, handle, hprocess]
      simpa only [List.append_assoc, List.singleton_append] using hreceived

theorem handleAll_reaches (s : Sys) (logs : List TransferEvent) :
    let done := handleAll env s.db logs
    Reaches cfg env s { s with db := done.1, history := done.2 ++ s.history } := by
  induction logs generalizing s with
  | nil => exact Reaches.refl s
  | cons data rest ih =>
    have hrest := (handle_reaches cfg env s data).trans (ih _)
    simpa only [handleAll, List.append_assoc] using hrest

end Interleaving

end OlsDapp.Handler
