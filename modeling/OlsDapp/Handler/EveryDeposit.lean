import OlsDapp.Handler.Invariant
import OlsDapp.Handler.Sequential
import OlsDapp.Handler.Wallet

/-!
# Which deposit logs are credited

The handler knows a log by (transactionHash, type, from, to). Handling a list of logs one
after another, it credits a log exactly when nothing of that key was settled before it: no
row of the database, and no earlier log of the list.
-/

namespace OlsDapp.Handler

open Lib (Row Table)

section Definitions

variable (env : Env) (db : Db) (e : TransferEvent)

def Note.creditOf : Note → Option (Nat × Amount)
  | .addUserCoin data user amount => if data = e then some (user, amount) else none
  | _ => none

/-- The calls of `addUserCoin` made for the log. -/
def creditsFor (history : List Note) : List (Nat × Amount) := history.filterMap (Note.creditOf e)

/-- Each deposit of the list is credited once, with its own value. -/
def EachCredited (logs : List TransferEvent) : Prop :=
  ∀ e ∈ logs, ∀ user, DepositTo db e user →
    creditsFor e (handleAll env db logs).2 = [(user.id, .num (fromWei e.value))]

/-- The database has no row of the log but a pending one of the same value. -/
def Unsettled : Prop :=
  ∀ row, db.transaction.findOne e.matches = some row →
    row.val.status = .pending ∧ row.val.tokenAmount = .num (fromWei e.value)

/-- No deposit of the list shares its key with an earlier log of it or with a settled row. -/
def DistinctKeys (logs : List TransferEvent) : Prop :=
  ∀ pre e post, logs = pre ++ e :: post → (∃ user, DepositTo db e user) →
    Unsettled db e ∧ ∀ e' ∈ pre, ¬ e'.SameKey e

end Definitions

section Frames

variable {env : Env} {db : Db} {data e : TransferEvent} {tx : Transaction}

theorem creditsFor_append (a b : List Note) :
    creditsFor e (a ++ b) = creditsFor e a ++ creditsFor e b := List.filterMap_append

theorem saveWallet_frame (env : Env) {user : Row UOlsWallet} {updated : UOlsWallet}
    (hmem : user ∈ db.uOlsWallet.rows) (heq : updated.eth_address = user.val.eth_address) :
    let saved := (saveWallet env db ⟨user.id, updated⟩).getD db
    saved.transaction = db.transaction ∧ saved.sManagerWallet = db.sManagerWallet ∧
      saved.addresses = db.addresses := by
  obtain ⟨htransaction, _, _, hmanager⟩ := saveWallet_tables env db ⟨user.id, updated⟩
  refine ⟨htransaction, hmanager, ?_⟩
  cases hsave : saveWallet env db ⟨user.id, updated⟩ with
  | none => rfl
  | some db' =>
    obtain ⟨stored, hstored, rfl⟩ := saveWallet_eq_some.mp hsave
    exact addresses_save user (mem_addresses hmem) ((stored_eth_address hstored).trans heq)

theorem saveMyzr_frame (env : Env) (db : Db) (entity : MyzrEntity) :
    (saveMyzr env db entity).transaction = db.transaction ∧
      (saveMyzr env db entity).sManagerWallet = db.sManagerWallet ∧
      (saveMyzr env db entity).addresses = db.addresses := by
  unfold saveMyzr
  split <;> exact ⟨rfl, rfl, rfl⟩

/-- The effects of a log leave the transactions, the manager and the addresses alone. -/
theorem received_frame (env : Env) (db : Db) (data : TransferEvent) (tx : Transaction) :
    let done := (processReceivedEthOrToken env db data tx).1
    done.transaction = db.transaction ∧ done.sManagerWallet = db.sManagerWallet ∧
      done.addresses = db.addresses := by
  intro done
  simp only [done, processReceivedEthOrToken]
  split
  · split
    · unfold processChargeEthOrToken
      split
      · split
        · next user huser =>
          obtain ⟨h1, h2, h3⟩ := saveWallet_frame env (Table.mem_of_findOne huser).1
            (addUserCoin_eth_address user.val tx.type tx.coins)
          obtain ⟨g1, g2, g3⟩ := saveMyzr_frame env
            ((saveWallet env db ⟨user.id, addUserCoin user.val tx.type tx.coins⟩).getD db)
            (myzrData tx user tx.coins).create
          exact ⟨g1.trans h1, g2.trans h2, g3.trans h3⟩
        · exact ⟨rfl, rfl, rfl⟩
      · exact ⟨rfl, rfl, rfl⟩
    · split
      · unfold processTransferEthOrToken
        split
        · split
          · next user huser =>
            exact saveWallet_frame env (Table.mem_of_findOne huser).1
              (addUserDrawCoin_eth_address user.val tx.type tx.coins)
          · exact ⟨rfl, rfl, rfl⟩
        · exact ⟨rfl, rfl, rfl⟩
      · split
        · unfold processWithdrawEthOrToken
          split <;> exact ⟨rfl, rfl, rfl⟩
        · exact ⟨rfl, rfl, rfl⟩
  · exact ⟨rfl, rfl, rfl⟩

/-- What a call of `processTokenTransfer` does: nothing without a receipt or over a settled
row, else the save of `saveOf`. -/
theorem process_cases (env : Env) (db : Db) (data : TransferEvent) :
    (processTokenTransfer env db data = (db, none) ∧
      (env.getTransactionReceipt data.transactionHash = none ∨
        ∃ row, db.transaction.findOne data.matches = some row ∧ row.val.status ≠ .pending)) ∨
    ∃ receipt save, env.getTransactionReceipt data.transactionHash = some receipt ∧
      saveOf (db.transaction.findOne data.matches) (transformedTxData env data receipt) =
        some save ∧
      processTokenTransfer env db data = ((save.run db).1, some (save.run db).2) := by
  cases hrec : env.getTransactionReceipt data.transactionHash with
  | none => exact Or.inl ⟨by simp only [processTokenTransfer, hrec], Or.inl rfl⟩
  | some receipt =>
    cases hsave : saveOf (db.transaction.findOne data.matches)
      (transformedTxData env data receipt) with
    | some save =>
      exact Or.inr ⟨receipt, save, rfl, hsave, by simp only [processTokenTransfer, hrec, hsave]⟩
    | none =>
      refine Or.inl ⟨by simp only [processTokenTransfer, hrec, hsave], Or.inr ?_⟩
      cases hf : db.transaction.findOne data.matches with
      | none =>
        rw [hf] at hsave
        cases hsave
      | some row =>
        rw [hf] at hsave
        simp only [saveOf, ite_eq_right_iff, reduceCtorEq, imp_false] at hsave
        exact ⟨row, rfl, hsave⟩

theorem handle_frame (env : Env) (db : Db) (data : TransferEvent) :
    let done := (handle env db data).1
    done.transaction = (processTokenTransfer env db data).1.transaction ∧
      done.sManagerWallet = db.sManagerWallet ∧ done.addresses = db.addresses := by
  have hprocess : (processTokenTransfer env db data).1.sManagerWallet = db.sManagerWallet ∧
      (processTokenTransfer env db data).1.addresses = db.addresses := by
    rcases process_cases env db data with ⟨heq, _⟩ | ⟨_, save, _, _, heq⟩
    · rw [heq]
      exact ⟨rfl, rfl⟩
    · obtain ⟨hwallet, _, hmanager⟩ := run_frame save db
      rw [heq]
      exact ⟨hmanager, addresses_congr hwallet⟩
  intro done
  simp only [done, handle]
  split
  · next db' heq =>
    rw [heq] at hprocess ⊢
    exact ⟨rfl, hprocess⟩
  · next db' tx heq =>
    rw [heq] at hprocess ⊢
    obtain ⟨h1, h2, h3⟩ := received_frame env db' data tx.val
    exact ⟨h1, h2.trans hprocess.1, h3.trans hprocess.2⟩

end Frames

section Lookup

variable {env : Env} {db : Db} {e e' : TransferEvent} {receipt : Receipt}

theorem saveOf_for {t : Transaction} {save : Save} (ht : e.matches t = true)
    (h : saveOf (db.transaction.findOne e.matches) t = some save) :
    save.For e db.transaction := by
  rcases saveOf_some h with ⟨_, rfl⟩ | ⟨row, hrow, _, rfl⟩
  · exact ht
  · exact ⟨(matches_updated t).trans (Table.mem_of_findOne hrow).2, row, hrow, rfl⟩

/-- Handling a log of another key does not change what is found. -/
theorem findOne_handle_ne (hne : ¬ e'.SameKey e) :
    (handle env db e').1.transaction.findOne e.matches = db.transaction.findOne e.matches := by
  rw [(handle_frame env db e').1]
  rcases process_cases env db e' with ⟨heq, _⟩ | ⟨receipt, save, _, hsave, heq⟩
  · rw [heq]
  · rw [heq]
    have hfor := saveOf_for (matches_transformed env receipt) hsave
    apply findOne_run_ne hfor
    rw [← Bool.not_eq_true]
    exact fun hm => hne (sameKey_of_matches (for_matches hfor) hm)

/-- After a log with a receipt was handled, the row found for its key is settled. -/
theorem findOne_handle_self (hkey : e'.SameKey e)
    (hrec : env.getTransactionReceipt e'.transactionHash = some receipt) :
    ∃ row, (handle env db e').1.transaction.findOne e.matches = some row ∧
      row.val.status ≠ .pending := by
  rw [(handle_frame env db e').1, ← hkey.matches_eq]
  rcases process_cases env db e' with ⟨heq, hnone | hrow⟩ | ⟨receipt', save, _, hsave, heq⟩
  · rw [hrec] at hnone
    cases hnone
  · rw [heq]
    exact hrow
  · rw [heq]
    have hfor := saveOf_for (matches_transformed env receipt') hsave
    have hstatus : save.val.status = getTxStatusByReceipt receipt' := by
      rcases saveOf_some hsave with ⟨_, rfl⟩ | ⟨row, _, _, rfl⟩ <;> rfl
    obtain ⟨row, hrow, hcase⟩ := findOne_run_self hfor
    refine ⟨row, hrow, ?_⟩
    rcases hcase with rfl | ⟨newTx, rfl, hfound⟩
    · rw [run_val, hstatus]
      exact getTxStatusByReceipt_ne_pending receipt'
    · rcases saveOf_some hsave with ⟨hnone, _⟩ | ⟨_, _, _, hcase⟩
      · rw [hfound] at hnone
        cases hnone
      · cases hcase

theorem handleAll_append (env : Env) (db : Db) (a b : List TransferEvent) :
    handleAll env db (a ++ b) =
      ((handleAll env (handleAll env db a).1 b).1,
        (handleAll env (handleAll env db a).1 b).2 ++ (handleAll env db a).2) := by
  induction a generalizing db with
  | nil => simp only [List.nil_append, handleAll, List.append_nil]
  | cons x a ih => simp only [List.cons_append, handleAll, ih, List.append_assoc]

theorem handleAll_frame (env : Env) (db : Db) (logs : List TransferEvent) :
    (handleAll env db logs).1.sManagerWallet = db.sManagerWallet ∧
      (handleAll env db logs).1.addresses = db.addresses := by
  induction logs generalizing db with
  | nil => exact ⟨rfl, rfl⟩
  | cons x logs ih =>
    obtain ⟨_, h1, h2⟩ := handle_frame env db x
    obtain ⟨h3, h4⟩ := ih (handle env db x).1
    exact ⟨h3.trans h1, h4.trans h2⟩

theorem findOne_handleAll_ne {logs : List TransferEvent} (hne : ∀ e' ∈ logs, ¬ e'.SameKey e) :
    (handleAll env db logs).1.transaction.findOne e.matches =
      db.transaction.findOne e.matches := by
  induction logs generalizing db with
  | nil => rfl
  | cons x logs ih =>
    exact (ih fun e' he' => hne e' (List.mem_cons_of_mem _ he')).trans
      (findOne_handle_ne (hne x List.mem_cons_self))

/-- A settled row of a key stays, whatever is handled after it. -/
theorem findOne_handleAll_settled {logs : List TransferEvent} {row : Row Transaction}
    (hrow : db.transaction.findOne e.matches = some row) (hst : row.val.status ≠ .pending)
    (hrec : ∀ e' ∈ logs, env.getTransactionReceipt e'.transactionHash = some receipt) :
    ∃ row, (handleAll env db logs).1.transaction.findOne e.matches = some row ∧
      row.val.status ≠ .pending := by
  induction logs generalizing db row with
  | nil => exact ⟨row, hrow, hst⟩
  | cons x logs ih =>
    have hx : ∃ row, (handle env db x).1.transaction.findOne e.matches = some row ∧
        row.val.status ≠ .pending := by
      by_cases hk : x.SameKey e
      · exact findOne_handle_self hk (hrec x List.mem_cons_self)
      · exact ⟨row, (findOne_handle_ne hk).trans hrow, hst⟩
    obtain ⟨row', hrow', hst'⟩ := hx
    exact ih hrow' hst' fun e' he' => hrec e' (List.mem_cons_of_mem _ he')

theorem findOne_handleAll_self (db : Db) {logs : List TransferEvent} (hmem : e' ∈ logs)
    (hkey : e'.SameKey e)
    (hrec : ∀ e' ∈ logs, env.getTransactionReceipt e'.transactionHash = some receipt) :
    ∃ row, (handleAll env db logs).1.transaction.findOne e.matches = some row ∧
      row.val.status ≠ .pending := by
  induction logs generalizing db with
  | nil => exact absurd hmem List.not_mem_nil
  | cons x logs ih =>
    have hrest : ∀ e' ∈ logs, env.getTransactionReceipt e'.transactionHash = some receipt :=
      fun e' he' => hrec e' (List.mem_cons_of_mem _ he')
    rcases List.mem_cons.mp hmem with rfl | hmem
    · obtain ⟨row, hrow, hst⟩ := findOne_handle_self hkey (hrec e' List.mem_cons_self)
      show ∃ row, (handleAll env (handle env db e').1 logs).1.transaction.findOne e.matches =
        some row ∧ row.val.status ≠ .pending
      exact findOne_handleAll_settled hrow hst hrest
    · exact ih (handle env db x).1 hmem hrest

end Lookup

section Credits

variable {env : Env} {db : Db} {e e' : TransferEvent} {user : Row UOlsWallet} {tx : Transaction}

theorem creditsFor_saved (saved : Option Db) (user : Nat) (amount : Amount) :
    creditsFor e (saved.map fun _ => Note.credited e' user amount).toList = [] := by
  cases saved <;> rfl

theorem charge_credits_ne (hne : e' ≠ e) :
    creditsFor e (processChargeEthOrToken env db e' tx).2 = [] := by
  unfold processChargeEthOrToken
  split
  · split
    · rw [creditsFor_append, creditsFor_saved]
      simp [creditsFor, Note.creditOf, hne]
    · rfl
  · rfl

theorem charge_credits_self (hst : tx.status = .confirmed)
    (hu : db.uOlsWallet.findOne (fun w => w.eth_address = some tx.to_) = some user) :
    creditsFor e (processChargeEthOrToken env db e tx).2 = [(user.id, tx.coins)] := by
  unfold processChargeEthOrToken
  rw [if_pos hst, hu]
  dsimp only
  rw [creditsFor_append, creditsFor_saved]
  simp [creditsFor, Note.creditOf]

theorem transfer_credits : creditsFor e (processTransferEthOrToken env db e' tx).2 = [] := by
  unfold processTransferEthOrToken
  split
  · split <;> rfl
  · rfl

theorem withdraw_credits : creditsFor e (processWithdrawEthOrToken db e' tx).2 = [] := by
  unfold processWithdrawEthOrToken
  split <;> rfl

theorem received_credits_ne (hne : e' ≠ e) :
    creditsFor e (processReceivedEthOrToken env db e' tx).2 = [] := by
  unfold processReceivedEthOrToken
  split
  · split
    · exact charge_credits_ne hne
    · split
      · exact transfer_credits
      · split
        · exact withdraw_credits
        · rfl
  · rfl

/-- No call for another log credits this one. -/
theorem handle_credits_ne (hne : e' ≠ e) : creditsFor e (handle env db e').2 = [] := by
  unfold handle
  split
  · rfl
  · dsimp only
    rw [creditsFor_append, received_credits_ne hne]
    rfl

theorem handleAll_credits_ne {logs : List TransferEvent} (hne : e ∉ logs) :
    creditsFor e (handleAll env db logs).2 = [] := by
  induction logs generalizing db with
  | nil => rfl
  | cons x logs ih =>
    obtain ⟨hx, hlogs⟩ := not_or.mp (mt List.mem_cons.mpr hne)
    simp only [handleAll, creditsFor_append, ih hlogs, handle_credits_ne fun h => hx h.symm,
      List.append_nil]

/-- What the handling of one deposit credits: its own value over no row, the row's amount over
a pending one, nothing over a settled one. -/
theorem handle_credits (hdep : DepositTo db e user)
    (hrec : env.getTransactionReceipt e.transactionHash = some ⟨true⟩) :
    creditsFor e (handle env db e).2 =
      match db.transaction.findOne e.matches with
      | none => [(user.id, .num (fromWei e.value))]
      | some row => if row.val.status = .pending then [(user.id, row.val.tokenAmount)] else [] := by
  obtain ⟨⟨manager, hmanager, hfrom⟩, huser⟩ := hdep
  rcases process_cases env db e with
    ⟨heq, hnone | ⟨row, hrow, hst⟩⟩ | ⟨receipt, save, hr, hsave, heq⟩
  · rw [hrec] at hnone
    cases hnone
  · rw [hrow, handle, heq]
    dsimp only
    rw [if_neg hst]
    rfl
  · obtain rfl : receipt = ⟨true⟩ := Option.some.inj (hr.symm.trans hrec)
    have hfor := saveOf_for (matches_transformed env _) hsave
    have hval := for_matches hfor
    obtain ⟨_, htype, hf, ht⟩ := matches_iff.mp hval
    have hst : save.val.status = .confirmed := by
      rcases saveOf_some hsave with ⟨_, rfl⟩ | ⟨row, _, _, rfl⟩ <;> rfl
    obtain ⟨hwallets, _, hmanagers⟩ := run_frame save db
    have hmanager' : (save.run db).1.sManagerWallet.findById 1 = some manager := by
      rw [hmanagers]
      exact hmanager
    have huser' : (save.run db).1.uOlsWallet.findOne (fun w => w.eth_address = some save.val.to_) =
        some user := by
      rw [ht, hwallets]
      exact huser
    have hcredits : creditsFor e (handle env db e).2 = [(user.id, save.val.tokenAmount)] := by
      rw [handle, heq]
      dsimp only
      rw [creditsFor_append, run_val, processReceivedEthOrToken, hmanager']
      dsimp only
      rw [if_pos ⟨rfl, by rw [hf]; exact hfrom⟩, charge_credits_self hst huser']
      simp only [Transaction.coins, checkTokenTransfer, htype, decide_true, if_true]
      rfl
    rw [hcredits]
    rcases saveOf_some hsave with ⟨hnone, rfl⟩ | ⟨row, hrow, hpending, rfl⟩
    · rw [hnone]
      rfl
    · rw [hrow]
      dsimp only
      rw [if_pos hpending]
      rfl

end Credits

section Main

variable {env : Env} {db : Db} {e : TransferEvent} {user : Row UOlsWallet}
  {pre post : List TransferEvent}

/-- The credits of a log are made where it stands in the list. -/
theorem credits_at (hnodup : (pre ++ e :: post).Nodup) :
    creditsFor e (handleAll env db (pre ++ e :: post)).2 =
      creditsFor e (handle env (handleAll env db pre).1 e).2 := by
  obtain ⟨_, hpost, hdisj⟩ := List.nodup_append.mp hnodup
  have hpre : e ∉ pre := fun h => hdisj e h e List.mem_cons_self rfl
  have hlater : e ∉ post := (List.nodup_cons.mp hpost).1
  rw [handleAll_append]
  simp only [handleAll, creditsFor_append, handleAll_credits_ne hpre,
    handleAll_credits_ne hlater, List.nil_append, List.append_nil]

/-- A deposit stays one, to the wallet of the same id, whatever was handled before. -/
theorem depositTo_handleAll (env : Env) (hdep : DepositTo db e user) (logs : List TransferEvent) :
    ∃ user', user'.id = user.id ∧ DepositTo (handleAll env db logs).1 e user' := by
  obtain ⟨⟨manager, hmanager, hfrom⟩, huser⟩ := hdep
  obtain ⟨hsame, haddr⟩ := handleAll_frame env db logs
  have hid := findOne_address haddr e.to_
  rw [huser, Option.map_some, Option.map_eq_some_iff] at hid
  obtain ⟨user', huser', hid⟩ := hid
  exact ⟨user', hid, ⟨manager, by rw [hsame]; exact hmanager, hfrom⟩, huser'⟩

/-- What a deposit of the list is credited, by the row found when its turn comes. -/
theorem credits_of_deposit (hdep : DepositTo db e user) (hnodup : (pre ++ e :: post).Nodup)
    (hrec : env.getTransactionReceipt e.transactionHash = some ⟨true⟩) :
    creditsFor e (handleAll env db (pre ++ e :: post)).2 =
      match (handleAll env db pre).1.transaction.findOne e.matches with
      | none => [(user.id, .num (fromWei e.value))]
      | some row => if row.val.status = .pending then [(user.id, row.val.tokenAmount)] else [] := by
  obtain ⟨user', hid, hdep'⟩ := depositTo_handleAll env hdep pre
  rw [credits_at hnodup, handle_credits hdep' hrec, hid]

/-- Handling pairwise distinct confirmed logs one after another credits each deposit exactly
once with its own value, if and only if no deposit shares (transactionHash, from, to) with an
earlier log of the list or with a row that is settled or of another amount. -/
theorem each_credited_iff (env : Env) (db : Db) (logs : List TransferEvent)
    (hdistinct : logs.Pairwise fun a b =>
      (a.transactionHash, a.logIndex) ≠ (b.transactionHash, b.logIndex))
    (hconfirmed : ∀ e ∈ logs, env.getTransactionReceipt e.transactionHash = some ⟨true⟩) :
    EachCredited env db logs ↔ DistinctKeys db logs := by
  have hnodup : logs.Nodup := hdistinct.imp fun hne heq => hne (by rw [heq])
  constructor
  · rintro h pre e post rfl ⟨user, hdep⟩
    have hmem : e ∈ pre ++ e :: post := List.mem_append_right _ List.mem_cons_self
    have hpre : ∀ e' ∈ pre, env.getTransactionReceipt e'.transactionHash = some ⟨true⟩ :=
      fun e' he' => hconfirmed e' (List.mem_append_left _ he')
    have hcredits := h e hmem user hdep
    rw [credits_of_deposit hdep hnodup (hconfirmed e hmem)] at hcredits
    have hkeys : ∀ e' ∈ pre, ¬ e'.SameKey e := by
      intro e' he' hkey
      obtain ⟨row, hrow, hst⟩ := findOne_handleAll_self db he' hkey hpre
      rw [hrow] at hcredits
      dsimp only at hcredits
      rw [if_neg hst] at hcredits
      cases hcredits
    refine ⟨fun row hrow => ?_, hkeys⟩
    rw [findOne_handleAll_ne hkeys, hrow] at hcredits
    dsimp only at hcredits
    by_cases hst : row.val.status = .pending
    · rw [if_pos hst] at hcredits
      injection hcredits with hpair _
      injection hpair with _ hamount
      exact ⟨hst, hamount⟩
    · rw [if_neg hst] at hcredits
      cases hcredits
  · intro h e hmem user hdep
    obtain ⟨pre, post, rfl⟩ := List.append_of_mem hmem
    obtain ⟨hunsettled, hkeys⟩ := h pre e post rfl ⟨user, hdep⟩
    rw [credits_of_deposit hdep hnodup (hconfirmed e hmem), findOne_handleAll_ne hkeys]
    cases hf : db.transaction.findOne e.matches with
    | none => rfl
    | some row =>
      obtain ⟨hst, hamount⟩ := hunsettled row hf
      dsimp only
      rw [if_pos hst, hamount]

end Main

section Samples

/-- Another deposit of the same transaction between the same addresses. -/
def sampleSecondLog : TransferEvent := { sampleLog with logIndex := 1 }

/-- Another deposit of the same transaction, from another sender. -/
def sampleOtherSender : TransferEvent := { sampleSecondLog with from_ := "c" }

/-- Two logs of one transaction to one wallet are both credited when their senders differ. -/
theorem each_credited_two_senders :
    EachCredited sampleEnv sampleDb [sampleLog, sampleOtherSender] ∧
      ∀ e ∈ [sampleLog, sampleOtherSender], ∃ user, DepositTo sampleDb e user := by
  constructor
  · apply (each_credited_iff sampleEnv sampleDb [sampleLog, sampleOtherSender] (by decide)
      (fun _ _ => rfl)).mpr
    intro pre e post hlogs _
    refine ⟨fun row hrow => (by cases hrow), fun e' he' hkey => ?_⟩
    have hordered : [sampleLog, sampleOtherSender].Pairwise fun a b => ¬ a.SameKey b := by
      decide
    rw [hlogs, List.pairwise_append] at hordered
    exact hordered.2.2 e' he' e List.mem_cons_self hkey
  · have huser : sampleDb.uOlsWallet.findOne (fun w => w.eth_address = some "b") =
        some ⟨1, ⟨some 1, some "b", .num 0, .num 0, .num 0⟩⟩ := rfl
    intro e he
    rcases List.mem_pair.mp he with rfl | rfl
    · exact ⟨_, ⟨⟨1, ⟨"m"⟩⟩, rfl, by decide⟩, huser⟩
    · exact ⟨_, ⟨⟨1, ⟨"m"⟩⟩, rfl, by decide⟩, huser⟩

/-- The second of two such logs is not credited. -/
theorem second_log_not_credited :
    [sampleLog, sampleSecondLog].Pairwise (fun a b =>
      (a.transactionHash, a.logIndex) ≠ (b.transactionHash, b.logIndex)) ∧
    (∃ user, DepositTo sampleDb sampleSecondLog user) ∧
    creditsFor sampleSecondLog (handleAll sampleEnv sampleDb [sampleLog, sampleSecondLog]).2 = [] ∧
    ¬ EachCredited sampleEnv sampleDb [sampleLog, sampleSecondLog] := by
  have hdep : DepositTo sampleDb sampleSecondLog
      ⟨1, ⟨some 1, some "b", .num 0, .num 0, .num 0⟩⟩ :=
    ⟨⟨⟨1, ⟨"m"⟩⟩, rfl, by decide⟩, rfl⟩
  have hnone : creditsFor sampleSecondLog
      (handleAll sampleEnv sampleDb [sampleLog, sampleSecondLog]).2 = [] := by
    decide +kernel
  refine ⟨by decide, ⟨_, hdep⟩, hnone, fun h => ?_⟩
  have hcredits := h sampleSecondLog (List.mem_cons_of_mem _ List.mem_cons_self) _ hdep
  rw [hnone] at hcredits
  cases hcredits

end Samples

end OlsDapp.Handler
