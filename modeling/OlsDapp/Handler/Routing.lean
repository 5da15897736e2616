import OlsDapp.Handler.Change
import OlsDapp.Handler.Sequential

/-!
# Which book a confirmed token transfer is entered in

`Routed` says where a transfer belongs, by the members and the manager, and what is then in the
columns: a deposit, a sweep of a member's tokens to the manager, a withdrawal, or none of the
books. The handler tests a promise instead of its value, so every address counts as a member, and
two kinds of transfers end in the wrong book. A deposit or a draw is entered in full only where
the columns are numbers and keep the sums.
-/

namespace OlsDapp.Handler

open Lib (Row Table)

/-- What `checkMemberAddress` resolves to. -/
def Db.isMember (db : Db) (addr : String) : Bool :=
  0 < db.uOlsWallet.rows.countP fun user => user.val.eth_address = some addr

namespace UOlsWallet

variable (env : Env) (w : UOlsWallet) (tokenAmount : Amount) (w' : UOlsWallet)

/-- Both `charge_amount` and `amount` have grown by the amount. -/
def Charged : Prop :=
  ∃ a c x, w.amount = .num a ∧ w.charge_amount = .num c ∧ tokenAmount = .num x ∧
    w' = { w with amount := .num (a + x), charge_amount := .num (c + x) }

/-- `draw_amount` has grown by the amount. -/
def Drawn : Prop :=
  ∃ d x, w.draw_amount = .num d ∧ tokenAmount = .num x ∧ w' = { w with draw_amount := .num (d + x) }

/-- MySQL keeps every column of the row as it is written. -/
def Held : Prop :=
  env.double w.amount = some w.amount ∧ env.double w.charge_amount = some w.charge_amount ∧
    env.double w.draw_amount = some w.draw_amount

/-- MySQL refuses a column of the row. -/
def Refused : Prop :=
  env.double w.amount = none ∨ env.double w.charge_amount = none ∨ env.double w.draw_amount = none

/-- The row can become the other: it is kept, or refused where it is the same. -/
def Takes : Prop := w'.Held env ∨ w' = w ∧ w'.Refused env

end UOlsWallet

section Books

variable (env : Env) (db : Db) (m : String) (tx : Transaction)

/-- The wallet of the address has become such a row; no other wallet and no withdrawal changed. -/
def WalletSaved (addr : String) (Becomes : UOlsWallet → UOlsWallet → Prop) (db' : Db) : Prop :=
  ∃ user w, db.uOlsWallet.findOne (fun w => w.eth_address = some addr) = some user ∧
    Becomes user.val w ∧ db'.uOlsWallet = db.uOlsWallet.save ⟨user.id, w⟩ ∧
      db'.uOlsMyzc = db.uOlsMyzc

/-- The withdrawal of the hash, if there is one, succeeded; no wallet changed. -/
def WithdrawalSettled (hash : String) (db' : Db) : Prop :=
  db'.uOlsWallet = db.uOlsWallet ∧
    db'.uOlsMyzc =
      match db.uOlsMyzc.findOne fun record => record.txhash = hash with
      | some record => db.uOlsMyzc.save ⟨record.id, { record.val with status := 2 }⟩
      | none => db.uOlsMyzc

/-- The books after a confirmed token transfer, with manager `m`. -/
def Routed (db' : Db) : Prop :=
  if db.isMember tx.to_ ∧ tx.from_ ≠ m then
    WalletSaved db tx.to_ (·.Charged tx.tokenAmount ·) db'
  else if db.isMember tx.from_ ∧ tx.to_ = m then
    WalletSaved db tx.from_ (·.Drawn tx.tokenAmount ·) db'
  else if tx.from_ = m then WithdrawalSettled db tx.transactionHash db'
  else db' = db

/-- The wallet of the address can become such a row. -/
def CanTake (addr : String) (Becomes : UOlsWallet → UOlsWallet → Prop) : Prop :=
  ∃ user w, db.uOlsWallet.findOne (fun w => w.eth_address = some addr) = some user ∧
    Becomes user.val w ∧ user.val.Takes env w

/-- What the handler needs to enter a transfer in the right book. -/
structure Bookable : Prop where
  /-- The member that is paid has numbers in its columns, which keep the sums. -/
  deposit : db.isMember tx.to_ → tx.from_ ≠ m → CanTake env db tx.to_ (·.Charged tx.tokenAmount ·)
  /-- A member pays a manager that is no member nothing. -/
  sweep : tx.from_ ≠ m → tx.to_ = m → db.isMember m = false → ∀ user,
    db.uOlsWallet.findOne (fun w => w.eth_address = some tx.from_) = some user →
      (∃ d, user.val.draw_amount = .num d) ∧ tx.tokenAmount = .num 0
  /-- A manager that is a member and pays itself has a number in its column, which keeps the sum. -/
  draw : tx.from_ = m → tx.to_ = m → db.isMember m →
    CanTake env db m (·.Drawn tx.tokenAmount ·)
  /-- A manager that is no member pays itself with no withdrawal open. -/
  withdrawal : tx.from_ = m → tx.to_ = m → db.isMember m = false → ∀ record,
    db.uOlsMyzc.findOne (fun record => record.txhash = tx.transactionHash) = some record →
      record.val.status = 2

end Books

section Lookups

variable {env : Env} {db : Db} {addr : String}

theorem isMember_iff : db.isMember addr = true ↔
    ∃ user, db.uOlsWallet.findOne (fun w => w.eth_address = some addr) = some user := by
  rw [Db.isMember, decide_eq_true_iff, List.countP_pos_iff]
  constructor
  · intro hgiven
    obtain ⟨user, hmem, haddr⟩ := hgiven
    cases hf : db.uOlsWallet.findOne (fun w => w.eth_address = some addr) with
    | some user' => exact ⟨user', rfl⟩
    | none =>
      have hno := Table.findOne_eq_none.mp hf user hmem
      rw [haddr] at hno
      cases hno
  · intro hgiven
    obtain ⟨user, huser⟩ := hgiven
    obtain ⟨hmem, haddr⟩ := Table.mem_of_findOne huser
    exact ⟨user, hmem, haddr⟩

theorem findOne_of_not_isMember (h : db.isMember addr = false) :
    db.uOlsWallet.findOne (fun w => w.eth_address = some addr) = none := by
  cases hf : db.uOlsWallet.findOne (fun w => w.eth_address = some addr) with
  | none => rfl
  | some user =>
    rw [isMember_iff.mpr ⟨user, hf⟩] at h
    cases h

theorem stored_eq_none {w : UOlsWallet} : w.stored env = none ↔ w.Refused env := by
  rw [Option.eq_none_iff_forall_ne_some]
  constructor
  · intro hnone
    by_contra hno
    simp only [UOlsWallet.Refused, not_or, ← ne_eq, Option.ne_none_iff_exists'] at hno
    obtain ⟨⟨a, ha⟩, ⟨c, hc⟩, ⟨d, hd⟩⟩ := hno
    exact hnone _ (stored_eq_some.mpr ⟨a, c, d, ha, hc, hd, rfl⟩)
  · intro hrefused s hs
    obtain ⟨a, c, d, ha, hc, hd, _⟩ := stored_eq_some.mp hs
    rcases hrefused with hnone | hnone | hnone
    · exact Option.some_ne_none _ (ha.symm.trans hnone)
    · exact Option.some_ne_none _ (hc.symm.trans hnone)
    · exact Option.some_ne_none _ (hd.symm.trans hnone)

/-- What a save leaves is the row it was given when that is kept, or refused and the old one. -/
theorem saveWallet_eq_save_iff {user : Row UOlsWallet} (h : user ∈ db.uOlsWallet.rows)
    (w : UOlsWallet) :
    ((saveWallet env db ⟨user.id, w⟩).getD db).uOlsWallet = db.uOlsWallet.save ⟨user.id, w⟩ ↔
      user.val.Takes env w := by
  cases hstored : w.stored env with
  | none =>
    have hrefused := stored_eq_none.mp hstored
    have hheld : ¬ w.Held env := by
      rintro ⟨ha, hc, hd⟩
      rw [stored_eq_some.mpr ⟨_, _, _, ha, hc, hd, rfl⟩] at hstored
      cases hstored
    rw [saveWallet_refused hstored, Option.getD_none, eq_comm, Table.save_eq_self_iff h]
    exact ⟨fun hsame => Or.inr ⟨hsame, hrefused⟩, fun htakes => (htakes.resolve_left hheld).1⟩
  | some s =>
    obtain ⟨a, c, d, ha, hc, hd, rfl⟩ := stored_eq_some.mp hstored
    rw [saveWallet_eq_some.mpr ⟨_, hstored, rfl⟩, Option.getD_some]
    refine (Table.save_inj h).trans ⟨fun hsame => Or.inl ?_, fun htakes => ?_⟩
    · obtain ⟨_, _, rfl, rfl, rfl⟩ := UOlsWallet.mk.inj hsame
      exact ⟨ha, hc, hd⟩
    · rcases htakes with ⟨ha', hc', hd'⟩ | ⟨_, hrefused⟩
      · obtain rfl := Option.some.inj (ha.symm.trans ha')
        obtain rfl := Option.some.inj (hc.symm.trans hc')
        obtain rfl := Option.some.inj (hd.symm.trans hd')
        rfl
      · rw [stored_eq_none.mpr hrefused] at hstored
        cases hstored

end Lookups

section Branches

variable {env : Env} {db : Db} {data : TransferEvent} {tx : Transaction}

theorem coins_of_ols (h : tx.type = .ols) : tx.coins = tx.tokenAmount := by
  simp only [Transaction.coins, checkTokenTransfer, h, decide_true, ↓reduceIte]

theorem saveMyzr_books (env : Env) (db : Db) (entity : MyzrEntity) :
    (saveMyzr env db entity).uOlsWallet = db.uOlsWallet ∧
      (saveMyzr env db entity).uOlsMyzc = db.uOlsMyzc := by
  unfold saveMyzr
  split <;> exact ⟨rfl, rfl⟩

/-- A save leaves what it should exactly when the columns take the row. -/
theorem walletSaved_iff {addr : String} {user : Row UOlsWallet} {db' : Db}
    {Becomes : UOlsWallet → UOlsWallet → Prop} {updated : UOlsWallet}
    (huser : db.uOlsWallet.findOne (fun w => w.eth_address = some addr) = some user)
    (hupdated : ∀ w, Becomes user.val w → updated = w)
    (hwallet : db'.uOlsWallet = ((saveWallet env db ⟨user.id, updated⟩).getD db).uOlsWallet)
    (hmyzc : db'.uOlsMyzc = db.uOlsMyzc) :
    WalletSaved db addr Becomes db' ↔ CanTake env db addr Becomes := by
  have hmem := (Table.mem_of_findOne huser).1
  constructor
  · intro hgiven
    obtain ⟨user', w, huser', hbecomes, hsaved, _⟩ := hgiven
    obtain rfl := Option.some.inj (huser.symm.trans huser')
    obtain rfl := hupdated w hbecomes
    exact ⟨user, updated, huser, hbecomes, (saveWallet_eq_save_iff hmem updated).mp
      (hwallet.symm.trans hsaved)⟩
  · intro hgiven
    obtain ⟨user', w, huser', hbecomes, htakes⟩ := hgiven
    obtain rfl := Option.some.inj (huser.symm.trans huser')
    obtain rfl := hupdated w hbecomes
    exact ⟨user, updated, huser, hbecomes,
      hwallet.trans ((saveWallet_eq_save_iff hmem updated).mpr htakes), hmyzc⟩

theorem addUserCoin_eq_of_charged {w w' : UOlsWallet} {tokenAmount : Amount}
    (h : w.Charged tokenAmount w') : addUserCoin w .ols tokenAmount = w' := by
  obtain ⟨a, c, x, ha, hc, rfl, rfl⟩ := h
  simp only [addUserCoin, ↓reduceIte, ha, hc, parseFloat, Number.add, Option.bind_some,
    Option.map_some, Number.toAmount]

theorem addUserDrawCoin_eq_of_drawn {w w' : UOlsWallet} {tokenAmount : Amount}
    (h : w.Drawn tokenAmount w') : addUserDrawCoin w .ols tokenAmount = w' := by
  obtain ⟨d, x, hd, rfl, rfl⟩ := h
  simp only [addUserDrawCoin, ↓reduceIte, hd, parseFloat, Number.add, Option.bind_some,
    Option.map_some, Number.toAmount]

/-- A deposit to a member is entered in full exactly when its columns take the sums. -/
theorem charge_saves_iff (hst : tx.status = .confirmed) (htype : tx.type = .ols)
    {user : Row UOlsWallet}
    (huser : db.uOlsWallet.findOne (fun w => w.eth_address = some tx.to_) = some user) :
    WalletSaved db tx.to_ (·.Charged tx.tokenAmount ·) (processChargeEthOrToken env db data tx).1 ↔
      CanTake env db tx.to_ (·.Charged tx.tokenAmount ·) := by
  have hdone : (processChargeEthOrToken env db data tx).1 = saveMyzr env
      ((saveWallet env db ⟨user.id, addUserCoin user.val .ols tx.tokenAmount⟩).getD db)
      (myzrData tx user tx.tokenAmount).create := by
    unfold processChargeEthOrToken
    rw [if_pos hst, huser]
    dsimp only
    rw [coins_of_ols htype, htype]
  obtain ⟨hwallet, hmyzc⟩ := saveMyzr_books env
    ((saveWallet env db ⟨user.id, addUserCoin user.val .ols tx.tokenAmount⟩).getD db)
    (myzrData tx user tx.tokenAmount).create
  rw [hdone]
  exact walletSaved_iff huser (fun _ h => addUserCoin_eq_of_charged h) hwallet
    (hmyzc.trans (saveWallet_tables env db _).2.2.1)

theorem charge_none
    (hnone : db.uOlsWallet.findOne (fun w => w.eth_address = some tx.to_) = none) :
    (processChargeEthOrToken env db data tx).1 = db := by
  unfold processChargeEthOrToken
  rw [hnone]
  split <;> rfl

/-- So is what a member draws. -/
theorem transfer_saves_iff (hst : tx.status = .confirmed) (htype : tx.type = .ols)
    {user : Row UOlsWallet}
    (huser : db.uOlsWallet.findOne (fun w => w.eth_address = some tx.from_) = some user) :
    WalletSaved db tx.from_ (·.Drawn tx.tokenAmount ·)
        (processTransferEthOrToken env db data tx).1 ↔
      CanTake env db tx.from_ (·.Drawn tx.tokenAmount ·) := by
  have hdone : (processTransferEthOrToken env db data tx).1 =
      (saveWallet env db ⟨user.id, addUserDrawCoin user.val .ols tx.tokenAmount⟩).getD db := by
    unfold processTransferEthOrToken
    rw [if_pos hst, huser]
    dsimp only
    rw [coins_of_ols htype, htype]
  rw [hdone]
  exact walletSaved_iff huser (fun _ h => addUserDrawCoin_eq_of_drawn h) rfl
    (saveWallet_tables env db _).2.2.1

theorem transfer_none
    (hnone : db.uOlsWallet.findOne (fun w => w.eth_address = some tx.from_) = none) :
    (processTransferEthOrToken env db data tx).1 = db := by
  unfold processTransferEthOrToken
  rw [hnone]
  split <;> rfl

theorem withdraw_settles (hst : tx.status = .confirmed) :
    WithdrawalSettled db tx.transactionHash (processWithdrawEthOrToken db data tx).1 := by
  unfold processWithdrawEthOrToken WithdrawalSettled
  cases db.uOlsMyzc.findOne fun record => record.txhash = tx.transactionHash with
  | none => exact ⟨rfl, rfl⟩
  | some record =>
    dsimp only
    rw [if_pos hst]
    exact ⟨rfl, rfl⟩

/-- Nothing was left to settle. -/
theorem withdrawalSettled_self_iff (hash : String) :
    WithdrawalSettled db hash db ↔
      ∀ record, db.uOlsMyzc.findOne (fun record => record.txhash = hash) = some record →
        record.val.status = 2 := by
  unfold WithdrawalSettled
  cases hf : db.uOlsMyzc.findOne (fun record => record.txhash = hash) with
  | none => exact ⟨fun _ record hrecord => (Option.some_ne_none _ hrecord.symm).elim,
      fun _ => ⟨rfl, rfl⟩⟩
  | some record =>
    have hmem := (Table.mem_of_findOne hf).1
    constructor
    · rintro ⟨_, hsame⟩ record' ⟨⟩
      have hval := (Table.save_eq_self_iff hmem).mp hsame.symm
      exact (congrArg UOlsMyzc.status hval).symm
    · intro hall
      have hval : { record.val with status := 2 } = record.val := by
        rw [← hall record rfl]
      exact ⟨rfl, ((Table.save_eq_self_iff hmem).mpr hval).symm⟩

/-- A wallet that was not saved shows what was drawn when that is nothing. -/
theorem drawn_self_iff {addr : String} {user : Row UOlsWallet} {tokenAmount : Amount}
    (huser : db.uOlsWallet.findOne (fun w => w.eth_address = some addr) = some user) :
    WalletSaved db addr (·.Drawn tokenAmount ·) db ↔
      (∃ d, user.val.draw_amount = .num d) ∧ tokenAmount = .num 0 := by
  have hmem := (Table.mem_of_findOne huser).1
  constructor
  · intro hgiven
    obtain ⟨user', w, huser', ⟨d, x, hd, rfl, rfl⟩, hsaved, _⟩ := hgiven
    obtain rfl := Option.some.inj (huser.symm.trans huser')
    have hsame := congrArg UOlsWallet.draw_amount ((Table.save_eq_self_iff hmem).mp hsaved.symm)
    have hsum : d + x = d := Amount.num.inj (hsame.trans hd)
    exact ⟨⟨d, hd⟩, congrArg _ (add_eq_left.mp hsum)⟩
  · rintro ⟨⟨d, hd⟩, rfl⟩
    refine ⟨user, user.val, huser, ⟨d, 0, hd, rfl, ?_⟩, ?_, rfl⟩
    · rw [add_zero, ← hd]
    · exact ((Table.save_eq_self_iff hmem).mpr rfl).symm

end Branches

section Main

variable {env : Env} {db : Db} {data : TransferEvent} {tx : Transaction} {m : String}

/-- From another address than the manager's the handler only ever charges. -/
theorem routed_charge_iff (hst : tx.status = .confirmed) (htype : tx.type = .ols)
    (hfrom : tx.from_ ≠ m) :
    Routed db m tx (processChargeEthOrToken env db data tx).1 ↔ Bookable env db m tx := by
  have hbookable : Bookable env db m tx ↔
      (db.isMember tx.to_ → CanTake env db tx.to_ (·.Charged tx.tokenAmount ·)) ∧
      (tx.to_ = m → db.isMember m = false → ∀ user,
        db.uOlsWallet.findOne (fun w => w.eth_address = some tx.from_) = some user →
          (∃ d, user.val.draw_amount = .num d) ∧ tx.tokenAmount = .num 0) :=
    ⟨fun h => ⟨fun hto => h.deposit hto hfrom, h.sweep hfrom⟩, fun h =>
      ⟨fun hto _ => h.1 hto, fun _ => h.2, fun hm => absurd hm hfrom, fun hm => absurd hm hfrom⟩⟩
  rw [hbookable]
  unfold Routed
  cases hto : db.isMember tx.to_ with
  | true =>
    obtain ⟨user, huser⟩ := isMember_iff.mp hto
    rw [if_pos ⟨rfl, hfrom⟩, charge_saves_iff hst htype huser]
    constructor
    · intro htake
      refine ⟨fun _ => htake, ?_⟩
      rintro rfl hno
      rw [hto] at hno
      cases hno
    · intro h
      exact h.1 rfl
  | false =>
    rw [if_neg (fun h => Bool.false_ne_true h.1), charge_none (findOne_of_not_isMember hto)]
    by_cases hsweep : db.isMember tx.from_ ∧ tx.to_ = m
    · obtain ⟨user, huser⟩ := isMember_iff.mp hsweep.1
      rw [if_pos hsweep, drawn_self_iff huser]
      constructor
      · intro hnothing
        refine ⟨fun h => absurd h Bool.false_ne_true, fun _ _ user' huser' => ?_⟩
        obtain rfl := Option.some.inj (huser.symm.trans huser')
        exact hnothing
      · intro h
        exact h.2 hsweep.2 (hsweep.2 ▸ hto) user huser
    · rw [if_neg hsweep, if_neg hfrom]
      refine iff_of_true rfl ⟨fun h => absurd h Bool.false_ne_true, fun hm _ user huser => ?_⟩
      exact absurd ⟨isMember_iff.mpr ⟨user, huser⟩, hm⟩ hsweep

/-- From the manager to itself the handler looks for a member of that address. -/
theorem routed_transfer_iff (hst : tx.status = .confirmed) (htype : tx.type = .ols)
    (hfrom : tx.from_ = m) (hto : tx.to_ = m) :
    Routed db m tx (processTransferEthOrToken env db data tx).1 ↔ Bookable env db m tx := by
  have hbookable : Bookable env db m tx ↔
      (db.isMember m → CanTake env db m (·.Drawn tx.tokenAmount ·)) ∧
      (db.isMember m = false → ∀ record,
        db.uOlsMyzc.findOne (fun record => record.txhash = tx.transactionHash) = some record →
          record.val.status = 2) :=
    ⟨fun h => ⟨h.draw hfrom hto, h.withdrawal hfrom hto⟩, fun h =>
      ⟨fun _ hne => absurd hfrom hne, fun hne => absurd hfrom hne, fun _ _ => h.1,
        fun _ _ => h.2⟩⟩
  rw [hbookable]
  unfold Routed
  rw [if_neg (fun h => h.2 hfrom)]
  cases hmember : db.isMember tx.from_ with
  | true =>
    obtain ⟨user, huser⟩ := isMember_iff.mp hmember
    rw [if_pos ⟨rfl, hto⟩, transfer_saves_iff hst htype huser]
    rw [hfrom] at hmember ⊢
    rw [hmember]
    exact ⟨fun h => ⟨fun _ => h, fun hno => absurd hno.symm Bool.false_ne_true⟩, fun h => h.1 rfl⟩
  | false =>
    rw [if_neg (fun h => Bool.false_ne_true h.1), if_pos hfrom,
      transfer_none (findOne_of_not_isMember hmember), withdrawalSettled_self_iff]
    rw [hfrom] at hmember
    rw [hmember]
    exact ⟨fun h => ⟨fun hyes => absurd hyes Bool.false_ne_true, fun _ => h⟩, fun h => h.2 rfl⟩

/-- The branch the handler takes for the manager's payment to another address settles. -/
theorem routed_withdraw (hst : tx.status = .confirmed) (hfrom : tx.from_ = m) (hto : tx.to_ ≠ m) :
    Routed db m tx (processWithdrawEthOrToken db data tx).1 ∧ Bookable env db m tx := by
  rw [Routed, if_neg (fun h => h.2 hfrom), if_neg (fun h => hto h.2), if_pos hfrom]
  exact ⟨withdraw_settles hst, fun _ hne => absurd hfrom hne, fun hne => absurd hfrom hne,
    fun _ hm => absurd hm hto, fun _ hm => absurd hm hto⟩

/-- A confirmed token transfer ends in the book it belongs to, in full, exactly when a deposit or a
draw meets columns that take it, no member pays more than nothing to a manager that is none, and
no such manager pays itself with a withdrawal open. -/
theorem routed_iff (env : Env) (db : Db) (data : TransferEvent) (tx : Transaction)
    (manager : Row SManagerWallet) (hmanager : db.sManagerWallet.findById 1 = some manager)
    (hst : tx.status = .confirmed) (htype : tx.type = .ols) :
    Routed db manager.val.eth_address tx (processReceivedEthOrToken env db data tx).1 ↔
      Bookable env db manager.val.eth_address tx := by
  rw [processReceivedEthOrToken, hmanager]
  dsimp only
  by_cases hfrom : tx.from_ = manager.val.eth_address
  · rw [if_neg (fun h => h.2 hfrom)]
    by_cases hto : tx.to_ = manager.val.eth_address
    · rw [if_pos ⟨rfl, hto⟩]
      exact routed_transfer_iff hst htype hfrom hto
    · rw [if_neg (fun h => hto h.2), if_pos hfrom]
      obtain ⟨hrouted, hbookable⟩ := routed_withdraw hst hfrom hto
      exact iff_of_true hrouted hbookable
  · rw [if_pos ⟨rfl, hfrom⟩]
    exact routed_charge_iff hst htype hfrom

end Main

section Samples

/-- The member of `sampleDb` pays one token to the manager. -/
def sampleSweep : Transaction :=
  ⟨"h", 0, 5, "b", "m", .num 0, .num 1, .confirmed, .ols⟩

theorem routed_deposit :
    Routed sampleDb "m" (sampleTx sampleLog 1).val
      (processReceivedEthOrToken sampleEnv sampleDb sampleLog (sampleTx sampleLog 1).val).1 := by
  apply (routed_iff sampleEnv sampleDb sampleLog (sampleTx sampleLog 1).val ⟨1, ⟨"m"⟩⟩ rfl rfl
    rfl).mpr
  have hfrom : (sampleTx sampleLog 1).val.from_ ≠ "m" := by decide
  have hto : (sampleTx sampleLog 1).val.to_ ≠ "m" := by decide
  refine ⟨fun _ _ => ?_, fun _ hm => absurd hm hto, fun hm => absurd hm hfrom,
    fun hm => absurd hm hfrom⟩
  exact ⟨sampleUser, _, rfl, ⟨0, 0, fromWei (10 ^ 18), rfl, rfl, rfl, rfl⟩, Or.inl ⟨rfl, rfl, rfl⟩⟩

/-- A wallet that was never credited, with `NULL` in its columns. -/
def sampleNullDb : Db :=
  { sampleDb with uOlsWallet := Table.empty.insert ⟨some 1, some "b", .null, .null, .null⟩ }

/-- The payer's draw_amount stays 0 where one token was swept, and one token that is deposited to a
wallet with `NULL` columns is not added to them. -/
theorem sweep_not_booked :
    ¬ Routed sampleDb "m" sampleSweep
        (processReceivedEthOrToken sampleEnv sampleDb sampleLog sampleSweep).1 ∧
      ¬ Routed sampleNullDb "m" (sampleTx sampleLog 1).val
        (processReceivedEthOrToken sampleEnv sampleNullDb sampleLog
          (sampleTx sampleLog 1).val).1 := by
  constructor
  · have hbooks : Routed sampleDb "m" sampleSweep
        (processReceivedEthOrToken sampleEnv sampleDb sampleLog sampleSweep).1 =
        WalletSaved sampleDb "b" (·.Drawn (.num 1) ·) sampleDb := rfl
    have huser : sampleDb.uOlsWallet.findOne (fun w => w.eth_address = some "b") =
        some sampleUser := rfl
    rw [hbooks, drawn_self_iff huser]
    rintro ⟨_, hzero⟩
    exact absurd hzero (by decide)
  · have hbooks : Routed sampleNullDb "m" (sampleTx sampleLog 1).val
        (processReceivedEthOrToken sampleEnv sampleNullDb sampleLog (sampleTx sampleLog 1).val).1 =
        WalletSaved sampleNullDb "b" (·.Charged (.num (fromWei (10 ^ 18))) ·)
          (processReceivedEthOrToken sampleEnv sampleNullDb sampleLog
            (sampleTx sampleLog 1).val).1 := rfl
    rw [hbooks]
    rintro ⟨user, w, huser, ⟨a, _, _, hamount, _⟩, _⟩
    cases huser
    cases hamount

end Samples

end OlsDapp.Handler
