import OlsDapp.Handler.EveryDeposit
import OlsDapp.Handler.ExactCredit
import OlsDapp.Handler.Routing
import Mathlib.Data.List.Induction

/-!
# Wallet balances against deposit records

`processChargeEthOrToken` credits the wallet through `addUserCoin` and records the deposit with
an entity whose user, sender and hash it sets under names that are no columns. The record is
refused in strict mode and names nobody otherwise. So balances and records agree exactly as
long as no wallet keeps a deposit.
-/

namespace OlsDapp.Handler

open Lib (Row Table)
open Lib.Rounding (OnGrid)

/-- A transaction row that `processChargeEthOrToken` is called with, and the log it is for. -/
structure Deposit where
  data : TransferEvent
  tx : Transaction
  deriving DecidableEq

/-- The row is that of a confirmed token transfer. -/
def Deposit.Confirmed (d : Deposit) : Prop := d.tx.status = .confirmed ∧ d.tx.type = .ols

section Definitions

variable (env : Env) (db₀ db : Db)

/-- One deposit after another, each with all its effects. -/
def chargeAll (deposits : List Deposit) : Db :=
  deposits.foldl (fun db d => (processChargeEthOrToken env db d.data d.tx).1) db₀

/-- The charge_amount of a wallet. -/
def Db.charge (id : Nat) : Option ℚ :=
  (db.uOlsWallet.findById id).bind fun user => user.val.charge_amount.value

/-- The deposit records added since `db₀` that are attributed to the wallet. -/
def addedFor (id : Nat) : List (Row UOlsMyzr) :=
  db.uOlsMyzr.rows.filter fun r =>
    db₀.uOlsMyzr.nextId ≤ r.id ∧ r.val.u_user_id = id ∧ r.val.coinname = .ols

/-- The wallet has grown by its records, and each names its deposit and the sender. -/
structure ReconciledFor (deposits : List Deposit) (id : Nat) : Prop where
  charge : db.charge id =
    (db₀.charge id).map (· + ((addedFor db₀ db id).map fun r => r.val.num.value.getD 0).sum)
  records : ∀ r ∈ addedFor db₀ db id, ∃ d ∈ deposits,
    r.val.txhash = d.tx.transactionHash ∧ r.val.addr = d.tx.from_

/-- The books of every wallet agree between any two deposits. -/
def Reconciled (deposits : List Deposit) : Prop :=
  ∀ pre post, deposits = pre ++ post → ∀ user ∈ db₀.uOlsWallet.rows,
    ReconciledFor db₀ (chargeAll env db₀ pre) pre user.id

/-- The sum that is written to a column; with what is no number it is none. -/
def Amount.plus : Amount → Amount → Amount
  | .num x, .num y => .num (x + y)
  | _, _ => .nan

/-- MySQL refuses a column of the wallet the deposit is for, or what it keeps of the new
charge_amount is the old one. -/
def Unmoved (d : Deposit) : Prop :=
  ∀ user, db.uOlsWallet.findOne (fun w => w.eth_address = some d.tx.to_) = some user →
    let charge_amount := user.val.charge_amount.plus d.tx.tokenAmount
    env.double (user.val.amount.plus d.tx.tokenAmount) = none ∨
      env.double user.val.draw_amount = none ∨ env.double charge_amount = none ∨
        ∃ kept, env.double charge_amount = some kept ∧ kept.value = user.val.charge_amount.value

/-- A deposit of `x` to a wallet of numbers that have room for it. -/
structure Roomy (d : Deposit) (x : ℚ) : Prop where
  tokenAmount : d.tx.tokenAmount = .num x
  wallet : ∃ user a c, db.uOlsWallet.findOne (fun w => w.eth_address = some d.tx.to_) = some user ∧
    user.val.amount = .num a ∧ user.val.charge_amount = .num c ∧
      |a + x| ≤ columnMax ∧ |c + x| ≤ columnMax

end Definitions

section Records

variable {env : Env} {db₀ db : Db} {data : TransferEvent} {tx : Transaction} {id : Nat}

/-- Whatever record MySQL keeps is nobody's. -/
theorem row_u_user_id {d : MyzrData} {row : UOlsMyzr} (h : d.create.row env = some row) :
    row.u_user_id = 0 := by
  simp only [MyzrEntity.row, MyzrData.create, Env.column, Option.none_or, Option.bind_eq_bind,
    Option.bind_eq_some_iff, Option.pure_def, Option.some.injEq] at h
  obtain ⟨user, huser, _, _, _, _, _, _, _, _, _, _, _, _, _, _, _, _, rfl⟩ := h
  split at huser
  · cases huser
  · exact (Option.some.inj huser).symm

/-- The records added so far are nobody's. -/
def Anonymous (db₀ db : Db) : Prop :=
  ∀ r ∈ db.uOlsMyzr.rows, db₀.uOlsMyzr.nextId ≤ r.id → r.val.u_user_id = 0

theorem anonymous_refl (db : Db) : Anonymous db db := by
  intro r hr hle
  exact absurd (db.uOlsMyzr.fresh r hr) (by omega)

theorem anonymous_charge (h : Anonymous db₀ db) :
    Anonymous db₀ (processChargeEthOrToken env db data tx).1 := by
  unfold processChargeEthOrToken
  split
  · split
    · next user huser =>
      dsimp only
      generalize hsaved : (saveWallet env db
        ⟨user.id, addUserCoin user.val tx.type tx.coins⟩).getD db = saved
      have hsame : saved.uOlsMyzr = db.uOlsMyzr := by
        rw [← hsaved]
        exact (saveWallet_tables env db _).2.1
      unfold saveMyzr
      split
      · next row hrow =>
        intro r hr hle
        rcases Table.mem_insert.mp hr with hold | rfl
        · rw [hsame] at hold
          exact h r hold hle
        · exact row_u_user_id hrow
      · intro r hr hle
        rw [hsame] at hr
        exact h r hr hle
    · exact h
  · exact h

theorem anonymous_chargeAll (h : Anonymous db₀ db) (deposits : List Deposit) :
    Anonymous db₀ (chargeAll env db deposits) := by
  induction deposits generalizing db with
  | nil => exact h
  | cons d deposits ih => exact ih (anonymous_charge h)

theorem addedFor_eq_nil (h : Anonymous db₀ db) (hid : id ≠ 0) : addedFor db₀ db id = [] := by
  apply List.filter_eq_nil_iff.mpr
  intro r hr hadded
  obtain ⟨hle, huser, _⟩ := of_decide_eq_true hadded
  exact hid (huser.symm.trans (h r hr hle))

/-- With no record to a wallet's name the books agree when its balance has not changed. -/
theorem reconciledFor_iff (h : Anonymous db₀ db) (hid : id ≠ 0) (deposits : List Deposit) :
    ReconciledFor db₀ db deposits id ↔ db.charge id = db₀.charge id := by
  have hnil := addedFor_eq_nil h hid
  have hsum : (db₀.charge id).map
      (· + ((addedFor db₀ db id).map fun r => r.val.num.value.getD 0).sum) = db₀.charge id := by
    rw [hnil, List.map_nil, List.sum_nil]
    simp only [add_zero, Option.map_id']
  constructor
  · intro hr
    exact hr.charge.trans hsum
  · intro hcharge
    refine ⟨hcharge.trans hsum.symm, ?_⟩
    rw [hnil]
    exact List.forall_mem_nil _

end Records

section Balances

variable {env : Env} {db₀ db : Db} {d : Deposit} {id : Nat}

/-- The places of a list are its first and those of the rest. -/
theorem forall_split_cons {P : List Deposit → Deposit → Prop} {deposits : List Deposit} :
    (∀ pre e post, d :: deposits = pre ++ e :: post → P pre e) ↔
      P [] d ∧ ∀ pre e post, deposits = pre ++ e :: post → P (d :: pre) e := by
  constructor
  · intro h
    exact ⟨h [] d deposits rfl, fun pre e post hsplit => h (d :: pre) e post (by rw [hsplit]; rfl)⟩
  · rintro ⟨hfirst, hrest⟩ pre e post hsplit
    cases pre with
    | nil =>
      obtain ⟨rfl, _⟩ := List.cons.inj hsplit
      exact hfirst
    | cons d' pre =>
      obtain ⟨rfl, htail⟩ := List.cons.inj hsplit
      exact hrest pre e post htail

theorem addUserCoin_plus (w : UOlsWallet) (x : Amount) : addUserCoin w .ols x =
    { w with charge_amount := w.charge_amount.plus x, amount := w.amount.plus x } := by
  have hplus (a : Amount) : ((parseFloat a).add (parseFloat x)).toAmount = a.plus x := by
    cases a <;> cases x <;> rfl
  rw [addUserCoin, if_pos rfl, hplus, hplus]

/-- What one deposit does to the wallets: nothing, or the row is saved as the columns keep it. -/
theorem charge_cases (env : Env) (db : Db) (hd : d.Confirmed) :
    let done := (processChargeEthOrToken env db d.data d.tx).1
    (Unmoved env db d ∧ done.uOlsWallet = db.uOlsWallet) ∨
      ∃ user amount charge_amount draw_amount,
        db.uOlsWallet.findOne (fun w => w.eth_address = some d.tx.to_) = some user ∧
        env.double (user.val.amount.plus d.tx.tokenAmount) = some amount ∧
        env.double (user.val.charge_amount.plus d.tx.tokenAmount) = some charge_amount ∧
        env.double user.val.draw_amount = some draw_amount ∧
        done.uOlsWallet = db.uOlsWallet.save
          ⟨user.id, { user.val with amount, charge_amount, draw_amount }⟩ := by
  intro done
  simp only [done, processChargeEthOrToken]
  rw [if_pos hd.1, coins_of_ols hd.2, hd.2]
  cases huser : db.uOlsWallet.findOne (fun w => w.eth_address = some d.tx.to_) with
  | none =>
    refine Or.inl ⟨fun user' huser' => ?_, rfl⟩
    rw [huser] at huser'
    cases huser'
  | some user =>
    dsimp only
    rw [(saveMyzr_books env _ _).1, addUserCoin_plus]
    cases hs : UOlsWallet.stored env { user.val with
      charge_amount := user.val.charge_amount.plus d.tx.tokenAmount
      amount := user.val.amount.plus d.tx.tokenAmount } with
    | some stored =>
      rw [saveWallet_eq_some.mpr ⟨stored, hs, rfl⟩]
      obtain ⟨amount, charge_amount, draw_amount, ha, hc, hdraw, rfl⟩ := stored_eq_some.mp hs
      exact Or.inr ⟨user, amount, charge_amount, draw_amount, rfl, ha, hc, hdraw, rfl⟩
    | none =>
      rw [saveWallet_refused hs]
      refine Or.inl ⟨fun user' huser' => ?_, rfl⟩
      obtain rfl := Option.some.inj (huser.symm.trans huser')
      rcases stored_eq_none.mp hs with ha | hc | hdraw
      · exact Or.inl ha
      · exact Or.inr (Or.inr (Or.inl hc))
      · exact Or.inr (Or.inl hdraw)

theorem charge_congr {db db' : Db} (h : db'.uOlsWallet = db.uOlsWallet) (id : Nat) :
    db'.charge id = db.charge id := by
  rw [Db.charge, Db.charge, h]

theorem charge_of_mem {user : Row UOlsWallet} (h : user ∈ db.uOlsWallet.rows) :
    db.charge user.id = user.val.charge_amount.value := by
  rw [Db.charge, Table.findById_eq_some.mpr ⟨h, rfl⟩, Option.bind_some]

/-- A save writes the charge_amount of its own row and of no other. -/
theorem charge_save {db' : Db} {user : Row UOlsWallet} {stored : UOlsWallet}
    (hmem : user ∈ db.uOlsWallet.rows)
    (h : db'.uOlsWallet = db.uOlsWallet.save ⟨user.id, stored⟩) (id : Nat) :
    db'.charge id =
      if id = user.id then stored.charge_amount.value else db.charge id := by
  split
  · next heq =>
    have hself : (⟨user.id, stored⟩ : Row UOlsWallet) ∈ db'.uOlsWallet.rows := by
      rw [h]
      exact Table.mem_save_self hmem rfl
    rw [heq]
    exact charge_of_mem hself
  · next hne =>
    have hother : (db.uOlsWallet.save ⟨user.id, stored⟩).findById id = db.uOlsWallet.findById id :=
      Table.findById_save_ne hne
    rw [Db.charge, Db.charge, h, hother]

theorem charge_of_unmoved (hd : d.Confirmed) (h : Unmoved env db d) (id : Nat) :
    (processChargeEthOrToken env db d.data d.tx).1.charge id = db.charge id := by
  rcases charge_cases env db hd with
    ⟨_, hsame⟩ | ⟨user, amount, charge_amount, draw_amount, huser, ha, hc, hdraw, hsave⟩
  · exact charge_congr hsame id
  · have hmem := (Table.mem_of_findOne huser).1
    rw [charge_save hmem hsave]
    split
    · next heq =>
      rw [heq, charge_of_mem hmem]
      rcases h user huser with hnone | hnone | hnone | ⟨kept, hkept, hvalue⟩
      · rw [ha] at hnone
        cases hnone
      · rw [hdraw] at hnone
        cases hnone
      · rw [hc] at hnone
        cases hnone
      · rwa [← Option.some.inj (hc.symm.trans hkept)] at hvalue
    · rfl

theorem charge_of_moved (hd : d.Confirmed) (h : ¬ Unmoved env db d) :
    ∃ user ∈ db.uOlsWallet.rows,
      (processChargeEthOrToken env db d.data d.tx).1.charge user.id ≠ db.charge user.id := by
  rcases charge_cases env db hd with
    ⟨hunmoved, _⟩ | ⟨user, amount, charge_amount, draw_amount, huser, ha, hc, hdraw, hsave⟩
  · exact absurd hunmoved h
  · have hmem := (Table.mem_of_findOne huser).1
    refine ⟨user, hmem, fun heq => h fun user' huser' => ?_⟩
    obtain rfl := Option.some.inj (huser.symm.trans huser')
    rw [charge_save hmem hsave, if_pos rfl, charge_of_mem hmem] at heq
    exact Or.inr (Or.inr (Or.inr ⟨charge_amount, hc, heq⟩))

/-- Deposits that move no balance, one after another, move none. -/
theorem chargeAll_unmoved {deposits : List Deposit} (hd : ∀ d ∈ deposits, d.Confirmed)
    (h : ∀ pre d post, deposits = pre ++ d :: post → Unmoved env (chargeAll env db pre) d)
    (id : Nat) : (chargeAll env db deposits).charge id = db.charge id := by
  induction deposits generalizing db with
  | nil => rfl
  | cons d deposits ih =>
    obtain ⟨hfirst, hrest⟩ := List.forall_mem_cons.mp hd
    obtain ⟨hunmoved, hlater⟩ := forall_split_cons.mp h
    exact Eq.trans (ih hrest hlater) (charge_of_unmoved hfirst hunmoved id)

/-- No wallet comes or goes. -/
theorem chargeAll_addresses {deposits : List Deposit} (hd : ∀ d ∈ deposits, d.Confirmed) :
    (chargeAll env db deposits).addresses = db.addresses := by
  induction deposits generalizing db with
  | nil => rfl
  | cons d deposits ih =>
    obtain ⟨hfirst, hrest⟩ := List.forall_mem_cons.mp hd
    have hsame : (processChargeEthOrToken env db d.data d.tx).1.addresses = db.addresses := by
      rcases charge_cases env db hfirst with
        ⟨_, hsame⟩ | ⟨user, amount, charge_amount, draw_amount, huser, _, _, _, hsave⟩
      · exact addresses_congr hsame
      · rw [Db.addresses, hsave]
        exact addresses_save user (mem_addresses (Table.mem_of_findOne huser).1) rfl
    exact (ih hrest).trans hsame

end Balances

section Hundredths

variable {env : Env} {db db' : Db} {d : Deposit} {round : ℚ → ℚ} {x : ℚ}

theorem Roomy.congr (h : db'.uOlsWallet = db.uOlsWallet) (hroomy : Roomy db d x) :
    Roomy db' d x := by
  obtain ⟨htoken, hwallet⟩ := hroomy
  refine ⟨htoken, ?_⟩
  rwa [h]

/-- What the columns keep of a deposit to numbers with room for it. -/
theorem Roomy.kept (h : DoubleColumn env round)
    (hadmitted : ∀ user ∈ db.uOlsWallet.rows, user.val.Admitted) (hroomy : Roomy db d x) :
    ∃ user a c, db.uOlsWallet.findOne (fun w => w.eth_address = some d.tx.to_) = some user ∧
      user ∈ db.uOlsWallet.rows ∧ user.val.amount = .num a ∧ user.val.charge_amount = .num c ∧
      OnGrid (1 / 100) a ∧ OnGrid (1 / 100) c ∧
      env.double (user.val.amount.plus d.tx.tokenAmount) = some (.num (round (a + x))) ∧
      env.double (user.val.charge_amount.plus d.tx.tokenAmount) = some (.num (round (c + x))) ∧
      env.double user.val.draw_amount = some user.val.draw_amount := by
  obtain ⟨htoken, user, a, c, huser, ha, hc, hamax, hcmax⟩ := hroomy
  have hmem := (Table.mem_of_findOne huser).1
  have hrow := hadmitted user hmem
  refine ⟨user, a, c, huser, hmem, ha, hc, hrow.amount.onGrid ha, hrow.charge_amount.onGrid hc,
    ?_, ?_, h.stored hrow.draw_amount⟩
  · rw [ha, htoken]
    exact h.num _ hamax
  · rw [hc, htoken]
    exact h.num _ hcmax

/-- Such a deposit moves no balance exactly when it is less than half a hundredth. -/
theorem unmoved_iff_of_roomy (h : DoubleColumn env round)
    (hadmitted : ∀ user ∈ db.uOlsWallet.rows, user.val.Admitted) (hroomy : Roomy db d x)
    (hx : |x| ≠ 1 / 200) : Unmoved env db d ↔ |x| < 1 / 200 := by
  obtain ⟨user, a, c, huser, _, _, hc, _, hcgrid, ha', hc', hdraw'⟩ := hroomy.kept h hadmitted
  have hhalf : (1 : ℚ) / 200 = 1 / 100 / 2 := by norm_num
  rw [hhalf] at hx ⊢
  rw [← h.nearest.round_add_eq_iff hcgrid hx]
  constructor
  · intro hunmoved
    rcases hunmoved user huser with hnone | hnone | hnone | ⟨kept, hkept, hvalue⟩
    · rw [ha'] at hnone
      cases hnone
    · rw [hdraw'] at hnone
      cases hnone
    · rw [hc'] at hnone
      cases hnone
    · rw [← Option.some.inj (hc'.symm.trans hkept), hc] at hvalue
      exact Option.some.inj hvalue
  · intro hround user' huser'
    obtain rfl := Option.some.inj (huser.symm.trans huser')
    refine Or.inr (Or.inr (Or.inr ⟨_, hc', ?_⟩))
    rw [hround, hc]

/-- It leaves every column of every wallet as it is. -/
theorem wallets_of_small (h : DoubleColumn env round)
    (hadmitted : ∀ user ∈ db.uOlsWallet.rows, user.val.Admitted) (hd : d.Confirmed)
    (hroomy : Roomy db d x) (hx : |x| < 1 / 200) :
    (processChargeEthOrToken env db d.data d.tx).1.uOlsWallet = db.uOlsWallet := by
  obtain ⟨user, a, c, huser, hmem, ha, hc, hagrid, hcgrid, ha', hc', hdraw'⟩ :=
    hroomy.kept h hadmitted
  have hhalf : (1 : ℚ) / 200 = 1 / 100 / 2 := by norm_num
  rw [hhalf] at hx
  rw [(h.nearest.round_add_eq_iff hagrid hx.ne).mpr hx, ← ha] at ha'
  rw [(h.nearest.round_add_eq_iff hcgrid hx.ne).mpr hx, ← hc] at hc'
  rcases charge_cases env db hd with
    ⟨_, hsame⟩ | ⟨user', amount, charge_amount, draw_amount, huser', hkept, hkept', hkept'', hsave⟩
  · exact hsame
  · obtain rfl := Option.some.inj (huser.symm.trans huser')
    obtain rfl := Option.some.inj (ha'.symm.trans hkept)
    obtain rfl := Option.some.inj (hc'.symm.trans hkept')
    obtain rfl := Option.some.inj (hdraw'.symm.trans hkept'')
    exact hsave.trans ((Table.save_eq_self_iff hmem).mpr rfl)

end Hundredths

section Main

variable {env : Env} {db₀ : Db} {deposits : List Deposit}

theorem exists_id_of_mem {db : Db} (h : db.addresses = db₀.addresses) {user : Row UOlsWallet}
    (hmem : user ∈ db.uOlsWallet.rows) : ∃ user₀ ∈ db₀.uOlsWallet.rows, user₀.id = user.id := by
  have haddr := mem_addresses hmem
  rw [h] at haddr
  obtain ⟨user₀, hmem₀, heq⟩ := List.mem_map.mp haddr
  exact ⟨user₀, hmem₀, congrArg Prod.fst heq⟩

/-- The books agree as long as no deposit moves a balance. -/
theorem reconciled_iff_unmoved (env : Env) (hids : ∀ user ∈ db₀.uOlsWallet.rows, user.id ≠ 0)
    (hd : ∀ d ∈ deposits, d.Confirmed) :
    Reconciled env db₀ deposits ↔ ∀ pre d post, deposits = pre ++ d :: post →
      Unmoved env (chargeAll env db₀ pre) d := by
  have hanon (pre : List Deposit) : Anonymous db₀ (chargeAll env db₀ pre) :=
    anonymous_chargeAll (anonymous_refl db₀) pre
  constructor
  · rintro h pre d post rfl
    by_contra hmoved
    obtain ⟨hpre, hpost⟩ := List.forall_mem_append.mp hd
    obtain ⟨user, hmem, hne⟩ := charge_of_moved (hpost d List.mem_cons_self) hmoved
    obtain ⟨user₀, hmem₀, hid⟩ := exists_id_of_mem (chargeAll_addresses hpre) hmem
    have hsplit : pre ++ d :: post = (pre ++ [d]) ++ post := by
      rw [List.append_assoc, List.singleton_append]
    have hbefore := (reconciledFor_iff (hanon pre) (hids user₀ hmem₀) pre).mp
      (h pre (d :: post) rfl user₀ hmem₀)
    have hafter := (reconciledFor_iff (hanon (pre ++ [d])) (hids user₀ hmem₀) _).mp
      (h (pre ++ [d]) post hsplit user₀ hmem₀)
    rw [hid] at hbefore hafter
    rw [chargeAll, List.foldl_append] at hafter
    exact hne (hafter.trans hbefore.symm)
  · rintro h pre post rfl user hmem
    obtain ⟨hpre, _⟩ := List.forall_mem_append.mp hd
    apply (reconciledFor_iff (hanon pre) (hids user hmem) pre).mpr
    apply chargeAll_unmoved hpre
    rintro pre' d post' rfl
    exact h pre' d (post' ++ post) (by rw [List.append_assoc, List.cons_append])

/-- From wallets of numbers with room, that is as long as every deposit is rounded away. -/
theorem unmoved_iff_small {round : ℚ → ℚ} (h : DoubleColumn env round)
    (hadmitted : ∀ user ∈ db₀.uOlsWallet.rows, user.val.Admitted)
    (hd : ∀ d ∈ deposits, d.Confirmed)
    (hroomy : ∀ d ∈ deposits, ∃ x, Roomy db₀ d x ∧ |x| ≠ 1 / 200) :
    (∀ pre d post, deposits = pre ++ d :: post → Unmoved env (chargeAll env db₀ pre) d) ↔
      ∀ d ∈ deposits, ∀ x, d.tx.tokenAmount = .num x → |x| < 1 / 200 := by
  induction deposits generalizing db₀ with
  | nil =>
    refine iff_of_true (fun pre d post hsplit => ?_) (List.forall_mem_nil _)
    exact absurd hsplit.symm (List.append_ne_nil_of_right_ne_nil _ (List.cons_ne_nil _ _))
  | cons d deposits ih =>
    obtain ⟨hfirst, hrest⟩ := List.forall_mem_cons.mp hd
    obtain ⟨⟨x, hx, hne⟩, hroomy'⟩ := List.forall_mem_cons.mp hroomy
    have hunmoved : Unmoved env (chargeAll env db₀ []) d ↔
        ∀ y, d.tx.tokenAmount = .num y → |y| < 1 / 200 := by
      refine (unmoved_iff_of_roomy h hadmitted hx hne).trans ⟨fun hlt y hy => ?_, fun hall => ?_⟩
      · rwa [← Amount.num.inj (hx.tokenAmount.symm.trans hy)]
      · exact hall x hx.tokenAmount
    rw [forall_split_cons, List.forall_mem_cons, hunmoved]
    refine and_congr_right fun hsmall => ?_
    -- a deposit that is rounded away leaves the wallets to the next as they were
    have hsame := wallets_of_small h hadmitted hfirst hx (hsmall x hx.tokenAmount)
    refine ih ?_ hrest fun e he => ?_
    · rwa [hsame]
    · obtain ⟨y, hy, hne⟩ := hroomy' e he
      exact ⟨y, hy.congr hsame, hne⟩

/-- Between any two deposits, in either mode of MySQL, the balances agree with the records if and
only if the columns of every wallet have refused its deposits or rounded them away, each when its
turn came. From wallets of numbers with room for them those are the deposits of less than half a
hundredth. -/
theorem reconciled_iff (env : Env) (db₀ : Db) (deposits : List Deposit)
    (hids : ∀ user ∈ db₀.uOlsWallet.rows, user.id ≠ 0)
    (hd : ∀ d ∈ deposits, d.Confirmed) :
    (Reconciled env db₀ deposits ↔ ∀ pre d post, deposits = pre ++ d :: post →
      Unmoved env (chargeAll env db₀ pre) d) ∧
    ∀ round, DoubleColumn env round →
      (∀ user ∈ db₀.uOlsWallet.rows, user.val.Admitted) →
      (∀ d ∈ deposits, ∃ x, Roomy db₀ d x ∧ |x| ≠ 1 / 200) →
        (Reconciled env db₀ deposits ↔
          ∀ d ∈ deposits, ∀ x, d.tx.tokenAmount = .num x → |x| < 1 / 200) := by
  have hiff := reconciled_iff_unmoved env hids hd
  refine ⟨hiff, fun round hround hadmitted hroomy => hiff.trans ?_⟩
  exact unmoved_iff_small hround hadmitted hd hroomy

end Main

section Samples

/-- A deposit of so many wei to the member of `sampleDb`. -/
def sampleDeposit (wei : Nat) : Deposit :=
  ⟨{ sampleLog with value := wei },
    transformedTxData sampleEnv { sampleLog with value := wei } ⟨true⟩⟩

theorem forall_mem_pair {a b : Deposit} {P : Deposit → Prop} (ha : P a) (hb : P b) :
    ∀ d ∈ [a, b], P d :=
  List.forall_mem_cons.mpr ⟨ha, List.forall_mem_singleton.mpr hb⟩

theorem roomy_sampleDeposit {wei : Nat} (h : |fromWei wei| ≤ columnMax) :
    Roomy sampleDb (sampleDeposit wei) (fromWei wei) := by
  have hroom : |0 + fromWei wei| ≤ columnMax := by rwa [zero_add]
  exact ⟨rfl, sampleUser, 0, 0, rfl, rfl, rfl, hroom, hroom⟩

/-- Two deposits of a few wei are rounded away; one wei and then a token are not. -/
theorem reconciled_few_wei :
    Reconciled columnEnv sampleDb [sampleDeposit 1, sampleDeposit 2] ∧
      ¬ Reconciled columnEnv sampleDb [sampleDeposit 1, sampleDeposit (10 ^ 18)] := by
  have hids : ∀ user ∈ sampleDb.uOlsWallet.rows, user.id ≠ 0 := by decide
  have hconfirmed (wei wei' : Nat) : ∀ d ∈ [sampleDeposit wei, sampleDeposit wei'], d.Confirmed :=
    forall_mem_pair ⟨rfl, rfl⟩ ⟨rfl, rfl⟩
  have hadmitted : ∀ user ∈ sampleDb.uOlsWallet.rows, user.val.Admitted := by
    have hzero : (Amount.num 0).Stored :=
      Or.inr ⟨0, rfl, Lib.Rounding.onGrid_zero _, by norm_num [columnMax]⟩
    intro user huser
    obtain rfl := List.mem_singleton.mp huser
    exact ⟨hzero, hzero, hzero⟩
  have hroomy (wei wei' : Nat) (h : |fromWei wei| ≤ columnMax ∧ |fromWei wei| ≠ 1 / 200)
      (h' : |fromWei wei'| ≤ columnMax ∧ |fromWei wei'| ≠ 1 / 200) :
      ∀ d ∈ [sampleDeposit wei, sampleDeposit wei'], ∃ x, Roomy sampleDb d x ∧ |x| ≠ 1 / 200 :=
    forall_mem_pair ⟨_, roomy_sampleDeposit h.1, h.2⟩ ⟨_, roomy_sampleDeposit h'.1, h'.2⟩
  have hone : |fromWei 1| ≤ columnMax ∧ |fromWei 1| < 1 / 200 := by norm_num [fromWei, columnMax]
  have htwo : |fromWei 2| ≤ columnMax ∧ |fromWei 2| < 1 / 200 := by norm_num [fromWei, columnMax]
  have htoken : |fromWei (10 ^ 18)| ≤ columnMax ∧ 1 / 200 < |fromWei (10 ^ 18)| := by
    norm_num [fromWei, columnMax]
  constructor
  · apply ((reconciled_iff columnEnv sampleDb [sampleDeposit 1, sampleDeposit 2] hids
      (hconfirmed 1 2)).2 _ columnEnv_double hadmitted (hroomy 1 2 ⟨hone.1, hone.2.ne⟩
        ⟨htwo.1, htwo.2.ne⟩)).mpr
    refine forall_mem_pair (fun x hx => ?_) (fun x hx => ?_)
    · cases hx
      exact hone.2
    · cases hx
      exact htwo.2
  · intro h
    have hsmall := ((reconciled_iff columnEnv sampleDb [sampleDeposit 1, sampleDeposit (10 ^ 18)]
      hids (hconfirmed 1 (10 ^ 18))).2 _ columnEnv_double hadmitted (hroomy 1 (10 ^ 18)
        ⟨hone.1, hone.2.ne⟩ ⟨htoken.1, htoken.2.ne'⟩)).mp h
    exact (hsmall _ (List.mem_cons_of_mem _ List.mem_cons_self) _ rfl).not_gt htoken.2

/-- One token is credited and no record of it attributed to the wallet, in strict mode or not. -/
theorem deposit_without_record :
    ¬ Reconciled sampleEnv sampleDb [sampleDeposit (10 ^ 18)] ∧
      ¬ Reconciled { sampleEnv with strict := false } sampleDb [sampleDeposit (10 ^ 18)] := by
  constructor
  · intro h
    have hbooks := h [sampleDeposit (10 ^ 18)] [] rfl sampleUser List.mem_cons_self
    exact absurd hbooks.charge (by decide +kernel)
  · intro h
    have hbooks := h [sampleDeposit (10 ^ 18)] [] rfl sampleUser List.mem_cons_self
    exact absurd hbooks.charge (by decide +kernel)

end Samples

end OlsDapp.Handler
