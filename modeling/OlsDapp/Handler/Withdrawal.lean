import OlsDapp.Handler.Settled
import OlsDapp.Handler.Wallet

/-!
# Withdrawals against the chain

A withdrawal is settled by the effect of a `Transfer` log alone, and only when that log is
handled first. What the handler writes into a record always agrees with the receipt of its
transaction; it writes it when the transaction has a log from the manager and the lookup of
its effect finds the record.
-/

namespace OlsDapp.Handler

open Lib (Row Table)
open Lib.Machine (run Along)

section Definitions

/-- A mined transaction to the token contract. -/
structure Mined where
  hash : String
  from_ : String
  status : Bool
  logs : List TransferEvent
  hashed : hash ≠ ""
  own : ∀ data ∈ logs, data.transactionHash = hash
  reverted : status = false → logs = []

/-- The node answers, and the logs come, from the chain. -/
structure Serves (chain : List Mined) (m : Move) : Prop where
  receipts : ∀ tx ∈ chain, m.Gives tx.hash ⟨tx.status⟩
  logs : ∀ data ∈ m.label.logs, ∃ tx ∈ chain, data ∈ tx.logs

/-- The receipts of the chain. -/
def ChainReceipts (chain : List Mined) : Receipts := fun hash receipt =>
  ∀ tx ∈ chain, tx.hash = hash → receipt = ⟨tx.status⟩

/-- `2` for success, `3` for failure. -/
def outcome (status : Bool) : Nat := if status then 2 else 3

/-- The record is there, with this hash. -/
def Db.HasHash (db : Db) (record : Nat) (hash : String) : Prop :=
  ∃ row, db.uOlsMyzc.findById record = some row ∧ row.val.txhash = hash

/-- The record an effect has read and has still to save. -/
def EffectPc.record : EffectPc → Option (Row UOlsMyzc)
  | .withdrawUser record => some record
  | .saveWithdraw record => some record
  | _ => none

/-- The status is what the chain says of the transaction of this hash. -/
def Agrees (chain : List Mined) (hash : String) (status : Nat) : Prop :=
  ∀ tx ∈ chain, tx.hash = hash → status = outcome tx.status

/-- What the handler writes into records, or is about to, agrees with the chain. -/
structure Settling (chain : List Mined) (s : Sys) : Prop where
  sound : s.Sound (ChainReceipts chain)
  everywhere : Everywhere (fun data => ∃ tx ∈ chain, data ∈ tx.logs) (fun _ => True) s
  held : ∀ e ∈ s.effects, ∀ record, e.pc.record = some record →
    record.val.txhash = e.data.transactionHash ∧
      s.db.HasHash record.id e.data.transactionHash ∧
      Agrees chain e.data.transactionHash record.val.status
  settled : ∀ data record status, .settled data record status ∈ s.history →
    (∃ tx ∈ chain, data ∈ tx.logs) ∧ s.db.HasHash record data.transactionHash ∧
      Agrees chain data.transactionHash status

end Definitions

section Agreement

variable {cfg : Config} {env : Env} {chain : List Mined} {s s' : Sys} {l : Label} {e : Effect}
  {db : Db} {o : Outcome} {id : Nat} {hash : String}

theorem hash_ne {data : TransferEvent} (h : ∃ tx ∈ chain, data ∈ tx.logs) :
    data.transactionHash ≠ "" := by
  obtain ⟨tx, _, hdata⟩ := h
  rw [tx.own data hdata]
  exact tx.hashed

theorem confirmed_iff {receipt : Receipt} :
    getTxStatusByReceipt receipt = .confirmed ↔ receipt.status = true := by
  unfold getTxStatusByReceipt
  split
  · next h => simp only [h]
  · next h => simp only [h, reduceCtorEq]

theorem agrees_confirmed (h : e.Sound (ChainReceipts chain)) (hst : e.tx.val.status = .confirmed) :
    Agrees chain e.data.transactionHash 2 := by
  obtain ⟨receipt, hreceipt, heq⟩ := h.receipt
  intro tx htx hhash
  rw [heq, confirmed_iff, hreceipt tx htx hhash] at hst
  have htrue : tx.status = true := hst
  rw [htrue]
  rfl

theorem agrees_refused (h : e.Sound (ChainReceipts chain)) (hst : e.tx.val.status ≠ .confirmed) :
    Agrees chain e.data.transactionHash 3 := by
  obtain ⟨receipt, hreceipt, heq⟩ := h.receipt
  intro tx htx hhash
  rw [heq, Ne, confirmed_iff, hreceipt tx htx hhash, Bool.not_eq_true] at hst
  have hfalse : tx.status = false := hst
  rw [hfalse]
  rfl

/-- The records change by the last save of an effect only. -/
theorem Resumes.records (h : Resumes env db e o) :
    o.db.uOlsMyzc = db.uOlsMyzc ∨
      ∃ record, e.pc = .saveWithdraw record ∧ o.db.uOlsMyzc = db.uOlsMyzc.save record := by
  cases h with
  | settles record at_ => exact Or.inr ⟨record, at_, rfl⟩
  | _ => exact Or.inl rfl

/-- What a step does to the records. -/
theorem step_records (hstep : step cfg env s l = some s') :
    s'.db.uOlsMyzc = s.db.uOlsMyzc ∨
      (∃ e ∈ s.effects, ∃ record, e.pc = .saveWithdraw record ∧
        s'.db.uOlsMyzc = s.db.uOlsMyzc.save record) ∨
      ∃ record txhash row, s.db.uOlsMyzc.findById record = some row ∧ row.val.txhash = "" ∧
        s'.db.uOlsMyzc = s.db.uOlsMyzc.save ⟨record, { row.val with txhash }⟩ := by
  rcases step_db hstep with db | ⟨save, db⟩ | ⟨e, he, _, db⟩ | ⟨record, txhash, row, h1, h2, db⟩
  · left
    rw [db]
  · left
    rw [db, (run_frame save s.db).2.1]
  · rw [db]
    rcases (resumes env s.db e).records with heq | ⟨record, hpc, heq⟩
    · exact Or.inl heq
    · exact Or.inr (Or.inl ⟨e, he, record, hpc, heq⟩)
  · exact Or.inr (Or.inr ⟨record, txhash, row, h1, h2, by rw [db]⟩)

/-- A hash once stored stays. -/
theorem hasHash_step (h : Settling chain s) (hstep : step cfg env s l = some s')
    (hne : hash ≠ "") (hhas : s.db.HasHash id hash) : s'.db.HasHash id hash := by
  obtain ⟨row, hrow, hhash⟩ := hhas
  unfold Db.HasHash
  rcases step_records hstep with heq | ⟨e, he, record, hpc, heq⟩ |
    ⟨record, txhash, row', hrow', hblank, heq⟩
  · rw [heq]
    exact ⟨row, hrow, hhash⟩
  · rw [heq]
    by_cases hid : id = record.id
    · subst hid
      obtain ⟨htx, ⟨row', hrow', hhash'⟩, _⟩ := h.held e he record (by rw [hpc]; rfl)
      rw [hrow] at hrow'
      obtain rfl := Option.some.inj hrow'
      exact ⟨record, Table.findById_save_self hrow, by rw [htx, ← hhash', hhash]⟩
    · rw [Table.findById_save_ne hid]
      exact ⟨row, hrow, hhash⟩
  · rw [heq]
    by_cases hid : id = record
    · subst hid
      rw [hrow] at hrow'
      obtain rfl := Option.some.inj hrow'
      exact absurd (hhash.symm.trans hblank) hne
    · rw [Table.findById_save_ne hid]
      exact ⟨row, hrow, hhash⟩

/-- What an effect takes on to save is the record it found, with the status of its row. -/
theorem Resumes.held (h : Resumes env db e o) (hsound : e.Sound (ChainReceipts chain))
    (hheld : ∀ record, e.pc.record = some record → record.val.txhash = e.data.transactionHash ∧
      db.HasHash record.id e.data.transactionHash ∧
      Agrees chain e.data.transactionHash record.val.status)
    {pc : EffectPc} (hpc : pc ∈ o.next) {record : Row UOlsMyzc} (hrec : pc.record = some record) :
    record.val.txhash = e.data.transactionHash ∧
      db.HasHash record.id e.data.transactionHash ∧
      Agrees chain e.data.transactionHash record.val.status := by
  have hhash : e.tx.val.transactionHash = e.data.transactionHash := (matches_iff.mp hsound.row).1
  have hlook {r : Row UOlsMyzc}
      (found : db.uOlsMyzc.findOne (fun r => r.txhash = e.tx.val.transactionHash) = some r) :
      r.val.txhash = e.data.transactionHash ∧ db.HasHash r.id e.data.transactionHash := by
    obtain ⟨hmem, hp⟩ := Table.mem_of_findOne found
    have heq : r.val.txhash = e.data.transactionHash := (of_decide_eq_true hp).trans hhash
    exact ⟨heq, r, Table.findById_eq_some.mpr ⟨hmem, rfl⟩, heq⟩
  cases h with
  | withdraws r at_ confirmed found =>
    obtain rfl := List.mem_singleton.mp hpc
    obtain rfl := Option.some.inj hrec
    obtain ⟨h1, h2⟩ := hlook found
    exact ⟨h1, h2, agrees_confirmed hsound confirmed⟩
  | refuses r at_ refused found =>
    obtain rfl := List.mem_singleton.mp hpc
    obtain rfl := Option.some.inj hrec
    obtain ⟨h1, h2⟩ := hlook found
    exact ⟨h1, h2, agrees_refused hsound refused⟩
  | looksUp r at_ =>
    obtain rfl := List.mem_singleton.mp hpc
    obtain rfl := Option.some.inj hrec
    exact hheld r (by rw [at_]; rfl)
  | routes manager pc' at_ found routed =>
    obtain rfl := List.mem_singleton.mp hpc
    rcases route_cases routed with rfl | rfl | rfl <;> cases hrec
  | charges user at_ confirmed found =>
    rcases List.mem_cons.mp hpc with rfl | hpc
    · cases hrec
    · obtain rfl := List.mem_singleton.mp hpc
      cases hrec
  | transfers user at_ confirmed found =>
    obtain rfl := List.mem_singleton.mp hpc
    cases hrec
  | stops => exact absurd hpc List.not_mem_nil
  | credits => exact absurd hpc List.not_mem_nil
  | deposits => exact absurd hpc List.not_mem_nil
  | draws => exact absurd hpc List.not_mem_nil
  | settles => exact absurd hpc List.not_mem_nil

theorem Resumes.settled (h : Resumes env db e o) {data : TransferEvent} {record status : Nat}
    (hn : .settled data record status ∈ o.notes) :
    ∃ row, e.pc.record = some row ∧ data = e.data ∧ record = row.id ∧ status = row.val.status := by
  cases h with
  | settles row at_ =>
    obtain ⟨rfl, rfl, rfl⟩ := Note.settled.inj (List.mem_singleton.mp hn)
    exact ⟨row, by rw [at_]; rfl, rfl, rfl, rfl⟩
  | charges => cases List.mem_singleton.mp hn
  | credits => cases List.mem_singleton.mp hn
  | transfers => cases List.mem_singleton.mp hn
  | _ => exact absurd hn List.not_mem_nil

theorem settling_step (hserves : Serves chain ⟨env, l⟩) (h : Settling chain s)
    (hstep : step cfg env s l = some s') : Settling chain s' := by
  have henv : env.Gives (ChainReceipts chain) := by
    intro hash receipt hgives tx htx hhash
    subst hhash
    exact (hserves.receipts tx htx).eq hgives
  refine ⟨sound_step henv h.sound hstep, everywhere_step hserves.logs (fun _ _ _ => trivial)
    (fun _ _ _ => trivial) h.everywhere hstep, ?_, ?_⟩
  · intro e he record hrec
    have hkeep {e₁ : Effect} (he₁ : e₁ ∈ s.effects) {id : Nat}
        (hhas : s.db.HasHash id e₁.data.transactionHash) :
        s'.db.HasHash id e₁.data.transactionHash :=
      hasHash_step h hstep (hash_ne (h.everywhere.effects e₁ he₁).1) hhas
    rcases effect_from hstep he with hold | hnew | ⟨e₁, he₁, _, pc, hpc, rfl⟩
    · obtain ⟨htx, hhas, hagrees⟩ := h.held e hold record hrec
      exact ⟨htx, hkeep hold hhas, hagrees⟩
    · rw [hnew] at hrec
      cases hrec
    · obtain ⟨htx, hhas, hagrees⟩ := (resumes env s.db e₁).held (h.sound.effects e₁ he₁)
        (h.held e₁ he₁) hpc hrec
      exact ⟨htx, hkeep he₁ hhas, hagrees⟩
  · intro data record status hn
    rcases note_from hstep hn with hold | ⟨_, _, hc⟩ | ⟨_, hc⟩ | ⟨_, _, hc⟩ | ⟨e, he, _, hnote⟩
    · obtain ⟨htx, hhas, hagrees⟩ := h.settled data record status hold
      exact ⟨htx, hasHash_step h hstep (hash_ne htx) hhas, hagrees⟩
    · cases hc
    · cases hc
    · cases hc
    · obtain ⟨row, hpc, rfl, rfl, rfl⟩ := (resumes env s.db e).settled hnote
      obtain ⟨_, hhas, hagrees⟩ := h.held e he row hpc
      have htx := (h.everywhere.effects e he).1
      exact ⟨htx, hasHash_step h hstep (hash_ne htx) hhas, hagrees⟩

theorem settling_start (db : Db) (redis : Option Nat) : Settling chain (Sys.start db redis) :=
  ⟨sound_start _ db redis, everywhere_start redis fun _ _ => trivial,
    fun _ h => absurd h List.not_mem_nil, fun _ _ _ h => absurd h List.not_mem_nil⟩

end Agreement

section Due

variable (e : TransferEvent) (k : Nat)

/-- Record `k` carries the hash of the log's transaction and the status of a success. -/
def Sys.paidOut (s : Sys) : Bool :=
  (s.db.uOlsMyzc.findById k).any fun row => row.val.txhash = e.transactionHash ∧ row.val.status = 2

/-- Where an effect waits that has still to save record `k`. -/
def EffectPc.unsettled : EffectPc → Bool
  | .manager => true
  | .withdraw => true
  | .withdrawUser record => record.id = k
  | .saveWithdraw record => record.id = k
  | _ => false

def Effect.settles (e' : Effect) : Bool := decide (e'.data.SameKey e) && e'.pc.unsettled k

/-- Unless record `k` is settled already, an effect of the log that looks a record up finds
this one, and no crash or failure takes such an effect away. -/
def Finds (s : Sys) (m : Move) : Prop :=
  s.paidOut e k = true ∨
    Spares (Effect.settles e k) (fun e' => e'.data.SameKey e → e'.pc = .withdraw →
      (s.db.uOlsMyzc.findOne fun r => r.txhash = e.transactionHash).map (·.id) = some k) s m.label

instance (s : Sys) (m : Move) : Decidable (Finds e k s m) :=
  inferInstanceAs (Decidable (_ ∨ Spares _ _ s m.label))

def SettlementOwed (s : Sys) : Prop :=
  s.paidOut e k = true ∨ ∃ e' ∈ s.effects, e'.settles e k = true

/-- The log is a transfer from the manager to another address. -/
def PayoutFrom (db : Db) : Prop :=
  ∃ manager, db.sManagerWallet.findById 1 = some manager ∧ e.from_ = manager.val.eth_address ∧
    e.to_ ≠ manager.val.eth_address

structure PaysOut (chain : List Mined) (db₀ : Db) (s : Sys) : Prop where
  settling : Settling chain s
  addressed : Addressed db₀ s
  owed : Settled e s → SettlementOwed e k s

end Due

section Steps

variable {cfg : Config} {env : Env} {chain : List Mined} {db₀ : Db} {s s' : Sys} {l : Label}
  {tx : Mined} {e : TransferEvent} {e' : Effect} {k : Nat}

theorem paidOut_iff : s.paidOut e k = true ↔
    ∃ row, s.db.uOlsMyzc.findById k = some row ∧ row.val.txhash = e.transactionHash ∧
      row.val.status = 2 := by
  unfold Sys.paidOut
  rw [Option.any_eq_true]
  refine exists_congr fun row => and_congr_right fun _ => ?_
  rw [decide_eq_true_eq]

/-- Only succeeded transactions have logs. -/
theorem status_of_log (he : e ∈ tx.logs) : tx.status = true := by
  rw [← Bool.not_eq_false]
  intro hfalse
  rw [tx.reverted hfalse] at he
  exact absurd he List.not_mem_nil

theorem route_withdraw {managerAddress : String} {t : Transaction}
    (hfrom : t.from_ = managerAddress) (hto : t.to_ ≠ managerAddress) :
    route managerAddress t = some .withdraw := by
  unfold route checkMemberAddress
  rw [if_neg fun h => h.2 hfrom, if_neg fun h => hto h.2, if_pos hfrom]

/-- A settled record stays settled. -/
theorem paidOut_step (htx : tx ∈ chain) (he : e ∈ tx.logs) (h : Settling chain s)
    (hstep : step cfg env s l = some s') (hpaid : s.paidOut e k = true) :
    s'.paidOut e k = true := by
  obtain ⟨row, hrow, hhash, hst⟩ := paidOut_iff.mp hpaid
  apply paidOut_iff.mpr
  rcases step_records hstep with heq | ⟨e₁, he₁, record, hpc, heq⟩ |
    ⟨record, txhash, row', hrow', hblank, heq⟩
  · rw [heq]
    exact ⟨row, hrow, hhash, hst⟩
  · rw [heq]
    by_cases hid : k = record.id
    · subst hid
      obtain ⟨hrec, ⟨row', hrow', hhash'⟩, hagrees⟩ := h.held e₁ he₁ record (by rw [hpc]; rfl)
      rw [hrow] at hrow'
      obtain rfl := Option.some.inj hrow'
      have hsame : e₁.data.transactionHash = e.transactionHash := hhash'.symm.trans hhash
      refine ⟨record, Table.findById_save_self hrow, hrec.trans hsame, ?_⟩
      rw [hagrees tx htx ((tx.own e he).symm.trans hsame.symm), status_of_log he]
      rfl
    · rw [Table.findById_save_ne hid]
      exact ⟨row, hrow, hhash, hst⟩
  · rw [heq]
    by_cases hid : k = record
    · subst hid
      rw [hrow] at hrow'
      obtain rfl := Option.some.inj hrow'
      exact absurd (hhash.symm.trans hblank) (hash_ne ⟨tx, htx, he⟩)
    · rw [Table.findById_save_ne hid]
      exact ⟨row, hrow, hhash, hst⟩

/-- An effect that has still to save the record does so in its step, or goes on. -/
theorem settles_resume (htx : tx ∈ chain) (he : e ∈ tx.logs) (hpayout : PayoutFrom e db₀)
    (h : PaysOut e k chain db₀ s) (he' : e' ∈ s.effects) (hkey : e'.data.SameKey e)
    (hpc : e'.pc.unsettled k = true)
    (hfinds : e'.pc = .withdraw →
      (s.db.uOlsMyzc.findOne fun r => r.txhash = e.transactionHash).map (·.id) = some k) :
    (∃ pc ∈ (e'.resume env s.db).next, pc.unsettled k = true) ∨
      ∃ row, (e'.resume env s.db).db.uOlsMyzc.findById k = some row ∧
        row.val.txhash = e.transactionHash ∧ row.val.status = 2 := by
  have hsound := h.settling.sound.effects e' he'
  have hm := hsound.row
  rw [hkey.matches_eq] at hm
  obtain ⟨hhash, _, hfrom, hto⟩ := matches_iff.mp hm
  unfold EffectPc.unsettled at hpc
  split at hpc
  · next hpc' =>
    left
    obtain ⟨manager, hmanager, hfrom', hto'⟩ := hpayout
    rw [← hfrom] at hfrom'
    rw [← hto] at hto'
    refine ⟨.withdraw, ?_, rfl⟩
    simp only [Effect.resume, hpc', h.addressed.manager, hmanager, route_withdraw hfrom' hto']
    exact List.mem_cons_self
  · next hpc' =>
    left
    obtain ⟨record, hrecord, hid⟩ := Option.map_eq_some_iff.mp (hfinds hpc')
    have hst : e'.tx.val.status = .confirmed := by
      obtain ⟨receipt, hreceipt, hst⟩ := hsound.receipt
      rw [hst, confirmed_iff, hreceipt tx htx ((tx.own e he).symm.trans hkey.1.symm)]
      exact status_of_log he
    refine ⟨.withdrawUser ⟨record.id, { record.val with status := 2 }⟩, ?_, decide_eq_true hid⟩
    simp only [Effect.resume, hpc', hhash, hrecord, hst, if_true]
    exact List.mem_cons_self
  · next record hpc' =>
    left
    refine ⟨.saveWithdraw record, ?_, hpc⟩
    simp only [Effect.resume, hpc']
    exact List.mem_cons_self
  · next record hpc' =>
    right
    obtain rfl : record.id = k := of_decide_eq_true hpc
    obtain ⟨hrec, ⟨row, hrow, _⟩, hagrees⟩ :=
      h.settling.held e' he' record (by rw [hpc']; rfl)
    simp only [Effect.resume, hpc']
    refine ⟨record, Table.findById_save_self hrow, hrec.trans hkey.1, ?_⟩
    rw [hagrees tx htx ((tx.own e he).symm.trans hkey.1.symm), status_of_log he]
    rfl
  · cases hpc

/-- What is owed stays owed until the record is settled. -/
theorem settlementOwed_step (htx : tx ∈ chain) (he : e ∈ tx.logs) (hpayout : PayoutFrom e db₀)
    (h : PaysOut e k chain db₀ s) (hg : Finds e k s ⟨env, l⟩)
    (hstep : step cfg env s l = some s') (howed : SettlementOwed e k s) :
    SettlementOwed e k s' := by
  by_cases hpaid : s.paidOut e k = true
  · exact Or.inl (paidOut_step htx he h.settling hstep hpaid)
  obtain ⟨e', he', hdue⟩ := howed.resolve_left hpaid
  rcases due_step hstep (hg.resolve_left hpaid) he' hdue with hstays | ⟨hfinds, hdb, hnext, _⟩
  · exact Or.inr ⟨e', hstays, hdue⟩
  · unfold Effect.settles at hdue
    rw [Bool.and_eq_true, decide_eq_true_eq] at hdue
    obtain ⟨hkey, hpc⟩ := hdue
    rcases settles_resume htx he hpayout h he' hkey hpc (hfinds hkey) with ⟨pc, hmem, hun⟩ | hdone
    · right
      refine ⟨{ e' with pc }, hnext pc hmem, ?_⟩
      unfold Effect.settles
      rw [Bool.and_eq_true, decide_eq_true_eq]
      exact ⟨hkey, hun⟩
    · left
      apply paidOut_iff.mpr
      rw [hdb]
      exact hdone

theorem paysOut_step (htx : tx ∈ chain) (he : e ∈ tx.logs) (hpayout : PayoutFrom e db₀)
    (hserves : Serves chain ⟨env, l⟩) (h : PaysOut e k chain db₀ s)
    (hg : Finds e k s ⟨env, l⟩) (hstep : step cfg env s l = some s') :
    PaysOut e k chain db₀ s' := by
  refine ⟨settling_step hserves h.settling hstep, addressed_step h.addressed hstep, ?_⟩
  intro hsettled
  have hreceipt : ∀ r, l = .run r → r.data.transactionHash = e.transactionHash →
      env.getTransactionReceipt e.transactionHash ≠ none := by
    intro r hl hhash
    rw [tx.own e he] at hhash ⊢
    exact (hserves.receipts tx htx).ne_none hl hhash
  rcases settled_step h.settling.sound hreceipt hstep hsettled with hold | hnew
  · exact settlementOwed_step htx he hpayout h hg hstep (h.owed hold)
  · obtain ⟨data, t, hkey, hmem⟩ := hnew
    right
    refine ⟨_, hmem, ?_⟩
    simp only [Effect.settles, hkey, EffectPc.unsettled, decide_true, Bool.and_self]

end Steps

/-- In every run: what the handler wrote into a record agrees with the receipt of the record's
transaction; and a record is settled as the chain says once a scan that had a log of its
transaction in its window has ended with all effects for it, if the log is a transfer from the
manager and every lookup for it found the record. -/
theorem withdrawal_settled (cfg : Config) (db : Db) (redis : Option Nat) (chain : List Mined)
    (ms : List Move) (hserves : ∀ m ∈ ms, Serves chain m) (s : Sys)
    (hrun : run (next cfg) (Sys.start db redis) ms = some s) :
    (∀ data record status, .settled data record status ∈ s.history →
      ∃ row, s.db.uOlsMyzc.findById record = some row ∧
        row.val.txhash = data.transactionHash ∧
        ∀ tx ∈ chain, tx.hash = row.val.txhash → status = outcome tx.status) ∧
    ∀ tx ∈ chain, ∀ e ∈ tx.logs, PayoutFrom e db →
      (∀ row ∈ db.transaction.rows, e.matches row.val = true → row.val.status = .pending) →
      ∀ k, Along (next cfg) (Finds e k) (Sys.start db redis) ms →
      ∀ c evs, .lastCheckedBlock c evs ∈ s.history → e ∈ evs →
      (∀ e' ∈ s.effects, e'.settles e k = false) →
      ∃ row, s.db.uOlsMyzc.findById k = some row ∧ row.val.txhash = tx.hash ∧
        row.val.status = outcome tx.status := by
  have hall : Along (next cfg) (fun _ _ => True) (Sys.start db redis) ms :=
    Lib.Machine.along_trivial _ ms
  constructor
  · have hsettling : Settling chain s := Lib.Machine.run_induction
      (fun s m s' hs hg hstep => settling_step hg.1 hs hstep) (settling_start db redis)
      (Lib.Machine.along_and_mem hserves hall) hrun
    intro data record status hn
    obtain ⟨_, ⟨row, hrow, hhash⟩, hagrees⟩ := hsettling.settled data record status hn
    refine ⟨row, hrow, hhash, ?_⟩
    rw [hhash]
    exact hagrees
  · intro tx htx e he hpayout hrows k hfinds c evs hscan hmem hdone
    have hstart : PaysOut e k chain db (Sys.start db redis) :=
      ⟨settling_start db redis, addressed_start db redis,
        fun h => absurd h (settled_start redis hrows)⟩
    obtain ⟨hpays, hands⟩ := Lib.Machine.run_induction
      (P := fun s => PaysOut e k chain db s ∧ HandsOver s)
      (fun s m s' hs hg hstep => ⟨paysOut_step htx he hpayout hg.1 hs.1 hg.2 hstep,
        handsOver_step hs.2 hstep⟩)
      ⟨hstart, handsOver_start db redis⟩ (Lib.Machine.along_and_mem hserves hfinds) hrun
    rcases hpays.owed (settled_of_scan hands hscan hmem) with hpaid | ⟨e', he', hdue⟩
    · obtain ⟨row, hrow, hhash, hst⟩ := paidOut_iff.mp hpaid
      refine ⟨row, hrow, hhash.trans (tx.own e he), ?_⟩
      rw [hst, status_of_log he]
      rfl
    · rw [hdone e' he'] at hdue
      cases hdue

/-- Reverted transactions carry no logs, so the handler never notes a failure. -/
theorem never_refused (cfg : Config) (db : Db) (redis : Option Nat) (chain : List Mined)
    (ms : List Move) (hserves : ∀ m ∈ ms, Serves chain m) (s : Sys)
    (hrun : run (next cfg) (Sys.start db redis) ms = some s) (data : TransferEvent)
    (record status : Nat) (hn : .settled data record status ∈ s.history) : status = 2 := by
  have hsettling : Settling chain s := Lib.Machine.run_induction
    (fun s m s' hs hg hstep => settling_step hg.1 hs hstep) (settling_start db redis)
    (Lib.Machine.along_and_mem hserves (Lib.Machine.along_trivial _ ms)) hrun
  obtain ⟨⟨tx, htx, hdata⟩, _, hagrees⟩ := hsettling.settled data record status hn
  rw [hagrees tx htx (tx.own data hdata).symm, status_of_log hdata]
  rfl

section Samples

/-- One withdrawal that has been sent and whose hash is not stored. -/
def sampleWithdrawalDb : Db :=
  { sampleDb with uOlsMyzc := Table.empty.insert ⟨7, "", 1⟩ }

def samplePayout : TransferEvent := ⟨"h", 0, 5, "m", "c", 10 ^ 18⟩

def sampleChain : List Mined :=
  [⟨"h", "m", true, [samplePayout], by decide, by decide, by decide⟩]

def sampleReverted : List Mined := [⟨"h", "m", false, [], by decide, by decide, by decide⟩]

def samplePayoutEffect (pc : EffectPc) : Label :=
  .effect ⟨samplePayout, sampleTx samplePayout 1, pc⟩

/-- The hash is stored before the scan. -/
def sampleStoredFirst : List Move :=
  sampleMoves ([.storeTxhash 1 "h"] ++ sampleScanTo 9 samplePayout ++
    [.redisSet, samplePayoutEffect .manager, samplePayoutEffect .withdraw,
      samplePayoutEffect (.withdrawUser ⟨1, ⟨7, "h", 2⟩⟩),
      samplePayoutEffect (.saveWithdraw ⟨1, ⟨7, "h", 2⟩⟩)])

theorem serves_sampleMoves {ls : List Label}
    (h : ∀ l ∈ ls, ∀ data ∈ l.logs, data = samplePayout) :
    ∀ m ∈ sampleMoves ls, Serves sampleChain m := by
  intro m hm
  obtain ⟨l, hl, rfl⟩ := List.mem_map.mp hm
  refine ⟨List.forall_mem_singleton.mpr (Or.inl rfl), fun data hdata => ?_⟩
  rw [h l hl data hdata]
  exact ⟨_, List.mem_cons_self, List.mem_cons_self⟩

theorem withdrawal_settled_stored_first :
    ∃ s row,
      run (next sampleConfig) (Sys.start sampleWithdrawalDb none) sampleStoredFirst = some s ∧
      s.db.uOlsMyzc.findById 1 = some row ∧ row.val.txhash = "h" ∧ row.val.status = 2 := by
  have h : (run (next sampleConfig) (Sys.start sampleWithdrawalDb none) sampleStoredFirst).any
      (fun s => .lastCheckedBlock 9 [samplePayout] ∈ s.history ∧
        ∀ e' ∈ s.effects, e'.settles samplePayout 1 = false) = true := by
    decide +kernel
  have hfinds : Along (next sampleConfig) (Finds samplePayout 1)
      (Sys.start sampleWithdrawalDb none) sampleStoredFirst := by
    decide +kernel
  obtain ⟨s, hs, hp⟩ := (Option.any_eq_true _ _).mp h
  obtain ⟨hscan, hdone⟩ := of_decide_eq_true hp
  obtain ⟨row, hrow, hhash, hst⟩ := (withdrawal_settled sampleConfig sampleWithdrawalDb none
    sampleChain sampleStoredFirst (serves_sampleMoves (by decide +kernel)) s hs).2 _
    List.mem_cons_self samplePayout List.mem_cons_self ⟨⟨1, ⟨"m"⟩⟩, rfl, rfl, by decide⟩
    (List.forall_mem_nil _) 1 hfinds 9 [samplePayout] hscan List.mem_cons_self hdone
  exact ⟨s, row, hs, hrow, hhash, hst⟩

/-- The scan sees the log first, then the hash is stored, then another scan runs. -/
def sampleStoredLate : List Move :=
  sampleMoves (sampleScanTo 9 samplePayout ++
    [.redisSet, samplePayoutEffect .manager, samplePayoutEffect .withdraw, .storeTxhash 1 "h"] ++
    sampleRescan 9 samplePayout)

/-- The same withdrawal when its transaction is reverted. -/
def sampleRevertedMoves : List Move :=
  [.storeTxhash 1 "h", .jobStarts, .blockNumber 9, .redisGet, .pastEvents [], .nextEvent,
    .redisSet].map (Move.mk { sampleEnv with getTransactionReceipt := fun _ => some ⟨false⟩ })

/-- A hash stored after the first scan is never settled, and no reverted withdrawal is: the
records still have status `1` when all is done. -/
theorem withdrawals_left_open :
    (∃ s, (∀ m ∈ sampleStoredLate, Serves sampleChain m) ∧
      run (next sampleConfig) (Sys.start sampleWithdrawalDb none) sampleStoredLate = some s ∧
      s.effects = [] ∧ .lastCheckedBlock 9 [samplePayout] ∈ s.history ∧
      s.db.uOlsMyzc.findById 1 = some ⟨1, ⟨7, "h", 1⟩⟩) ∧
    ∃ s, (∀ m ∈ sampleRevertedMoves, Serves sampleReverted m) ∧
      run (next sampleConfig) (Sys.start sampleWithdrawalDb none) sampleRevertedMoves = some s ∧
      s.effects = [] ∧ .lastCheckedBlock 9 [] ∈ s.history ∧
      s.db.uOlsMyzc.findById 1 = some ⟨1, ⟨7, "h", 1⟩⟩ := by
  have hlate : (run (next sampleConfig) (Sys.start sampleWithdrawalDb none) sampleStoredLate).any
      (fun s => s.effects = [] ∧ .lastCheckedBlock 9 [samplePayout] ∈ s.history ∧
        s.db.uOlsMyzc.findById 1 = some ⟨1, ⟨7, "h", 1⟩⟩) = true := by
    decide +kernel
  have hreverted : (run (next sampleConfig) (Sys.start sampleWithdrawalDb none)
      sampleRevertedMoves).any (fun s => s.effects = [] ∧ .lastCheckedBlock 9 [] ∈ s.history ∧
        s.db.uOlsMyzc.findById 1 = some ⟨1, ⟨7, "h", 1⟩⟩) = true := by
    decide +kernel
  constructor
  · obtain ⟨s, hs, hp⟩ := (Option.any_eq_true _ _).mp hlate
    exact ⟨s, serves_sampleMoves (by decide +kernel), hs, of_decide_eq_true hp⟩
  · obtain ⟨s, hs, hp⟩ := (Option.any_eq_true _ _).mp hreverted
    refine ⟨s, fun m hm => ?_, hs, of_decide_eq_true hp⟩
    have hlogs : ∀ m ∈ sampleRevertedMoves, m.label.logs = [] := by
      decide +kernel
    obtain ⟨l, _, hl⟩ := List.mem_map.mp hm
    refine ⟨List.forall_mem_singleton.mpr (Or.inl ?_), ?_⟩
    · rw [← hl]
    · rw [hlogs m hm]
      exact List.forall_mem_nil _

end Samples

end OlsDapp.Handler
