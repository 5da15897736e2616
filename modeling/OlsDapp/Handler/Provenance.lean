import OlsDapp.Handler.Invariant
import OlsDapp.Handler.Routing
import OlsDapp.Handler.Wallet

/-!
# What every write stands for

An effect credits a wallet or settles a withdrawal long after the call that started it, and
other calls save rows meanwhile. `Sourced` follows an amount from the log to the effect,
`Standing` the addresses and the status, so that each note of the history leads back to a log
the handler was given in this run and to the receipt the node gave for it.
-/

namespace OlsDapp.Handler

open Lib (Row Table)
open Lib.Machine (run Along)

section Definitions

/-- The logs the handler is given in a run. -/
def Heard (ms : List Move) (data : TransferEvent) : Prop := ∃ m ∈ ms, data ∈ m.label.logs

/-- The receipts the node gives in a run. -/
def GivenIn (ms : List Move) : Receipts := fun hash receipt =>
  ∃ m ∈ ms, m.env.getTransactionReceipt hash = some receipt

/-- The address of the manager. -/
def Db.managerAddress (db : Db) : Option String :=
  (db.sManagerWallet.findById 1).map (·.val.eth_address)

/-- The wallet an address belongs to. -/
def Db.owner (db : Db) (address : String) : Option Nat :=
  (db.uOlsWallet.findOne fun w => w.eth_address = some address).map (·.id)

/-- The amount is the log's own, or that of a row of its key that was pending in `db`. -/
def TransferEvent.Amounts (db : Db) (data : TransferEvent) (amount : Amount) : Prop :=
  amount = .num (fromWei data.value) ∨
    ∃ row ∈ db.transaction.rows, row.val.status = .pending ∧ data.matches row.val = true ∧
      row.val.tokenAmount = amount

/-- The log is one of the logs, and a receipt of its transaction has this status. -/
def TransferEvent.Attested (D : TransferEvent → Prop) (receipts : Receipts)
    (data : TransferEvent) (status : TxStatus) : Prop :=
  D data ∧ ∃ receipt, receipts data.transactionHash receipt ∧
    status = getTxStatusByReceipt receipt

/-- What a note has behind it. -/
def Note.Vouched (D : TransferEvent → Prop) (receipts : Receipts) (db : Db) : Note → Prop
  | .processReceivedEthOrToken data tx =>
    data.Attested D receipts tx.val.status ∧ data.matches tx.val = true ∧
      data.Amounts db tx.val.tokenAmount
  | .addUserCoin data user amount | .credited data user amount =>
    data.Attested D receipts .confirmed ∧ (db.managerAddress ≠ none ∧
      db.managerAddress ≠ some data.from_) ∧ db.owner data.to_ = some user ∧
        data.Amounts db amount
  | .addUserDrawCoin data user amount =>
    data.Attested D receipts .confirmed ∧ (db.managerAddress = some data.from_ ∧
      data.to_ = data.from_) ∧ db.owner data.from_ = some user ∧ data.Amounts db amount
  | .settled data _ status =>
    (data.Attested D receipts .confirmed ∧ status = 2 ∨
      data.Attested D receipts .failed ∧ status = 3) ∧
        db.managerAddress = some data.from_ ∧ data.to_ ≠ data.from_
  | .handled data => D data
  | .lastCheckedBlock _ _ => True

/-- The transactions of the table, of the calls and of the effects have their amounts from
their logs; a row that is still pending was so in `db`. -/
structure Sourced (db : Db) (s : Sys) : Prop where
  pending : ∀ row ∈ s.db.transaction.rows, row.val.status = .pending → row ∈ db.transaction.rows
  held : ∀ r ∈ s.runs, ∀ tx, r.pc.held = some tx → tx.val.status = .pending →
    tx ∈ db.transaction.rows
  saves : ∀ r ∈ s.runs, ∀ save, r.pc = .save save → r.data.Amounts db save.val.tokenAmount
  effects : ∀ e ∈ s.effects, e.data.Amounts db e.tx.val.tokenAmount

/-- Where an effect is, the addresses and the status of its transaction have led it. -/
def Effect.Standing (db : Db) (e : Effect) : Prop :=
  match e.pc with
  | .manager => True
  | .charge | .saveMyzr _ =>
    db.managerAddress ≠ none ∧ db.managerAddress ≠ some e.data.from_
  | .addUserCoin user amount =>
    (db.managerAddress ≠ none ∧ db.managerAddress ≠ some e.data.from_) ∧
      e.tx.val.status = .confirmed ∧ db.owner e.data.to_ = some user.id ∧
        amount = e.tx.val.tokenAmount
  | .transfer | .addUserDrawCoin _ _ =>
    db.managerAddress = some e.data.from_ ∧ e.data.to_ = e.data.from_
  | .withdraw => db.managerAddress = some e.data.from_ ∧ e.data.to_ ≠ e.data.from_
  | .withdrawUser record =>
    (db.managerAddress = some e.data.from_ ∧ e.data.to_ ≠ e.data.from_) ∧
      e.tx.val.status = .confirmed ∧ record.val.status = 2
  | .saveWithdraw record =>
    (db.managerAddress = some e.data.from_ ∧ e.data.to_ ≠ e.data.from_) ∧
      (e.tx.val.status = .confirmed ∧ record.val.status = 2 ∨
        e.tx.val.status ≠ .confirmed ∧ record.val.status = 3)

end Definitions

section Sources

variable {cfg : Config} {env : Env} {receipts : Receipts} {db : Db} {s s' : Sys} {l : Label}

theorem sourced_start (db : Db) (redis : Option Nat) : Sourced db (Sys.start db redis) :=
  ⟨fun _ h _ => h, fun _ h => absurd h List.not_mem_nil, fun _ h => absurd h List.not_mem_nil,
    fun _ h => absurd h List.not_mem_nil⟩

/-- What a call saves is no longer pending. -/
theorem status_of_save {r : Run} {save : Save} (h : r.Answered receipts)
    (hpc : r.pc = .save save) : save.val.status ≠ .pending := by
  unfold Run.Answered at h
  rw [hpc] at h
  obtain ⟨receipt, _, hstatus⟩ := h
  rw [hstatus]
  exact getTxStatusByReceipt_ne_pending receipt

/-- A call holds a pending row of the first state, or saves an amount of its log. -/
theorem sourced_waits (h : Sourced db s) {r : Run} (hr : r ∈ s.runs)
    (hheld : r.Held s.db.transaction) {pc : RunPc} (hres : r.resume env s.db = .waits pc) :
    (∀ tx, pc.held = some tx → tx.val.status = .pending → tx ∈ db.transaction.rows) ∧
      ∀ save, pc = .save save → r.data.Amounts db save.val.tokenAmount := by
  rcases resume_waits hres with ⟨_, rfl⟩ | ⟨tx, receipt, hpc, _, rfl⟩ |
    ⟨tx, receipt, save, hpc, hsave, rfl⟩
  · refine ⟨fun tx htx => ?_, fun _ hc => absurd hc nofun⟩
    exact h.pending tx (Table.mem_of_findOne htx).1
  · refine ⟨fun tx' htx => h.held r hr tx' ?_, fun _ hc => absurd hc nofun⟩
    rw [hpc]
    exact htx
  · rcases saveOf_some hsave with ⟨rfl, rfl⟩ | ⟨row, rfl, hpending, rfl⟩
    · refine ⟨fun _ hc => absurd hc nofun, fun save hc => ?_⟩
      cases hc
      exact Or.inl rfl
    · have hrow : r.pc.held = some row := by rw [hpc]; rfl
      refine ⟨fun tx htx hstatus => ?_, fun save hc => ?_⟩
      · cases htx
        exact absurd hstatus (getTxStatusByReceipt_ne_pending receipt)
      · cases hc
        exact Or.inr ⟨row, h.held r hr row hrow hpending, hpending, (hheld.row row hrow).1, rfl⟩

theorem sourced_step (hs : s.Sound receipts) (h : Sourced db s)
    (hstep : step cfg env s l = some s') : Sourced db s' := by
  have hkeep (hdb : s'.db.transaction = s.db.transaction) (hruns : s'.runs ⊆ s.runs)
      (heffects : ∀ e ∈ s'.effects, e.data.Amounts db e.tx.val.tokenAmount) : Sourced db s' :=
    ⟨by rw [hdb]; exact h.pending, fun r hr => h.held r (hruns hr),
      fun r hr => h.saves r (hruns hr), heffects⟩
  cases step_change hstep with
  | arrives data awaited _ dbs runs effects _ =>
    refine ⟨by rw [dbs]; exact h.pending, fun r hr => ?_, fun r hr => ?_,
      by rw [effects]; exact h.effects⟩
    · rcases List.mem_cons.mp (runs ▸ hr) with rfl | hr
      · exact fun _ hc => absurd hc nofun
      · exact h.held r hr
    · rcases List.mem_cons.mp (runs ▸ hr) with rfl | hr
      · exact fun _ hc => absurd hc nofun
      · exact h.saves r hr
  | scans _ _ dbs runs effects _ =>
    exact hkeep (by rw [dbs]) (by rw [runs]; exact fun _ h => h) (by rw [effects]; exact h.effects)
  | waits r mem pc resumed dbs runs effects _ =>
    obtain ⟨hheld, hsaves⟩ := sourced_waits h mem (hs.held r mem) resumed
    have hcases : ∀ r' ∈ s'.runs, r' = { r with pc } ∨ r' ∈ s.runs := fun r' hr' =>
      (Lib.InFlight.mem_resume_imp (runs ▸ hr')).imp_left List.mem_singleton.mp
    refine ⟨by rw [dbs]; exact h.pending, fun r' hr' => ?_, fun r' hr' => ?_,
      by rw [effects]; exact h.effects⟩
    · rcases hcases r' hr' with rfl | hr'
      · exact hheld
      · exact h.held r' hr'
    · rcases hcases r' hr' with rfl | hr'
      · exact hsaves
      · exact h.saves r' hr'
  | returns r mem _ _ _ dbs runs effects _ =>
    exact hkeep (by rw [dbs]) (by rw [runs]; exact List.erase_subset)
      (by rw [effects]; exact h.effects)
  | starts r mem save at_save _ _ dbs runs effects _ =>
    have hsub : s'.runs ⊆ s.runs := by
      rw [runs]
      exact List.erase_subset
    refine ⟨fun row hrow hstatus => ?_, fun r hr => h.held r (hsub hr),
      fun r hr => h.saves r (hsub hr), fun e he => ?_⟩
    · rcases mem_rows_run (dbs ▸ hrow) with hrow | hval
      · exact h.pending row hrow hstatus
      · rw [hval] at hstatus
        exact absurd hstatus (status_of_save (hs.answered r mem) at_save)
    · rcases List.mem_cons.mp (effects ▸ he) with rfl | he
      · rw [run_val]
        exact h.saves r mem save at_save
      · exact h.effects e he
  | runFails r mem dbs runs effects _ =>
    exact hkeep (by rw [dbs]) (by rw [runs]; exact List.erase_subset)
      (by rw [effects]; exact h.effects)
  | effect e mem dbs runs effects _ =>
    refine hkeep (by rw [dbs, (resumes env s.db e).frame.1]) (by rw [runs]; exact fun _ h => h)
      fun e' he' => ?_
    rcases Lib.InFlight.mem_resume_imp (effects ▸ he') with he' | he'
    · obtain ⟨pc, _, rfl⟩ := List.mem_map.mp he'
      exact h.effects e mem
    · exact h.effects e' he'
  | effectFails e mem dbs runs effects _ =>
    refine hkeep (by rw [dbs]) (by rw [runs]; exact fun _ h => h) fun e' he' => ?_
    exact h.effects e' (List.mem_of_mem_erase (effects ▸ he'))
  | crash dbs runs effects _ =>
    refine hkeep (by rw [dbs]) (by rw [runs]; exact List.nil_subset _) fun e' he' => ?_
    exact absurd (effects ▸ he') List.not_mem_nil
  | storeTxhash record txhash row _ _ dbs runs effects _ =>
    exact hkeep (by rw [dbs]) (by rw [runs]; exact fun _ h => h) (by rw [effects]; exact h.effects)

end Sources

section Standing

variable {D : TransferEvent → Prop} {receipts : Receipts} {env : Env} {db db₀ : Db} {e : Effect}
  {o : Outcome}

/-- The three cases of the routing by the sender and the receiver: every address passes for a
member's. -/
theorem route_standing {managerAddress : String} {tx : Transaction} {pc : EffectPc}
    (h : route managerAddress tx = some pc) :
    (pc = .charge ∧ tx.from_ ≠ managerAddress) ∨
      (pc = .transfer ∧ tx.from_ = managerAddress ∧ tx.to_ = managerAddress) ∨
        pc = .withdraw ∧ tx.from_ = managerAddress ∧ tx.to_ ≠ managerAddress := by
  unfold route checkMemberAddress at h
  by_cases hfrom : tx.from_ = managerAddress
  · rw [if_neg fun hc => hc.2 hfrom] at h
    by_cases hto : tx.to_ = managerAddress
    · rw [if_pos ⟨rfl, hto⟩] at h
      exact Or.inr (Or.inl ⟨(Option.some.inj h).symm, hfrom, hto⟩)
    · rw [if_neg fun hc => hto hc.2, if_pos hfrom] at h
      exact Or.inr (Or.inr ⟨(Option.some.inj h).symm, hfrom, hto⟩)
  · rw [if_pos ⟨rfl, hfrom⟩] at h
    exact Or.inl ⟨(Option.some.inj h).symm, hfrom⟩

/-- The wallet found by an address is its owner in the first state. -/
theorem owner_of_found {address : String} {user : Row UOlsWallet}
    (haddresses : db.addresses = db₀.addresses)
    (h : db.uOlsWallet.findOne (fun w => w.eth_address = some address) = some user) :
    db₀.owner address = some user.id := by
  have hid := findOne_address haddresses address
  rw [h, Option.map_some] at hid
  exact hid.symm

theorem coins_of_row (h : e.data.matches e.tx.val = true) :
    e.tx.val.coins = e.tx.val.tokenAmount :=
  coins_of_ols (matches_iff.mp h).2.1

theorem Resumes.standing (h : Resumes env db e o) (haddresses : db.addresses = db₀.addresses)
    (hmanager : db.sManagerWallet = db₀.sManagerWallet)
    (hrow : e.data.matches e.tx.val = true) (hst : e.Standing db₀) :
    ∀ pc ∈ o.next, ({ e with pc } : Effect).Standing db₀ := by
  obtain ⟨_, _, hfrom, hto⟩ := matches_iff.mp hrow
  unfold Effect.Standing at hst
  cases h with
  | stops => exact List.forall_mem_nil _
  | routes manager pc at_ found routed =>
    have haddress : db₀.managerAddress = some manager.val.eth_address := by
      unfold Db.managerAddress
      rw [← hmanager, found, Option.map_some]
    refine List.forall_mem_singleton.mpr ?_
    rcases route_standing routed with ⟨rfl, hne⟩ | ⟨rfl, heq, hself⟩ | ⟨rfl, heq, hself⟩
    · refine ⟨by rw [haddress]; exact Option.some_ne_none _, fun hc => hne ?_⟩
      rw [haddress] at hc
      exact hfrom.trans (Option.some.inj hc).symm
    · refine ⟨?_, hto.symm.trans (hself.trans (heq.symm.trans hfrom))⟩
      rw [haddress, ← heq, hfrom]
    · refine ⟨?_, fun hc => hself (hto.trans (hc.trans (hfrom.symm.trans heq)))⟩
      rw [haddress, ← heq, hfrom]
  | charges user at_ confirmed found =>
    rw [at_] at hst
    rw [hto] at found
    have howner := owner_of_found haddresses found
    refine List.forall_mem_cons.mpr ⟨?_, List.forall_mem_singleton.mpr hst⟩
    exact ⟨hst, confirmed, howner, coins_of_row hrow⟩
  | credits user amount stored at_ kept => exact List.forall_mem_nil _
  | deposits newTx row at_ kept => exact List.forall_mem_nil _
  | transfers user at_ confirmed found =>
    rw [at_] at hst
    exact List.forall_mem_singleton.mpr hst
  | draws user amount stored at_ kept => exact List.forall_mem_nil _
  | withdraws record at_ confirmed found =>
    rw [at_] at hst
    exact List.forall_mem_singleton.mpr ⟨hst, confirmed, rfl⟩
  | refuses record at_ confirmed found =>
    rw [at_] at hst
    exact List.forall_mem_singleton.mpr ⟨hst, Or.inr ⟨confirmed, rfl⟩⟩
  | looksUp record at_ =>
    rw [at_] at hst
    obtain ⟨hroute, hstatus, hrecord⟩ := hst
    exact List.forall_mem_singleton.mpr ⟨hroute, Or.inl ⟨hstatus, hrecord⟩⟩
  | settles record at_ => exact List.forall_mem_nil _

/-- The status of an effect is attested by a receipt of its log. -/
theorem attested_of_sound (hD : D e.data) (h : e.Sound receipts) :
    e.data.Attested D receipts e.tx.val.status := by
  obtain ⟨receipt, hreceipt, hstatus⟩ := h.receipt
  exact ⟨hD, receipt, hreceipt, hstatus⟩

theorem failed_of_sound (h : e.Sound receipts) (hne : e.tx.val.status ≠ .confirmed) :
    e.tx.val.status = .failed := by
  obtain ⟨receipt, _, hstatus⟩ := h.receipt
  rw [hstatus] at hne ⊢
  unfold getTxStatusByReceipt at hne ⊢
  split
  · next htrue => exact absurd (if_pos htrue) hne
  · rfl

/-- Whatever an effect notes in its step is vouched for. -/
theorem Resumes.vouched (h : Resumes env db e o) (haddresses : db.addresses = db₀.addresses)
    (hD : D e.data) (hsound : e.Sound receipts)
    (hamount : e.data.Amounts db₀ e.tx.val.tokenAmount) (hst : e.Standing db₀) :
    ∀ n ∈ o.notes, n.Vouched D receipts db₀ := by
  obtain ⟨_, _, hfrom, hto⟩ := matches_iff.mp hsound.row
  have hattested := attested_of_sound hD hsound
  unfold Effect.Standing at hst
  cases h with
  | stops => exact List.forall_mem_nil _
  | routes manager pc at_ found routed => exact List.forall_mem_nil _
  | charges user at_ confirmed found =>
    rw [at_] at hst
    rw [hto] at found
    rw [confirmed] at hattested
    refine List.forall_mem_singleton.mpr ⟨hattested, hst, owner_of_found haddresses found, ?_⟩
    rw [coins_of_row hsound.row]
    exact hamount
  | credits user amount stored at_ kept =>
    rw [at_] at hst
    obtain ⟨hroute, hstatus, howner, hcoins⟩ := hst
    rw [hstatus] at hattested
    refine List.forall_mem_singleton.mpr ⟨hattested, hroute, howner, ?_⟩
    rw [hcoins]
    exact hamount
  | deposits newTx row at_ kept => exact List.forall_mem_nil _
  | transfers user at_ confirmed found =>
    rw [at_] at hst
    rw [hfrom] at found
    rw [confirmed] at hattested
    refine List.forall_mem_singleton.mpr ⟨hattested, hst, owner_of_found haddresses found, ?_⟩
    rw [coins_of_row hsound.row]
    exact hamount
  | draws user amount stored at_ kept => exact List.forall_mem_nil _
  | withdraws record at_ confirmed found => exact List.forall_mem_nil _
  | refuses record at_ confirmed found => exact List.forall_mem_nil _
  | looksUp record at_ => exact List.forall_mem_nil _
  | settles record at_ =>
    rw [at_] at hst
    obtain ⟨hroute, hstatus⟩ := hst
    refine List.forall_mem_singleton.mpr ⟨?_, hroute⟩
    rcases hstatus with ⟨hconfirmed, hrecord⟩ | ⟨hne, hrecord⟩
    · rw [hconfirmed] at hattested
      exact Or.inl ⟨hattested, hrecord⟩
    · rw [failed_of_sound hsound hne] at hattested
      exact Or.inr ⟨hattested, hrecord⟩

end Standing

section Vouches

/-- All that is in flight and all that has been noted leads back to the logs and receipts. -/
structure Vouches (D : TransferEvent → Prop) (receipts : Receipts) (db : Db) (s : Sys) :
    Prop where
  sound : s.Sound receipts
  everywhere : Everywhere D (fun _ => True) s
  addressed : Addressed db s
  sourced : Sourced db s
  standing : ∀ e ∈ s.effects, e.Standing db
  notes : ∀ n ∈ s.history, n.Vouched D receipts db

variable {D : TransferEvent → Prop} {receipts : Receipts} {cfg : Config} {env : Env} {db : Db}
  {s s' : Sys} {l : Label}

theorem vouches_start (db : Db) (redis : Option Nat) :
    Vouches D receipts db (Sys.start db redis) :=
  ⟨sound_start receipts db redis, everywhere_start redis fun _ _ => trivial,
    addressed_start db redis, sourced_start db redis, fun _ h => absurd h List.not_mem_nil,
    fun _ h => absurd h List.not_mem_nil⟩

theorem standing_step (h : Vouches D receipts db s) (hstep : step cfg env s l = some s') :
    ∀ e ∈ s'.effects, e.Standing db := by
  intro e he
  rcases effect_from hstep he with hold | hnew | ⟨e₁, he₁, _, pc, hpc, rfl⟩
  · exact h.standing e hold
  · unfold Effect.Standing
    rw [hnew]
    trivial
  · exact (resumes env s.db e₁).standing h.addressed.addresses h.addressed.manager
      (h.sound.effects e₁ he₁).row (h.standing e₁ he₁) pc hpc

/-- The row a call saves and hands on is vouched for. -/
theorem vouched_save (h : Vouches D receipts db s) {r : Run} (hr : r ∈ s.runs) {save : Save}
    (hpc : r.pc = .save save) :
    (Note.processReceivedEthOrToken r.data (save.run s.db).2).Vouched D receipts db := by
  have hanswered := h.sound.answered r hr
  unfold Run.Answered at hanswered
  rw [hpc] at hanswered
  obtain ⟨receipt, hreceipt, hstatus⟩ := hanswered
  show _ ∧ _ ∧ _
  rw [run_val]
  refine ⟨⟨h.everywhere.data r hr, receipt, hreceipt, hstatus⟩, ?_, h.sourced.saves r hr save hpc⟩
  exact for_matches (held_for (h.sound.held r hr) hpc)

theorem notes_step (h : Vouches D receipts db s) (hstep : step cfg env s l = some s') :
    ∀ n ∈ s'.history, n.Vouched D receipts db := by
  have hmore {notes : List Note} (hnotes : ∀ n ∈ notes, n.Vouched D receipts db) :
      ∀ n ∈ notes ++ s.history, n.Vouched D receipts db :=
    List.forall_mem_append.mpr ⟨hnotes, h.notes⟩
  cases step_change hstep with
  | arrives _ _ _ _ _ _ history => exact history ▸ h.notes
  | scans notes scan _ _ _ history =>
    rw [history]
    refine hmore fun n hn => ?_
    obtain ⟨c, evs, rfl⟩ := scan n hn
    trivial
  | waits _ _ _ _ _ _ _ history => exact history ▸ h.notes
  | returns r mem _ notes scan _ _ _ history =>
    rw [history]
    refine hmore fun n hn => ?_
    rw [scan n hn]
    exact h.everywhere.data r mem
  | starts r mem save at_save notes scan _ _ _ history =>
    rw [history]
    refine List.forall_mem_append.mpr ⟨fun n hn => ?_, List.forall_mem_cons.mpr ⟨?_, h.notes⟩⟩
    · rw [scan n hn]
      exact h.everywhere.data r mem
    · exact vouched_save h mem at_save
  | runFails _ _ _ _ _ history => exact history ▸ h.notes
  | effect e mem _ _ _ history =>
    rw [history]
    exact hmore ((resumes env s.db e).vouched h.addressed.addresses (h.everywhere.effects e mem).1
      (h.sound.effects e mem) (h.sourced.effects e mem) (h.standing e mem))
  | effectFails _ _ _ _ _ history => exact history ▸ h.notes
  | crash _ _ _ history => exact history ▸ h.notes
  | storeTxhash _ _ _ _ _ _ _ _ history => exact history ▸ h.notes

theorem vouches_step (hlogs : ∀ data ∈ l.logs, D data) (henv : env.Gives receipts)
    (h : Vouches D receipts db s) (hstep : step cfg env s l = some s') :
    Vouches D receipts db s' := by
  constructor
  · exact sound_step henv h.sound hstep
  · exact everywhere_step hlogs (fun _ _ _ => trivial) (fun _ _ _ => trivial) h.everywhere hstep
  · exact addressed_step h.addressed hstep
  · exact sourced_step h.sound h.sourced hstep
  · exact standing_step h hstep
  · exact notes_step h hstep

theorem vouches_run {redis : Option Nat} {ms : List Move}
    (hms : ∀ m ∈ ms, (∀ data ∈ m.label.logs, D data) ∧ m.env.Gives receipts)
    (hrun : run (next cfg) (Sys.start db redis) ms = some s) : Vouches D receipts db s := by
  refine Lib.Machine.run_induction_mem (fun s m s' hs hm hstep => ?_) (vouches_start db redis)
    hms hrun
  exact vouches_step hm.1 hm.2 hs hstep

end Vouches

/-- In every run, whatever interleaves, fails or crashes: an effect starts, a wallet is credited
or drawn on and a withdrawal is settled for a log the handler was given in this run and a receipt
the node gave for it, for the owner of its address, and with the amount of the log or of a row
that was pending before. -/
theorem history_vouched (cfg : Config) (db : Db) (redis : Option Nat) (ms : List Move) (s : Sys)
    (hrun : run (next cfg) (Sys.start db redis) ms = some s) :
    ∀ n ∈ s.history, n.Vouched (Heard ms) (GivenIn ms) db := by
  refine (vouches_run (fun m hm => ⟨fun data hdata => ?_, fun hash receipt h => ?_⟩) hrun).notes
  · exact ⟨m, hm, hdata⟩
  · exact ⟨m, hm, h⟩

/-- A scan finds the log and its wallet is credited. -/
def sampleCredited : List Move :=
  sampleMoves (sampleScanTo 1 sampleLog ++ sampleReads sampleLog 1 ++
    sampleSaves sampleLog 1 sampleUser)

theorem history_vouched_credited :
    ∃ s, run (next sampleConfig) (Sys.start sampleDb none) sampleCredited = some s ∧
      .credited sampleLog 1 (.num 1) ∈ s.history ∧
        ∀ n ∈ s.history, n.Vouched (Heard sampleCredited) (GivenIn sampleCredited) sampleDb := by
  have h : (run (next sampleConfig) (Sys.start sampleDb none) sampleCredited).any
      (fun s => .credited sampleLog 1 (.num 1) ∈ s.history) = true := by
    decide +kernel
  obtain ⟨s, hs, hp⟩ := (Option.any_eq_true _ _).mp h
  exact ⟨s, hs, of_decide_eq_true hp,
    history_vouched sampleConfig sampleDb none sampleCredited s hs⟩

end OlsDapp.Handler
