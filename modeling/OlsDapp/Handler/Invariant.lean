import OlsDapp.Handler.Change

/-!
# What every call in flight holds

A call of `processTokenTransfer` keeps across its awaits the row it found and the answers of
the node. `Sound` ties both to what they came from: the row it holds is still the first match
of its log, whatever the other calls saved in between, and its receipt is one of those the
node gave.
-/

namespace OlsDapp.Handler

open Lib (Row Table)
open Lib.InFlight (resume)

section Matches

variable {data data' : TransferEvent} {a b : Transaction}

/-- Two logs the duplicate check does not tell apart. -/
def TransferEvent.SameKey (data data' : TransferEvent) : Prop :=
  data.transactionHash = data'.transactionHash ∧ data.from_ = data'.from_ ∧ data.to_ = data'.to_

instance : DecidableRel TransferEvent.SameKey := fun data data' =>
  inferInstanceAs (Decidable (data.transactionHash = data'.transactionHash ∧
    data.from_ = data'.from_ ∧ data.to_ = data'.to_))

theorem TransferEvent.SameKey.matches_eq (h : data.SameKey data') :
    data.matches = data'.matches := by
  obtain ⟨h1, h2, h3⟩ := h
  funext tx
  simp only [TransferEvent.matches, h1, h2, h3]

theorem sameKey_of_matches (h : data.matches a = true) (h' : data'.matches a = true) :
    data.SameKey data' := by
  obtain ⟨h1, _, h2, h3⟩ := matches_iff.mp h
  obtain ⟨h1', _, h2', h3'⟩ := matches_iff.mp h'
  exact ⟨h1.symm.trans h1', h2.symm.trans h2', h3.symm.trans h3'⟩

/-- Rows of one log are matches of the same logs. -/
theorem matches_eq_of_matches (data : TransferEvent) (ha : data'.matches a = true)
    (hb : data'.matches b = true) : data.matches a = data.matches b := by
  obtain ⟨a1, a2, a3, a4⟩ := matches_iff.mp ha
  obtain ⟨b1, b2, b3, b4⟩ := matches_iff.mp hb
  simp only [TransferEvent.matches, a1, a2, a3, a4, b1, b2, b3, b4]

theorem matches_transformed (env : Env) (receipt : Receipt) :
    data.matches (transformedTxData env data receipt) = true := by
  simp [TransferEvent.matches, transformedTxData]

theorem matches_updated (t : Transaction) : data.matches (a.updated t) = data.matches a := rfl

theorem getTxStatusByReceipt_ne_pending (receipt : Receipt) :
    getTxStatusByReceipt receipt ≠ .pending := by
  unfold getTxStatusByReceipt
  split <;> decide

end Matches

section Saves

/-- A save for the log: of a row of its own, or over the row its check finds. -/
def Save.For (data : TransferEvent) (t : Table Transaction) : Save → Prop
  | .create newTx => data.matches newTx = true
  | .update tx => data.matches tx.val = true ∧ ∃ row, t.findOne data.matches = some row ∧
      row.id = tx.id

def Save.val : Save → Transaction
  | .create newTx => newTx
  | .update tx => tx.val

variable {data data' : TransferEvent} {db : Db} {save : Save} {row : Row Transaction}

theorem run_val (save : Save) (db : Db) : (save.run db).2.val = save.val := by
  cases save <;> rfl

theorem for_matches (h : save.For data db.transaction) : data.matches save.val = true := by
  cases save with
  | create newTx => exact h
  | update tx => exact h.1

/-- A save over a row replaces first matches by themselves or by the row saved. -/
theorem findOne_update {tx : Row Transaction} (h : (Save.update tx).For data' db.transaction) :
    (db.transaction.save tx).findOne data.matches =
      (db.transaction.findOne data.matches).map (Table.replace tx) := by
  obtain ⟨htx, row, hrow, hid⟩ := h
  obtain ⟨hmem, hm⟩ := Table.mem_of_findOne hrow
  refine Table.findOne_save fun r hr hrid => ?_
  rw [Table.eq_of_id_eq hr hmem (hrid.trans hid.symm)]
  exact matches_eq_of_matches data hm htx

/-- The first match of a log stays first. -/
theorem findOne_run_some (h : save.For data' db.transaction)
    (hrow : db.transaction.findOne data.matches = some row) :
    ∃ row', (save.run db).1.transaction.findOne data.matches = some row' ∧ row'.id = row.id ∧
      (row' = row ∨ row' = (save.run db).2) := by
  cases save with
  | create newTx => exact ⟨row, Table.findOne_insert_of_some hrow, rfl, Or.inl rfl⟩
  | update tx =>
    refine ⟨Table.replace tx row, ?_, Table.replace_id tx row, ?_⟩
    · exact (findOne_update h).trans (by rw [hrow]; rfl)
    · unfold Table.replace
      split
      · exact Or.inr rfl
      · exact Or.inl rfl

/-- A log is found after a save for it, and the row found was there or is the one saved. -/
theorem findOne_run_self (h : save.For data db.transaction) :
    ∃ row, (save.run db).1.transaction.findOne data.matches = some row ∧
      ((save.run db).2 = row ∨
        ∃ newTx, save = .create newTx ∧ db.transaction.findOne data.matches = some row) := by
  cases save with
  | create newTx =>
    cases hf : db.transaction.findOne data.matches with
    | none =>
      refine ⟨⟨db.transaction.nextId, newTx⟩, ?_, Or.inl rfl⟩
      show (db.transaction.insert newTx).findOne data.matches = _
      rw [Table.findOne_insert, hf, Option.none_or, if_pos (show data.matches newTx = true from h)]
    | some row => exact ⟨row, Table.findOne_insert_of_some hf, Or.inr ⟨newTx, rfl, rfl⟩⟩
  | update tx =>
    obtain ⟨row, hrow, hid⟩ := h.2
    refine ⟨tx, ?_, Or.inl rfl⟩
    show (db.transaction.save tx).findOne data.matches = _
    rw [findOne_update h, hrow, Option.map_some, Table.replace, if_pos hid]

/-- A save for another log does not change what is found. -/
theorem findOne_run_ne (h : save.For data' db.transaction)
    (hne : data.matches save.val = false) :
    (save.run db).1.transaction.findOne data.matches = db.transaction.findOne data.matches := by
  cases save with
  | create newTx =>
    show (db.transaction.insert newTx).findOne data.matches = _
    rw [Table.findOne_insert, if_neg (by rw [show data.matches newTx = false from hne]; decide),
      Option.or_none]
  | update tx =>
    show (db.transaction.save tx).findOne data.matches = _
    rw [findOne_update h]
    cases hf : db.transaction.findOne data.matches with
    | none => rfl
    | some row =>
      obtain ⟨htx, row', hrow', hid'⟩ := h
      obtain ⟨hmem, hm⟩ := Table.mem_of_findOne hf
      obtain ⟨hmem', hm'⟩ := Table.mem_of_findOne hrow'
      rw [Option.map_some, Table.replace, if_neg]
      intro hid
      have heq := Table.eq_of_id_eq hmem hmem' (hid.trans hid'.symm)
      have htrue : data.matches tx.val = true := by
        rw [← matches_eq_of_matches data (heq ▸ hm') htx]
        exact hm
      rw [show data.matches tx.val = false from hne] at htrue
      cases htrue

end Saves

section Sound

/-- The row a call found and still holds. -/
def RunPc.held : RunPc → Option (Row Transaction)
  | .findOne => none
  | .getTransactionReceipt tx => tx
  | .getBlock tx _ => tx
  | .save (.update tx) => some tx
  | .save (.create _) => none

structure Run.Held (t : Table Transaction) (r : Run) : Prop where
  row : ∀ tx, r.pc.held = some tx → r.data.matches tx.val = true ∧
    ∃ row, t.findOne r.data.matches = some row ∧ row.id = tx.id
  create : ∀ newTx, r.pc = .save (.create newTx) → r.data.matches newTx = true

/-- The receipts a node gives, by hash; none as long as it does not know the transaction. -/
abbrev Receipts := String → Receipt → Prop

def Env.Gives (env : Env) (receipts : Receipts) : Prop :=
  ∀ hash receipt, env.getTransactionReceipt hash = some receipt → receipts hash receipt

/-- The receipt the call has is one the node gives. -/
def Run.Answered (receipts : Receipts) (r : Run) : Prop :=
  match r.pc with
  | .getBlock _ receipt => receipts r.data.transactionHash receipt
  | .save save => ∃ receipt, receipts r.data.transactionHash receipt ∧
      save.val.status = getTxStatusByReceipt receipt
  | _ => True

structure Effect.Sound (receipts : Receipts) (e : Effect) : Prop where
  row : e.data.matches e.tx.val = true
  receipt : ∃ receipt, receipts e.data.transactionHash receipt ∧
    e.tx.val.status = getTxStatusByReceipt receipt

structure Sys.Sound (receipts : Receipts) (s : Sys) : Prop where
  held : ∀ r ∈ s.runs, r.Held s.db.transaction
  answered : ∀ r ∈ s.runs, r.Answered receipts
  effects : ∀ e ∈ s.effects, e.Sound receipts

variable {cfg : Config} {env : Env} {receipts : Receipts} {s s' : Sys}

theorem held_findOne (t : Table Transaction) (data : TransferEvent) (awaited : Bool) :
    (⟨data, awaited, .findOne⟩ : Run).Held t :=
  ⟨fun _ h => absurd h nofun, fun _ h => absurd h nofun⟩

theorem saveOf_some {tx : Option (Row Transaction)} {t : Transaction} {save : Save}
    (h : saveOf tx t = some save) :
    (tx = none ∧ save = .create t) ∨
      ∃ row, tx = some row ∧ row.val.status = .pending ∧
        save = .update ⟨row.id, row.val.updated t⟩ := by
  cases tx with
  | none => exact Or.inl ⟨rfl, (Option.some.inj h).symm⟩
  | some row =>
    simp only [saveOf, Option.ite_none_right_eq_some, Option.some.injEq] at h
    exact Or.inr ⟨row, rfl, h.1, h.2.symm⟩

theorem held_waits {r : Run} {pc : RunPc} (h : r.Held s.db.transaction)
    (hres : r.resume env s.db = .waits pc) : ({ r with pc } : Run).Held s.db.transaction := by
  rcases resume_waits hres with ⟨_, rfl⟩ | ⟨tx, receipt, hpc, _, rfl⟩ |
    ⟨tx, receipt, save, hpc, hsave, rfl⟩
  · refine ⟨fun tx htx => ?_, fun _ hc => absurd hc nofun⟩
    exact ⟨(Table.mem_of_findOne htx).2, tx, htx, rfl⟩
  · refine ⟨fun tx' htx => h.row tx' ?_, fun _ hc => absurd hc nofun⟩
    rw [hpc]
    exact htx
  · rcases saveOf_some hsave with ⟨rfl, rfl⟩ | ⟨row, rfl, _, rfl⟩
    · refine ⟨fun _ hc => absurd hc nofun, fun newTx hc => ?_⟩
      cases hc
      exact matches_transformed env receipt
    · refine ⟨fun tx' htx => ?_, fun _ hc => absurd hc nofun⟩
      cases htx
      have hrow := h.row row (by rw [hpc]; rfl)
      exact hrow

theorem answered_waits {r : Run} {pc : RunPc} (henv : env.Gives receipts)
    (h : r.Answered receipts) (hres : r.resume env s.db = .waits pc) :
    ({ r with pc } : Run).Answered receipts := by
  rcases resume_waits hres with ⟨_, rfl⟩ | ⟨tx, receipt, _, hrec, rfl⟩ |
    ⟨tx, receipt, save, hpc, hsave, rfl⟩
  · trivial
  · exact henv _ _ hrec
  · have hrec : receipts r.data.transactionHash receipt := by
      unfold Run.Answered at h
      rw [hpc] at h
      exact h
    rcases saveOf_some hsave with ⟨rfl, rfl⟩ | ⟨row, rfl, _, rfl⟩
    · exact ⟨receipt, hrec, rfl⟩
    · exact ⟨receipt, hrec, rfl⟩

theorem held_save {r : Run} {data : TransferEvent} {save : Save} {db : Db}
    (h : r.Held db.transaction) (hsave : save.For data db.transaction) :
    r.Held (save.run db).1.transaction := by
  refine ⟨fun tx htx => ?_, h.create⟩
  obtain ⟨hm, row, hrow, hid⟩ := h.row tx htx
  obtain ⟨row', hrow', hid', _⟩ := findOne_run_some hsave hrow
  exact ⟨hm, row', hrow', hid'.trans hid⟩

/-- What a call saves is a save for its log. -/
theorem held_for {r : Run} {t : Table Transaction} {save : Save} (h : r.Held t)
    (hpc : r.pc = .save save) : save.For r.data t := by
  cases save with
  | create newTx => exact h.create newTx hpc
  | update tx => exact h.row tx (by rw [hpc]; rfl)

theorem sound_start (receipts : Receipts) (db : Db) (redis : Option Nat) :
    (Sys.start db redis).Sound receipts :=
  ⟨fun _ h => absurd h List.not_mem_nil, fun _ h => absurd h List.not_mem_nil,
    fun _ h => absurd h List.not_mem_nil⟩

theorem sound_step {l : Label} (henv : env.Gives receipts) (hs : s.Sound receipts)
    (h : step cfg env s l = some s') : s'.Sound receipts := by
  cases step_change h with
  | arrives data awaited _ db runs effects _ =>
    refine ⟨fun r hr => ?_, fun r hr => ?_, effects ▸ hs.effects⟩
    · rw [db]
      rw [runs] at hr
      rcases List.mem_cons.mp hr with rfl | hr
      · exact held_findOne _ _ _
      · exact hs.held r hr
    · rw [runs] at hr
      rcases List.mem_cons.mp hr with rfl | hr
      · trivial
      · exact hs.answered r hr
  | scans _ _ db runs effects _ =>
    exact ⟨by rw [runs, db]; exact hs.held, by rw [runs]; exact hs.answered,
      by rw [effects]; exact hs.effects⟩
  | waits r mem pc resumed db runs effects _ =>
    refine ⟨fun r' hr' => ?_, fun r' hr' => ?_, effects ▸ hs.effects⟩
    · rw [db]
      rw [runs] at hr'
      rcases Lib.InFlight.mem_resume_imp hr' with hr' | hr'
      · obtain rfl := List.mem_singleton.mp hr'
        exact held_waits (hs.held r mem) resumed
      · exact hs.held r' hr'
    · rw [runs] at hr'
      rcases Lib.InFlight.mem_resume_imp hr' with hr' | hr'
      · obtain rfl := List.mem_singleton.mp hr'
        exact answered_waits henv (hs.answered r mem) resumed
      · exact hs.answered r' hr'
  | returns r mem _ _ _ db runs effects _ =>
    refine ⟨fun r' hr' => ?_, fun r' hr' => ?_, effects ▸ hs.effects⟩
    · rw [db]
      exact hs.held r' (List.mem_of_mem_erase (runs ▸ hr'))
    · exact hs.answered r' (List.mem_of_mem_erase (runs ▸ hr'))
  | starts r mem save at_save _ _ db runs effects _ =>
    have hsave := held_for (hs.held r mem) at_save
    refine ⟨fun r' hr' => ?_, fun r' hr' => ?_, fun e he => ?_⟩
    · rw [db]
      exact held_save (hs.held r' (List.mem_of_mem_erase (runs ▸ hr'))) hsave
    · exact hs.answered r' (List.mem_of_mem_erase (runs ▸ hr'))
    · rw [effects] at he
      rcases List.mem_cons.mp he with rfl | he
      · have hans := hs.answered r mem
        unfold Run.Answered at hans
        rw [at_save] at hans
        constructor
        · rw [run_val]
          exact for_matches hsave
        · rw [run_val]
          exact hans
      · exact hs.effects e he
  | runFails r mem db runs effects _ =>
    refine ⟨fun r' hr' => ?_, fun r' hr' => ?_, effects ▸ hs.effects⟩
    · rw [db]
      exact hs.held r' (List.mem_of_mem_erase (runs ▸ hr'))
    · exact hs.answered r' (List.mem_of_mem_erase (runs ▸ hr'))
  | effect e mem db runs effects _ =>
    refine ⟨?_, by rw [runs]; exact hs.answered, fun e' he' => ?_⟩
    · rw [runs, db, (resumes env s.db e).frame.1]
      exact hs.held
    · rw [effects] at he'
      rcases Lib.InFlight.mem_resume_imp he' with he' | he'
      · obtain ⟨pc, _, rfl⟩ := List.mem_map.mp he'
        exact ⟨(hs.effects e mem).row, (hs.effects e mem).receipt⟩
      · exact hs.effects e' he'
  | effectFails e mem db runs effects _ =>
    refine ⟨by rw [runs, db]; exact hs.held, by rw [runs]; exact hs.answered, fun e' he' => ?_⟩
    exact hs.effects e' (List.mem_of_mem_erase (effects ▸ he'))
  | crash db runs effects _ =>
    refine ⟨fun r hr => ?_, fun r hr => ?_, fun e he => ?_⟩
    · rw [runs] at hr
      exact absurd hr List.not_mem_nil
    · rw [runs] at hr
      exact absurd hr List.not_mem_nil
    · rw [effects] at he
      exact absurd he List.not_mem_nil
  | storeTxhash record txhash row _ _ db runs effects _ =>
    refine ⟨?_, by rw [runs]; exact hs.answered, by rw [effects]; exact hs.effects⟩
    rw [runs, db]
    exact hs.held

end Sound

section Everywhere

/-- Every transaction of the table and in flight has the property, every log in flight and
ahead of the scan is one of the given ones. -/
structure Everywhere (D : TransferEvent → Prop) (P : Transaction → Prop) (s : Sys) : Prop where
  ahead : ∀ data ∈ s.job.ahead, D data
  data : ∀ r ∈ s.runs, D r.data
  rows : ∀ row ∈ s.db.transaction.rows, P row.val
  held : ∀ r ∈ s.runs, ∀ tx, r.pc.held = some tx → P tx.val
  create : ∀ r ∈ s.runs, ∀ newTx, r.pc = .save (.create newTx) → P newTx
  effects : ∀ e ∈ s.effects, D e.data ∧ P e.tx.val

variable {cfg : Config} {env : Env} {s s' : Sys} {D : TransferEvent → Prop}
  {P : Transaction → Prop}

theorem mem_rows_run {db : Db} {save : Save} {row : Row Transaction}
    (h : row ∈ (save.run db).1.transaction.rows) :
    row ∈ db.transaction.rows ∨ row.val = save.val := by
  cases save with
  | create newTx =>
    rcases Table.mem_insert.mp h with h | rfl
    · exact Or.inl h
    · exact Or.inr rfl
  | update tx =>
    rcases Table.mem_save h with rfl | ⟨h, _⟩
    · exact Or.inr rfl
    · exact Or.inl h

theorem everywhere_start {db : Db} (redis : Option Nat)
    (h : ∀ row ∈ db.transaction.rows, P row.val) : Everywhere D P (Sys.start db redis) :=
  ⟨fun _ h => absurd h List.not_mem_nil, fun _ h => absurd h List.not_mem_nil, h,
    fun _ h => absurd h List.not_mem_nil, fun _ h => absurd h List.not_mem_nil,
    fun _ h => absurd h List.not_mem_nil⟩

/-- The step of a call holds and creates only what keeps the property. -/
theorem everywhere_waits (hnew : ∀ data, D data → ∀ receipt, P (transformedTxData env data receipt))
    (hupdate : ∀ a t, P a → P (a.updated t)) (h : Everywhere D P s) {r : Run} (hr : r ∈ s.runs)
    {pc : RunPc} (hres : r.resume env s.db = .waits pc) :
    (∀ tx, pc.held = some tx → P tx.val) ∧
      ∀ newTx, pc = .save (.create newTx) → P newTx := by
  rcases resume_waits hres with ⟨_, rfl⟩ | ⟨tx, receipt, hpc, _, rfl⟩ |
    ⟨tx, receipt, save, hpc, hsave, rfl⟩
  · exact ⟨fun tx htx => h.rows tx (Table.mem_of_findOne htx).1, fun _ hc => absurd hc nofun⟩
  · refine ⟨fun tx' htx => h.held r hr tx' ?_, fun _ hc => absurd hc nofun⟩
    rw [hpc]
    exact htx
  · rcases saveOf_some hsave with ⟨rfl, rfl⟩ | ⟨row, rfl, _, rfl⟩
    · refine ⟨fun _ hc => absurd hc nofun, fun newTx hc => ?_⟩
      cases hc
      exact hnew r.data (h.data r hr) receipt
    · refine ⟨fun tx' htx => ?_, fun _ hc => absurd hc nofun⟩
      cases htx
      exact hupdate _ _ (h.held r hr row (by rw [hpc]; rfl))

theorem everywhere_step {l : Label} (hlogs : ∀ data ∈ l.logs, D data)
    (hnew : ∀ data, D data → ∀ receipt, P (transformedTxData env data receipt))
    (hupdate : ∀ a t, P a → P (a.updated t)) (h : Everywhere D P s)
    (hstep : step cfg env s l = some s') : Everywhere D P s' := by
  have hahead : ∀ data ∈ s'.job.ahead, D data := fun data hd =>
    (ahead_step hstep hd).elim (h.ahead data) (hlogs data)
  have hkeep (hdb : s'.db.transaction = s.db.transaction) (hruns : s'.runs ⊆ s.runs)
      (heffects : ∀ e ∈ s'.effects, D e.data ∧ P e.tx.val) : Everywhere D P s' :=
    ⟨hahead, fun r hr => h.data r (hruns hr), by rw [hdb]; exact h.rows,
      fun r hr => h.held r (hruns hr), fun r hr => h.create r (hruns hr), heffects⟩
  cases step_change hstep with
  | arrives data awaited from_ db runs effects _ =>
    have hdata : D data := by
      rcases from_ with rfl | hmem
      · exact hlogs data List.mem_cons_self
      · exact h.ahead data hmem
    refine ⟨hahead, fun r hr => ?_, by rw [db]; exact h.rows, fun r hr => ?_, fun r hr => ?_,
      by rw [effects]; exact h.effects⟩
    · rcases List.mem_cons.mp (runs ▸ hr) with rfl | hr
      · exact hdata
      · exact h.data r hr
    · rcases List.mem_cons.mp (runs ▸ hr) with rfl | hr
      · exact fun _ hc => absurd hc nofun
      · exact h.held r hr
    · rcases List.mem_cons.mp (runs ▸ hr) with rfl | hr
      · exact fun _ hc => absurd hc nofun
      · exact h.create r hr
  | scans _ _ db runs effects _ =>
    exact hkeep (by rw [db]) (by rw [runs]; exact fun _ h => h) (by rw [effects]; exact h.effects)
  | waits r mem pc resumed db runs effects _ =>
    obtain ⟨hheld, hcreate⟩ := everywhere_waits hnew hupdate h mem resumed
    have hcases : ∀ r' ∈ s'.runs, r' = { r with pc } ∨ r' ∈ s.runs := fun r' hr' =>
      (Lib.InFlight.mem_resume_imp (runs ▸ hr')).imp_left List.mem_singleton.mp
    refine ⟨hahead, fun r' hr' => ?_, by rw [db]; exact h.rows, fun r' hr' => ?_,
      fun r' hr' => ?_, by rw [effects]; exact h.effects⟩
    · rcases hcases r' hr' with rfl | hr'
      · exact h.data r mem
      · exact h.data r' hr'
    · rcases hcases r' hr' with rfl | hr'
      · exact hheld
      · exact h.held r' hr'
    · rcases hcases r' hr' with rfl | hr'
      · exact hcreate
      · exact h.create r' hr'
  | returns r mem _ _ _ db runs effects _ =>
    exact hkeep (by rw [db]) (by rw [runs]; exact List.erase_subset)
      (by rw [effects]; exact h.effects)
  | starts r mem save at_save _ _ db runs effects _ =>
    have hsave : P save.val := by
      cases save with
      | create newTx => exact h.create r mem newTx at_save
      | update tx => exact h.held r mem tx (by rw [at_save]; rfl)
    have hsub : s'.runs ⊆ s.runs := by
      rw [runs]
      exact List.erase_subset
    refine ⟨hahead, fun r hr => h.data r (hsub hr), fun row hrow => ?_,
      fun r hr => h.held r (hsub hr), fun r hr => h.create r (hsub hr), fun e he => ?_⟩
    · rcases mem_rows_run (db ▸ hrow) with hrow | hval
      · exact h.rows row hrow
      · rw [hval]
        exact hsave
    · rcases List.mem_cons.mp (effects ▸ he) with rfl | he
      · refine ⟨h.data r mem, ?_⟩
        rw [run_val]
        exact hsave
      · exact h.effects e he
  | runFails r mem db runs effects _ =>
    exact hkeep (by rw [db]) (by rw [runs]; exact List.erase_subset)
      (by rw [effects]; exact h.effects)
  | effect e mem db runs effects _ =>
    refine hkeep (by rw [db, (resumes env s.db e).frame.1]) (by rw [runs]; exact fun _ h => h)
      fun e' he' => ?_
    rcases Lib.InFlight.mem_resume_imp (effects ▸ he') with he' | he'
    · obtain ⟨pc, _, rfl⟩ := List.mem_map.mp he'
      exact h.effects e mem
    · exact h.effects e' he'
  | effectFails e mem db runs effects _ =>
    refine hkeep (by rw [db]) (by rw [runs]; exact fun _ h => h) fun e' he' => ?_
    exact h.effects e' (List.mem_of_mem_erase (effects ▸ he'))
  | crash db runs effects _ =>
    refine hkeep (by rw [db]) (by rw [runs]; exact List.nil_subset _) fun e' he' => ?_
    exact absurd (effects ▸ he') List.not_mem_nil
  | storeTxhash record txhash row _ _ db runs effects _ =>
    exact hkeep (by rw [db]) (by rw [runs]; exact fun _ h => h) (by rw [effects]; exact h.effects)

end Everywhere

end OlsDapp.Handler
