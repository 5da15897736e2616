import OlsDapp.Handler.Provenance

/-!
# The life of a transaction row

A row is inserted for a log or was there before, and a pending token row is settled by a
receipt. `Recorded` says so of every row of the table after a run, `Later` of one row at two
points of a run: it is never removed or moved to another key, and its status, once settled, stays
although a call may still save the row it has read before.
-/

namespace OlsDapp.Handler

open Lib (Row Table)
open Lib.Machine (run Along)

section Definitions

/-- The row a log leads to when none was there. -/
structure RecordOf (receipts : Receipts) (data : TransferEvent) (t : Transaction) : Prop where
  row : data.matches t = true
  ethAmount : t.ethAmount = .num 0
  tokenAmount : t.tokenAmount = .num (fromWei data.value)
  receipt : ∃ receipt, receipts data.transactionHash receipt ∧
    t.status = getTxStatusByReceipt receipt

/-- A pending token row with the status of a receipt. -/
def SettledFrom (receipts : Receipts) (row₀ row : Row Transaction) : Prop :=
  row.id = row₀.id ∧ row₀.val.status = .pending ∧ row₀.val.type = .ols ∧
    ∃ t, row.val = row₀.val.updated t ∧ ∃ receipt, receipts row₀.val.transactionHash receipt ∧
      t.status = getTxStatusByReceipt receipt

/-- What has become of a row. -/
def Became (receipts : Receipts) (row₀ row : Row Transaction) : Prop :=
  row = row₀ ∨ SettledFrom receipts row₀ row

structure Recorded (D : TransferEvent → Prop) (receipts : Receipts) (db : Db) (s : Sys) :
    Prop where
  kept : ∀ row₀ ∈ db.transaction.rows, ∃ row ∈ s.db.transaction.rows, Became receipts row₀ row
  rows : ∀ row ∈ s.db.transaction.rows,
    (∃ row₀ ∈ db.transaction.rows, Became receipts row₀ row) ∨
      db.transaction.nextId ≤ row.id ∧ ∃ data, D data ∧ RecordOf receipts data row.val
  nextId : db.transaction.nextId ≤ s.db.transaction.nextId
  updates : ∀ r ∈ s.runs, ∀ tx, r.pc = .save (.update tx) →
    ∃ row₀ ∈ db.transaction.rows, SettledFrom receipts row₀ tx
  creates : ∀ r ∈ s.runs, ∀ newTx, r.pc = .save (.create newTx) →
    RecordOf receipts r.data newTx

/-- The row at a later time. -/
structure Later (row row' : Row Transaction) : Prop where
  id : row'.id = row.id
  val : row'.val = { row.val with
    status := row'.val.status
    blockNumber := row'.val.blockNumber }
  settled : row.val.status ≠ .pending → row'.val.status = row.val.status
  eth : row.val.type = .eth → row' = row

end Definitions

section Recorded

variable {D : TransferEvent → Prop} {receipts : Receipts} {cfg : Config} {env : Env} {db : Db}
  {s s' : Sys} {l : Label} {row₀ row : Row Transaction}

theorem Became.id (h : Became receipts row₀ row) : row.id = row₀.id := by
  rcases h with rfl | h
  · rfl
  · exact h.1

theorem recorded_start (db : Db) (redis : Option Nat) :
    Recorded D receipts db (Sys.start db redis) := by
  constructor
  · exact fun row₀ h => ⟨row₀, h, Or.inl rfl⟩
  · exact fun row h => Or.inl ⟨row, h, Or.inl rfl⟩
  · exact Nat.le_refl _
  · exact fun _ h => absurd h List.not_mem_nil
  · exact fun _ h => absurd h List.not_mem_nil

/-- What a call goes on to save settles a pending row of the first state or records its log. -/
theorem recorded_waits (hv : Vouches D receipts db s) {r : Run} (hr : r ∈ s.runs) {pc : RunPc}
    (hres : r.resume env s.db = .waits pc) :
    (∀ tx, pc = .save (.update tx) →
      ∃ row₀ ∈ db.transaction.rows, SettledFrom receipts row₀ tx) ∧
      ∀ newTx, pc = .save (.create newTx) → RecordOf receipts r.data newTx := by
  rcases resume_waits hres with ⟨_, rfl⟩ | ⟨tx, receipt, _, _, rfl⟩ |
    ⟨tx, receipt, save, hpc, hsave, rfl⟩
  · exact ⟨fun _ hc => absurd hc nofun, fun _ hc => absurd hc nofun⟩
  · exact ⟨fun _ hc => absurd hc nofun, fun _ hc => absurd hc nofun⟩
  · have hreceipt : receipts r.data.transactionHash receipt := by
      have hanswered := hv.sound.answered r hr
      unfold Run.Answered at hanswered
      rw [hpc] at hanswered
      exact hanswered
    rcases saveOf_some hsave with ⟨rfl, rfl⟩ | ⟨row, rfl, hpending, rfl⟩
    · refine ⟨fun _ hc => absurd hc nofun, fun newTx hc => ?_⟩
      cases hc
      exact ⟨matches_transformed env receipt, rfl, rfl, receipt, hreceipt, rfl⟩
    · have hheld : r.pc.held = some row := by rw [hpc]; rfl
      obtain ⟨hhash, htype, _⟩ := matches_iff.mp ((hv.sound.held r hr).row row hheld).1
      refine ⟨fun tx hc => ?_, fun _ hc => absurd hc nofun⟩
      cases hc
      refine ⟨row, hv.sourced.held r hr row hheld hpending, rfl, hpending, htype, _, rfl, receipt,
        ?_, rfl⟩
      rw [hhash]
      exact hreceipt

/-- The save of a call keeps what is recorded. -/
theorem recorded_saves (h : Recorded D receipts db s) (hv : Vouches D receipts db s) {r : Run}
    (hr : r ∈ s.runs) {save : Save} (hpc : r.pc = .save save) :
    (∀ row₀ ∈ db.transaction.rows, ∃ row ∈ (save.run s.db).1.transaction.rows,
      Became receipts row₀ row) ∧
    (∀ row ∈ (save.run s.db).1.transaction.rows,
      (∃ row₀ ∈ db.transaction.rows, Became receipts row₀ row) ∨
        db.transaction.nextId ≤ row.id ∧ ∃ data, D data ∧ RecordOf receipts data row.val) ∧
    db.transaction.nextId ≤ (save.run s.db).1.transaction.nextId := by
  cases save with
  | create newTx =>
    refine ⟨fun row₀ hrow₀ => ?_, fun row hrow => ?_, ?_⟩
    · obtain ⟨row, hrow, hbecame⟩ := h.kept row₀ hrow₀
      exact ⟨row, Table.mem_insert.mpr (Or.inl hrow), hbecame⟩
    · rcases Table.mem_insert.mp hrow with hrow | rfl
      · exact h.rows row hrow
      · exact Or.inr ⟨h.nextId, r.data, hv.everywhere.data r hr, h.creates r hr newTx hpc⟩
    · exact h.nextId.trans (Nat.le_succ _)
  | update tx =>
    obtain ⟨row₁, hrow₁, hsettled⟩ := h.updates r hr tx hpc
    refine ⟨fun row₀ hrow₀ => ?_, fun row hrow => ?_, h.nextId⟩
    · obtain ⟨row, hrow, hbecame⟩ := h.kept row₀ hrow₀
      by_cases hid : row.id = tx.id
      · have heq : row₀ = row₁ :=
          Table.eq_of_id_eq hrow₀ hrow₁ (hbecame.id.symm.trans (hid.trans hsettled.1))
        exact ⟨tx, Table.mem_save_self hrow hid, Or.inr (heq ▸ hsettled)⟩
      · exact ⟨row, Table.mem_save_of_ne hrow hid, hbecame⟩
    · rcases Table.mem_save hrow with rfl | ⟨hrow, _⟩
      · exact Or.inl ⟨row₁, hrow₁, Or.inr hsettled⟩
      · exact h.rows row hrow

theorem recorded_step (h : Recorded D receipts db s) (hv : Vouches D receipts db s)
    (hstep : step cfg env s l = some s') : Recorded D receipts db s' := by
  have hkeep (hdb : s'.db.transaction = s.db.transaction) (hruns : s'.runs ⊆ s.runs) :
      Recorded D receipts db s' :=
    ⟨by rw [hdb]; exact h.kept, by rw [hdb]; exact h.rows, by rw [hdb]; exact h.nextId,
      fun r hr => h.updates r (hruns hr), fun r hr => h.creates r (hruns hr)⟩
  cases step_change hstep with
  | arrives data awaited _ dbs runs _ _ =>
    refine ⟨by rw [dbs]; exact h.kept, by rw [dbs]; exact h.rows, by rw [dbs]; exact h.nextId,
      fun r hr => ?_, fun r hr => ?_⟩
    · rcases List.mem_cons.mp (runs ▸ hr) with rfl | hr
      · exact fun _ hc => absurd hc nofun
      · exact h.updates r hr
    · rcases List.mem_cons.mp (runs ▸ hr) with rfl | hr
      · exact fun _ hc => absurd hc nofun
      · exact h.creates r hr
  | scans _ _ dbs runs _ _ => exact hkeep (by rw [dbs]) (by rw [runs]; exact fun _ h => h)
  | waits r mem pc resumed dbs runs _ _ =>
    obtain ⟨hupdates, hcreates⟩ := recorded_waits hv mem resumed
    have hcases : ∀ r' ∈ s'.runs, r' = { r with pc } ∨ r' ∈ s.runs := fun r' hr' =>
      (Lib.InFlight.mem_resume_imp (runs ▸ hr')).imp_left List.mem_singleton.mp
    refine ⟨by rw [dbs]; exact h.kept, by rw [dbs]; exact h.rows, by rw [dbs]; exact h.nextId,
      fun r' hr' => ?_, fun r' hr' => ?_⟩
    · rcases hcases r' hr' with rfl | hr'
      · exact hupdates
      · exact h.updates r' hr'
    · rcases hcases r' hr' with rfl | hr'
      · exact hcreates
      · exact h.creates r' hr'
  | returns r mem _ _ _ dbs runs _ _ =>
    exact hkeep (by rw [dbs]) (by rw [runs]; exact List.erase_subset)
  | starts r mem save at_save _ _ dbs runs _ _ =>
    obtain ⟨hkept, hrows, hnextId⟩ := recorded_saves h hv mem at_save
    have hsub : s'.runs ⊆ s.runs := by
      rw [runs]
      exact List.erase_subset
    exact ⟨by rw [dbs]; exact hkept, by rw [dbs]; exact hrows, by rw [dbs]; exact hnextId,
      fun r hr => h.updates r (hsub hr), fun r hr => h.creates r (hsub hr)⟩
  | runFails r mem dbs runs _ _ =>
    exact hkeep (by rw [dbs]) (by rw [runs]; exact List.erase_subset)
  | effect e mem dbs runs _ _ =>
    exact hkeep (by rw [dbs, (resumes env s.db e).frame.1]) (by rw [runs]; exact fun _ h => h)
  | effectFails e mem dbs runs _ _ =>
    exact hkeep (by rw [dbs]) (by rw [runs]; exact fun _ h => h)
  | crash dbs runs _ _ => exact hkeep (by rw [dbs]) (by rw [runs]; exact List.nil_subset _)
  | storeTxhash record txhash row _ _ dbs runs _ _ =>
    exact hkeep (by rw [dbs]) (by rw [runs]; exact fun _ h => h)

end Recorded

section Later

variable {D : TransferEvent → Prop} {receipts : Receipts} {cfg : Config} {env : Env} {db : Db}
  {s s' : Sys} {l : Label} {row row' row'' : Row Transaction}

theorem Later.refl (row : Row Transaction) : Later row row :=
  ⟨rfl, rfl, fun _ => rfl, fun _ => rfl⟩

theorem Later.trans (h : Later row row') (h' : Later row' row'') : Later row row'' := by
  constructor
  · exact h'.id.trans h.id
  · rw [h'.val, h.val]
  · intro hne
    have hstatus := h.settled hne
    rw [← hstatus] at hne
    exact (h'.settled hne).trans hstatus
  · intro heth
    have heq := h.eth heth
    rw [← heq] at heth
    exact (h'.eth heth).trans heq

/-- A receipt that is given twice is the same. -/
def Fixed (receipts : Receipts) : Prop :=
  ∀ hash receipt receipt', receipts hash receipt → receipts hash receipt' → receipt = receipt'

/-- A call that saves over a row settles it, or writes the status it already has. -/
theorem later_update (hfixed : Fixed receipts) (h : Recorded D receipts db s) {tx : Row Transaction}
    (hsettled : ∃ row₀ ∈ db.transaction.rows, SettledFrom receipts row₀ tx)
    (hrow : row ∈ s.db.transaction.rows) (hid : row.id = tx.id) : Later row tx := by
  obtain ⟨row₀, hrow₀, hid₀, hpending, htype, t, hval, receipt, hreceipt, hstatus⟩ := hsettled
  have hfresh := db.transaction.fresh row₀ hrow₀
  rcases h.rows row hrow with ⟨row₁, hrow₁, hbecame⟩ | ⟨hnew, _⟩
  · have heq : row₁ = row₀ :=
      Table.eq_of_id_eq hrow₁ hrow₀ (hbecame.id.symm.trans (hid.trans hid₀))
    subst heq
    rcases hbecame with rfl | ⟨_, _, _, t', hval', receipt', hreceipt', hstatus'⟩
    · refine ⟨hid.symm, by rw [hval]; rfl, fun hne => absurd hpending hne, fun heth => ?_⟩
      rw [htype] at heth
      cases heth
    · refine ⟨hid.symm, by rw [hval, hval']; rfl, fun _ => ?_, fun heth => ?_⟩
      · rw [hval, hval']
        show t.status = t'.status
        rw [hstatus, hstatus', hfixed _ _ _ hreceipt hreceipt']
      · rw [hval'] at heth
        have hols : row₁.val.type = .eth := heth
        rw [htype] at hols
        cases hols
  · omega

theorem later_step (hfixed : Fixed receipts) (h : Recorded D receipts db s)
    (hstep : step cfg env s l = some s') (hrow : row ∈ s.db.transaction.rows) :
    ∃ row' ∈ s'.db.transaction.rows, Later row row' := by
  have hsame (hdb : s'.db.transaction = s.db.transaction) :
      ∃ row' ∈ s'.db.transaction.rows, Later row row' :=
    ⟨row, by rw [hdb]; exact hrow, Later.refl row⟩
  cases step_change hstep with
  | starts r mem save at_save _ _ dbs _ _ _ =>
    rw [dbs]
    cases save with
    | create newTx => exact ⟨row, Table.mem_insert.mpr (Or.inl hrow), Later.refl row⟩
    | update tx =>
      by_cases hid : row.id = tx.id
      · exact ⟨tx, Table.mem_save_self hrow hid,
          later_update hfixed h (h.updates r mem tx at_save) hrow hid⟩
      · exact ⟨row, Table.mem_save_of_ne hrow hid, Later.refl row⟩
  | arrives _ _ _ dbs => exact hsame (by rw [dbs])
  | scans _ _ dbs => exact hsame (by rw [dbs])
  | waits _ _ _ _ dbs => exact hsame (by rw [dbs])
  | returns _ _ _ _ _ dbs => exact hsame (by rw [dbs])
  | runFails _ _ dbs => exact hsame (by rw [dbs])
  | effect e _ dbs => exact hsame (by rw [dbs, (resumes env s.db e).frame.1])
  | effectFails _ _ dbs => exact hsame (by rw [dbs])
  | crash dbs => exact hsame (by rw [dbs])
  | storeTxhash _ _ _ _ _ dbs => exact hsame (by rw [dbs])

end Later

section Run

variable {D : TransferEvent → Prop} {receipts : Receipts} {cfg : Config} {db : Db} {s s' : Sys}
  {ms : List Move}

theorem recorded_run (hms : ∀ m ∈ ms, (∀ data ∈ m.label.logs, D data) ∧ m.env.Gives receipts)
    (h : Vouches D receipts db s ∧ Recorded D receipts db s)
    (hrun : run (next cfg) s ms = some s') :
    (Vouches D receipts db s' ∧ Recorded D receipts db s') ∧
      (Fixed receipts → ∀ row ∈ s.db.transaction.rows,
        ∃ row' ∈ s'.db.transaction.rows, Later row row') := by
  induction ms generalizing s with
  | nil =>
    cases hrun
    exact ⟨h, fun _ row hrow => ⟨row, hrow, Later.refl row⟩⟩
  | cons m ms ih =>
    obtain ⟨t, ht, hrest⟩ := Lib.Machine.run_cons_eq_some.mp hrun
    obtain ⟨hlogs, hgives⟩ := hms m List.mem_cons_self
    have hnext := And.intro (vouches_step hlogs hgives h.1 ht) (recorded_step h.2 h.1 ht)
    obtain ⟨hs', hlater⟩ := ih (fun m hm => hms m (List.mem_cons_of_mem _ hm)) hnext hrest
    refine ⟨hs', fun hfixed row hrow => ?_⟩
    obtain ⟨row', hrow', hfirst⟩ := later_step hfixed h.2 ht hrow
    obtain ⟨row'', hrow'', hthen⟩ := hlater hfixed row' hrow'
    exact ⟨row'', hrow'', hfirst.trans hthen⟩

end Run

/-- After every run the table holds the rows it began with, a pending token row perhaps settled
by a receipt of the run, and rows for logs of the run, each with the value of its log and the
status of its receipt; nothing else. -/
theorem transactions_recorded (cfg : Config) (db : Db) (redis : Option Nat) (ms : List Move)
    (s : Sys) (hrun : run (next cfg) (Sys.start db redis) ms = some s) :
    (∀ row₀ ∈ db.transaction.rows, ∃ row ∈ s.db.transaction.rows,
      Became (GivenIn ms) row₀ row) ∧
    ∀ row ∈ s.db.transaction.rows,
      (∃ row₀ ∈ db.transaction.rows, Became (GivenIn ms) row₀ row) ∨
        db.transaction.nextId ≤ row.id ∧
          ∃ data, Heard ms data ∧ RecordOf (GivenIn ms) data row.val := by
  have hms : ∀ m ∈ ms, (∀ data ∈ m.label.logs, Heard ms data) ∧ m.env.Gives (GivenIn ms) :=
    fun m hm => ⟨fun data hdata => ⟨m, hm, hdata⟩, fun hash receipt h => ⟨m, hm, h⟩⟩
  obtain ⟨⟨_, h⟩, _⟩ := recorded_run hms ⟨vouches_start db redis, recorded_start db redis⟩ hrun
  exact ⟨h.kept, h.rows⟩

/-- The row of the sample log while its transaction is pending. -/
def samplePending : Transaction :=
  { transformedTxData sampleEnv sampleLog ⟨true⟩ with status := .pending, blockNumber := 0 }

def samplePendingDb : Db := { sampleDb with transaction := Table.empty.insert samplePending }

def samplePendingRow : Row Transaction := ⟨1, samplePending⟩

/-- Two calls find the pending row and both save it. -/
def sampleSavedTwice : List Label :=
  [.deliver sampleLog, .deliver sampleLog, .run ⟨sampleLog, false, .findOne⟩,
    .run ⟨sampleLog, false, .findOne⟩,
    .run ⟨sampleLog, false, .getTransactionReceipt (some samplePendingRow)⟩,
    .run ⟨sampleLog, false, .getTransactionReceipt (some samplePendingRow)⟩,
    .run ⟨sampleLog, false, .getBlock (some samplePendingRow) ⟨true⟩⟩,
    .run ⟨sampleLog, false, .getBlock (some samplePendingRow) ⟨true⟩⟩,
    .run ⟨sampleLog, false, .save (.update (sampleTx sampleLog 1))⟩,
    .run ⟨sampleLog, false, .save (.update (sampleTx sampleLog 1))⟩]

theorem transactions_recorded_pending :
    ∃ s, run (next sampleConfig) (Sys.start samplePendingDb none)
        (sampleMoves sampleSavedTwice) = some s ∧
      ∃ row ∈ s.db.transaction.rows,
        Became (GivenIn (sampleMoves sampleSavedTwice)) samplePendingRow row := by
  have h : (run (next sampleConfig) (Sys.start samplePendingDb none)
      (sampleMoves sampleSavedTwice)).isSome = true := by
    decide +kernel
  obtain ⟨s, hs⟩ := Option.isSome_iff_exists.mp h
  obtain ⟨hkept, _⟩ := transactions_recorded sampleConfig samplePendingDb none _ s hs
  exact ⟨s, hs, hkept samplePendingRow (List.mem_singleton_self _)⟩

/-- Between any two points of a run whose receipts do not change, every row stays under its id
with its key, amounts and time, a settled status stays, and an ether row is not touched. -/
theorem settled_status_stays (cfg : Config) (db : Db) (redis : Option Nat) (ms ms' : List Move)
    (s s' : Sys) (hrun : run (next cfg) (Sys.start db redis) ms = some s)
    (hrun' : run (next cfg) s ms' = some s') (hfixed : Fixed (GivenIn (ms ++ ms'))) :
    ∀ row ∈ s.db.transaction.rows, ∃ row' ∈ s'.db.transaction.rows, Later row row' := by
  have hms : ∀ m ∈ ms ++ ms', (∀ data ∈ m.label.logs, Heard (ms ++ ms') data) ∧
      m.env.Gives (GivenIn (ms ++ ms')) :=
    fun m hm => ⟨fun data hdata => ⟨m, hm, hdata⟩, fun hash receipt h => ⟨m, hm, h⟩⟩
  obtain ⟨hfirst, hrest⟩ := List.forall_mem_append.mp hms
  obtain ⟨hs, _⟩ := recorded_run hfirst ⟨vouches_start db redis, recorded_start db redis⟩ hrun
  exact (recorded_run hrest hs hrun').2 hfixed

theorem settled_status_stays_saved_twice :
    ∃ s s', run (next sampleConfig) (Sys.start samplePendingDb none)
        (sampleMoves (sampleSavedTwice.take 9)) = some s ∧
      run (next sampleConfig) s (sampleMoves (sampleSavedTwice.drop 9)) = some s' ∧
        ∀ row ∈ s.db.transaction.rows, ∃ row' ∈ s'.db.transaction.rows, Later row row' := by
  have h : (run (next sampleConfig) (Sys.start samplePendingDb none)
      (sampleMoves (sampleSavedTwice.take 9))).any (fun s => (run (next sampleConfig) s
        (sampleMoves (sampleSavedTwice.drop 9))).isSome) = true := by
    decide +kernel
  obtain ⟨s, hs, hnext⟩ := (Option.any_eq_true _ _).mp h
  obtain ⟨s', hs'⟩ := Option.isSome_iff_exists.mp hnext
  refine ⟨s, s', hs, hs', settled_status_stays sampleConfig samplePendingDb none _ _ s s' hs hs' ?_⟩
  rintro hash receipt receipt' ⟨m, hm, hgiven⟩ ⟨m', hm', hgiven'⟩
  have henv {m : Move} (hm : m ∈ sampleMoves (sampleSavedTwice.take 9) ++
      sampleMoves (sampleSavedTwice.drop 9)) : m.env = sampleEnv := by
    rcases List.mem_append.mp hm with hm | hm
    · obtain ⟨l, _, rfl⟩ := List.mem_map.mp hm
      rfl
    · obtain ⟨l, _, rfl⟩ := List.mem_map.mp hm
      rfl
  rw [henv hm] at hgiven
  rw [henv hm'] at hgiven'
  exact Option.some.inj (hgiven.symm.trans hgiven')

end OlsDapp.Handler
