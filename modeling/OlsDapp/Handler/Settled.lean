import OlsDapp.Handler.Invariant
import OlsDapp.Handler.Scan

/-!
# A log that counts as handled

Once the row of a log is settled, no later call does anything for it. `Settled` gathers the
ways in which the handler takes a log for handled, and `settled_step` says where they come
from: the step that settles a log is the one that starts its effect.
-/

namespace OlsDapp.Handler

open Lib (Row Table)

/-- The row a call has found, before it decides what to save. -/
def RunPc.found : RunPc → Option (Row Transaction)
  | .getTransactionReceipt tx => tx
  | .getBlock tx _ => tx
  | _ => none

/-- The log has a settled row, or a call goes by one, or a call of the scan has returned. -/
inductive Settled (e : TransferEvent) (s : Sys) : Prop where
  | row (row : Row Transaction) (found : s.db.transaction.findOne e.matches = some row)
      (status : row.val.status ≠ .pending)
  | run (r : Run) (mem : r ∈ s.runs) (key : r.data.SameKey e) (tx : Row Transaction)
      (found : r.pc.found = some tx) (status : tx.val.status ≠ .pending)
  | handled (data : TransferEvent) (key : data.SameKey e) (note : .handled data ∈ s.history)

/-- The step has started an effect for the log. -/
def Starts (e : TransferEvent) (s' : Sys) : Prop :=
  ∃ data tx, data.SameKey e ∧ (⟨data, tx, .manager⟩ : Effect) ∈ s'.effects

/-- The node gives the transaction this receipt or none yet, and gives it to every call for a
log of the transaction. -/
def Move.Gives (m : Move) (hash : String) (receipt : Receipt) : Prop :=
  m.env.getTransactionReceipt hash = some receipt ∨
    (m.env.getTransactionReceipt hash = none ∧
      ∀ r, m.label = .run r → r.data.transactionHash ≠ hash)

variable {cfg : Config} {env : Env} {receipts : Receipts} {e : TransferEvent} {s s' : Sys}

theorem Move.Gives.eq {m : Move} {hash : String} {receipt receipt' : Receipt}
    (h : m.Gives hash receipt) (hgives : m.env.getTransactionReceipt hash = some receipt') :
    receipt' = receipt := by
  rcases h with hsome | ⟨hnone, _⟩
  · rw [hsome] at hgives
    exact (Option.some.inj hgives).symm
  · rw [hnone] at hgives
    cases hgives

theorem Move.Gives.ne_none {m : Move} {hash : String} {receipt : Receipt} {r : Run}
    (h : m.Gives hash receipt) (hrun : m.label = .run r) (hhash : r.data.transactionHash = hash) :
    m.env.getTransactionReceipt hash ≠ none := by
  rcases h with hsome | ⟨_, hno⟩
  · rw [hsome]
    exact nofun
  · exact absurd hhash (hno r hrun)

theorem settled_start {db : Db} (redis : Option Nat)
    (h : ∀ row ∈ db.transaction.rows, e.matches row.val = true → row.val.status = .pending) :
    ¬ Settled e (Sys.start db redis) := by
  intro hs
  cases hs with
  | row row found status =>
    obtain ⟨hmem, hm⟩ := Table.mem_of_findOne found
    exact status (h row hmem hm)
  | run r mem => exact absurd mem List.not_mem_nil
  | handled data key note => exact absurd note List.not_mem_nil

/-- A scan that has stored its cursor leaves every log it fetched settled. -/
theorem settled_of_scan (h : HandsOver s) {c : Nat} {evs : List TransferEvent}
    (hscan : .lastCheckedBlock c evs ∈ s.history) (he : e ∈ evs) : Settled e s :=
  .handled e ⟨rfl, rfl, rfl⟩ (h.stored c evs hscan e he)

/-- A step that saves no transaction settles nothing but by what its calls found. -/
theorem settled_frame (hdb : s'.db.transaction = s.db.transaction)
    (hruns : ∀ r ∈ s'.runs, r ∈ s.runs ∨ (r.data.SameKey e → ∀ tx, r.pc.found = some tx →
      tx.val.status ≠ .pending → Settled e s))
    (hnotes : ∀ data, .handled data ∈ s'.history → .handled data ∈ s.history ∨
      (data.SameKey e → Settled e s))
    (h : Settled e s') : Settled e s := by
  cases h with
  | row row found status =>
    rw [hdb] at found
    exact .row row found status
  | run r mem key tx found status =>
    rcases hruns r mem with hold | hnew
    · exact .run r hold key tx found status
    · exact hnew key tx found status
  | handled data key note =>
    rcases hnotes data note with hold | hnew
    · exact .handled data key hold
    · exact hnew key

/-- What a call goes by is what it found, and it looks in the table. -/
theorem settled_waits {r : Run} {pc : RunPc} (hr : r ∈ s.runs) (hkey : r.data.SameKey e)
    (hres : r.resume env s.db = .waits pc) {tx : Row Transaction} (hfound : pc.found = some tx)
    (hst : tx.val.status ≠ .pending) : Settled e s := by
  rcases resume_waits hres with ⟨_, rfl⟩ | ⟨tx', receipt, hpc, _, rfl⟩ | ⟨_, _, _, _, _, rfl⟩
  · have hrow : s.db.transaction.findOne e.matches = some tx := by
      rw [← hkey.matches_eq]
      exact hfound
    exact .row tx hrow hst
  · refine .run r hr hkey tx ?_ hst
    rw [hpc]
    exact hfound
  · cases hfound

/-- A call that returns without a save went by a settled row, when the node has the receipt. -/
theorem settled_returns {r : Run} (hr : r ∈ s.runs) (hkey : r.data.SameKey e)
    (hreceipt : env.getTransactionReceipt e.transactionHash ≠ none)
    (hres : r.resume env s.db = .returns) : Settled e s := by
  rcases resume_returns hres with hnone | ⟨tx, receipt, hpc, hnone⟩
  · rw [hkey.1] at hnone
    exact absurd hnone hreceipt
  · cases tx with
    | none => cases hnone
    | some tx =>
      refine .run r hr hkey tx (by rw [hpc]; rfl) ?_
      intro hst
      simp only [saveOf, if_pos hst] at hnone
      cases hnone

theorem handled_of_quiet {notes history : List Note} (hquiet : ∀ n ∈ notes, n.ofScan = false)
    {data : TransferEvent} (h : .handled data ∈ notes ++ history) : .handled data ∈ history :=
  mem_of_notes hquiet rfl h

/-- A log is settled only by the step that starts an effect for it. -/
theorem settled_step {l : Label} (hs : s.Sound receipts)
    (hreceipt : ∀ r, l = .run r → r.data.transactionHash = e.transactionHash →
      env.getTransactionReceipt e.transactionHash ≠ none)
    (hstep : step cfg env s l = some s') (h : Settled e s') : Settled e s ∨ Starts e s' := by
  cases step_change hstep with
  | arrives data awaited _ db runs _ history =>
    left
    refine settled_frame (by rw [db]) (fun r hr => ?_) (fun d hd => Or.inl (history ▸ hd)) h
    rcases List.mem_cons.mp (runs ▸ hr) with rfl | hr
    · exact Or.inr fun _ _ hf => absurd hf nofun
    · exact Or.inl hr
  | scans notes scan db runs _ history =>
    left
    refine settled_frame (by rw [db]) (fun r hr => Or.inl (runs ▸ hr)) (fun d hd => ?_) h
    rw [history] at hd
    rcases List.mem_append.mp hd with hd | hd
    · obtain ⟨_, _, hn⟩ := scan _ hd
      cases hn
    · exact Or.inl hd
  | waits r mem pc resumed db runs _ history =>
    left
    refine settled_frame (by rw [db]) (fun r' hr' => ?_) (fun d hd => Or.inl (history ▸ hd)) h
    rcases Lib.InFlight.mem_resume_imp (runs ▸ hr') with hr' | hr'
    · obtain rfl := List.mem_singleton.mp hr'
      right
      intro hkey tx hf hst
      exact settled_waits mem hkey resumed hf hst
    · exact Or.inl hr'
  | returns r mem resumed notes scan db runs _ history =>
    left
    refine settled_frame (by rw [db]) (fun r' hr' => Or.inl (List.mem_of_mem_erase (runs ▸ hr')))
      (fun d hd => ?_) h
    rw [history] at hd
    rcases List.mem_append.mp hd with hd | hd
    · right
      intro hkey
      rw [Note.handled.inj (scan _ hd)] at hkey
      exact settled_returns mem hkey (hreceipt r rfl hkey.1) resumed
    · exact Or.inl hd
  | starts r mem save at_save notes scan db runs effects history =>
    by_cases hkey : r.data.SameKey e
    · right
      refine ⟨r.data, (save.run s.db).2, hkey, ?_⟩
      rw [effects]
      exact List.mem_cons_self
    · left
      have hfor := held_for (hs.held r mem) at_save
      have hne : e.matches save.val = false := by
        rw [← Bool.not_eq_true]
        intro hm
        exact hkey (sameKey_of_matches (for_matches hfor) hm)
      cases h with
      | row row found status =>
        rw [db, findOne_run_ne hfor hne] at found
        exact .row row found status
      | run r' mem' key tx found status =>
        exact .run r' (List.mem_of_mem_erase (runs ▸ mem')) key tx found status
      | handled data key note =>
        rw [history] at note
        rcases List.mem_append.mp note with hn | hn
        · rw [Note.handled.inj (scan _ hn)] at key
          exact absurd key hkey
        · rcases List.mem_cons.mp hn with hn | hn
          · cases hn
          · exact .handled data key hn
  | runFails r mem db runs _ history =>
    left
    exact settled_frame (by rw [db]) (fun r' hr' => Or.inl (List.mem_of_mem_erase (runs ▸ hr')))
      (fun d hd => Or.inl (history ▸ hd)) h
  | effect e' mem db runs _ history =>
    left
    refine settled_frame (by rw [db, (resumes env s.db e').frame.1])
      (fun r hr => Or.inl (runs ▸ hr)) (fun d hd => Or.inl ?_) h
    rw [history] at hd
    exact handled_of_quiet (resume_quiet e' s.db) hd
  | effectFails e' mem db runs _ history =>
    left
    exact settled_frame (by rw [db]) (fun r hr => Or.inl (runs ▸ hr))
      (fun d hd => Or.inl (history ▸ hd)) h
  | crash db runs _ history =>
    left
    refine settled_frame (by rw [db]) (fun r hr => ?_) (fun d hd => Or.inl (history ▸ hd)) h
    rw [runs] at hr
    exact absurd hr List.not_mem_nil
  | storeTxhash record txhash row found blank db runs _ history =>
    left
    exact settled_frame (by rw [db]) (fun r hr => Or.inl (runs ▸ hr))
      (fun d hd => Or.inl (history ▸ hd)) h

end OlsDapp.Handler
