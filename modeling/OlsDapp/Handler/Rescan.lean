import OlsDapp.Handler.EveryDeposit
import OlsDapp.Lib.Replay

/-!
# Overlapping rescans

The scan goes back `blockOffset` blocks each time, so it hands over the same logs again and
again, a reorganised one with another block number. Once a log was handled with a receipt, the
row found for its key is settled and stays settled, and a log with a settled row is skipped. So
any windows over the logs leave the tables as one scan of the first occurrences does.
-/

namespace OlsDapp.Handler

open Lib (Row Table)
open Lib.Replay (Replayable firsts)

/-- A call of `processTokenTransfer`, with what the node and MySQL answer during it. -/
structure Delivery where
  env : Env
  data : TransferEvent

/-- One call and all it starts, each to its end. -/
def Delivery.run (db : Db) (d : Delivery) : Db := (handle d.env db d.data).1

/-- The log of the other event; its block number may have changed. -/
def TransferEvent.sameLog (e e' : TransferEvent) : Bool :=
  { e with blockNumber := e'.blockNumber } = e'

def Delivery.sameLog (d d' : Delivery) : Bool := d.data.sameLog d'.data

/-- The receipt of the log's transaction is available. -/
def Delivery.Confirmed (d : Delivery) : Prop :=
  (d.env.getTransactionReceipt d.data.transactionHash).isSome

def scan (db : Db) (ds : List Delivery) : Db := ds.foldl Delivery.run db

/-- The windows one after another. -/
def rescan (db : Db) (windows : List (List Delivery)) : Db := windows.foldl scan db

/-- The row found for the log is settled. -/
def IsSettled (db : Db) (d : Delivery) : Prop :=
  ∃ row, db.transaction.findOne d.data.matches = some row ∧ row.val.status ≠ .pending

section Settled

variable {db : Db} {d d' : Delivery}

theorem sameKey_of_sameLog (h : d.sameLog d' = true) : d.data.SameKey d'.data := by
  have heq := of_decide_eq_true h
  rw [← heq]
  exact ⟨rfl, rfl, rfl⟩

/-- A log with a settled row changes no table. -/
theorem handle_settled (h : IsSettled db d) : d.run db = db := by
  obtain ⟨row, hrow, hst⟩ := h
  rcases process_cases d.env db d.data with ⟨heq, _⟩ | ⟨receipt, save, _, hsave, _⟩
  · rw [Delivery.run, handle_none d.env heq]
  · rw [hrow, saveOf, if_neg hst] at hsave
    cases hsave

/-- No call undoes the settled row of a log, its own least of all. -/
theorem settled_run (h : IsSettled db d) (d' : Delivery) : IsSettled (d'.run db) d := by
  by_cases hkey : d'.data.SameKey d.data
  · have hsame : IsSettled db d' := by
      unfold IsSettled
      rw [hkey.matches_eq]
      exact h
    rw [handle_settled hsame]
    exact h
  · obtain ⟨row, hrow, hst⟩ := h
    exact ⟨row, (findOne_handle_ne hkey).trans hrow, hst⟩

theorem handle_settles (h : d.Confirmed) (hkey : d.data.SameKey d'.data) :
    IsSettled (d.run db) d' := by
  obtain ⟨receipt, hreceipt⟩ := Option.isSome_iff_exists.mp h
  exact findOne_handle_self hkey hreceipt

theorem deliveries_replayable : Replayable Delivery.run Delivery.sameLog IsSettled Delivery.Confirmed where
  ran := fun _ _ _ hd hsame => handle_settles hd (sameKey_of_sameLog hsame)
  skip := fun _ _ h => handle_settled h
  keep := fun _ _ d' h => settled_run h d'

end Settled

theorem rescan_eq_scan_flatten (db : Db) (windows : List (List Delivery)) :
    rescan db windows = scan db windows.flatten := by
  rw [scan, List.foldl_flatten]
  rfl

/-- Over any database, scanning windows of confirmed logs, however they overlap, leaves every
table as one scan of the logs in the order of their first occurrence does. -/
theorem rescan_eq_scan (db : Db) (windows : List (List Delivery))
    (hconfirmed : ∀ window ∈ windows, ∀ d ∈ window, d.Confirmed) :
    rescan db windows = scan db (firsts Delivery.sameLog windows.flatten) := by
  have hall : ∀ d ∈ windows.flatten, d.Confirmed := by
    intro d hd
    obtain ⟨window, hwindow, hmem⟩ := List.mem_flatten.mp hd
    exact hconfirmed window hwindow d hmem
  rw [rescan_eq_scan_flatten]
  exact deliveries_replayable.foldl_firsts db hall

/-- The second window repeats the first one's log at another height. -/
theorem rescan_eq_scan_moved :
    rescan sampleDb [[⟨sampleEnv, sampleLog⟩],
        [⟨sampleEnv, { sampleLog with blockNumber := 6 }⟩, ⟨sampleEnv, sampleLaterLog⟩]] =
      scan sampleDb [⟨sampleEnv, sampleLog⟩, ⟨sampleEnv, sampleLaterLog⟩] := by
  apply rescan_eq_scan sampleDb [[⟨sampleEnv, sampleLog⟩],
    [⟨sampleEnv, { sampleLog with blockNumber := 6 }⟩, ⟨sampleEnv, sampleLaterLog⟩]]
  intro window hwindow d hd
  rcases List.mem_pair.mp hwindow with rfl | rfl
  · obtain rfl := List.mem_singleton.mp hd
    rfl
  · rcases List.mem_pair.mp hd with rfl | rfl <;> rfl

end OlsDapp.Handler
