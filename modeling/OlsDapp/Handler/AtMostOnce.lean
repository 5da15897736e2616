import OlsDapp.Handler.Invariant

/-!
# At most one row and one effect for each log

The duplicate check of `processTokenTransfer` reads the row, waits twice and then inserts.
A call that found nothing and has not saved yet is `checked`. The rows of a log and its
checked calls together never exceed one as long as no call reads while another is checked.
-/

namespace OlsDapp.Handler

open Lib (Row Table)
open Lib.InFlight (resume)
open Lib.Machine (run Along)

section Counts

variable (d : TransferEvent)

/-- The call looked, found nothing, and is still to insert. -/
def RunPc.foundNone : RunPc → Bool
  | .getTransactionReceipt none => true
  | .getBlock none _ => true
  | .save (.create _) => true
  | _ => false

def Run.checked (r : Run) : Bool := decide (r.data.SameKey d) && r.pc.foundNone

/-- The effect may still call `addUserCoin`. -/
def Effect.unspent (e : Effect) : Bool :=
  decide (e.data.SameKey d) && decide (e.pc = .manager ∨ e.pc = .charge)

def Note.startsFor : Note → Bool
  | .processReceivedEthOrToken data _ => data.SameKey d
  | _ => false

def Note.creditsFor : Note → Bool
  | .addUserCoin data _ _ => data.SameKey d
  | _ => false

namespace Sys

variable (s : Sys)

def rowsOf : Nat := s.db.transaction.rows.countP fun row => d.matches row.val
def startsOf : Nat := s.history.countP (Note.startsFor d)
def creditsOf : Nat := s.history.countP (Note.creditsFor d)

end Sys

/-- No call for the log reads while another one is between its read and its insert. -/
def Serialized (s : Sys) : Label → Prop
  | .run r => r.data.SameKey d → r.pc = .findOne → ∀ r' ∈ s.runs, r'.checked d = false
  | _ => True

instance (s : Sys) (l : Label) : Decidable (Serialized d s l) := by
  cases l <;> unfold Serialized <;> infer_instance

/-- The call does not hold a pending row. -/
def RunPc.settled : RunPc → Bool
  | .getTransactionReceipt (some tx) => tx.val.status ≠ .pending
  | .getBlock (some tx) _ => tx.val.status ≠ .pending
  | .save (.update _) => false
  | _ => true

structure Once (s : Sys) : Prop where
  budget : s.rowsOf d + s.runs.countP (Run.checked d) ≤ 1
  starts : s.startsOf d = s.rowsOf d
  credits : s.creditsOf d + s.effects.countP (Effect.unspent d) ≤ s.startsOf d
  rows : ∀ row ∈ s.db.transaction.rows, d.matches row.val = true → row.val.status ≠ .pending
  runs : ∀ r ∈ s.runs, r.data.SameKey d → r.pc.settled = true

end Counts

section Steps

variable {cfg : Config} {env : Env} {receipts : Receipts} {d : TransferEvent} {s s' : Sys}
  {r : Run}

theorem once_start (db : Db) (redis : Option Nat) (h : db.transaction.findOne d.matches = none) :
    Once d (Sys.start db redis) := by
  have hno := Table.findOne_eq_none.mp h
  have hrows : (Sys.start db redis).rowsOf d = 0 :=
    Lib.InFlight.countP_eq_zero hno
  refine ⟨?_, hrows.symm, ?_, fun row hrow hm => ?_, ?_⟩
  · rw [hrows]
    exact Nat.zero_le _
  · exact Nat.le_refl _
  · rw [hno row hrow] at hm
    cases hm
  · exact fun r hr => absurd hr List.not_mem_nil

/-- A step that inserts nothing and starts nothing for the log. -/
theorem once_frame (h : Once d s) (hdb : s'.db.transaction = s.db.transaction)
    (hstarts : s'.startsOf d = s.startsOf d)
    (hbudget : s.rowsOf d + s'.runs.countP (Run.checked d) ≤ 1)
    (hcredits : s'.creditsOf d + s'.effects.countP (Effect.unspent d) ≤
      s.creditsOf d + s.effects.countP (Effect.unspent d))
    (hruns : ∀ r ∈ s'.runs, r ∈ s.runs ∨ (r.data.SameKey d → r.pc.settled = true)) :
    Once d s' := by
  have hrows : s'.rowsOf d = s.rowsOf d := by
    unfold Sys.rowsOf
    rw [hdb]
  refine ⟨?_, ?_, ?_, ?_, fun r hr hk => ?_⟩
  · rw [hrows]
    exact hbudget
  · rw [hstarts, hrows, h.starts]
  · rw [hstarts]
    exact hcredits.trans h.credits
  · rw [hdb]
    exact h.rows
  · rcases hruns r hr with hr | hset
    · exact h.runs r hr hk
    · exact hset hk

/-- A step of the scan, or one that takes calls and effects away. -/
theorem once_quiet (h : Once d s) (notes : List Note)
    (hnotes : ∀ n ∈ notes, n.startsFor d = false ∧ n.creditsFor d = false)
    (hdb : s'.db.transaction = s.db.transaction)
    (hbudget : s.rowsOf d + s'.runs.countP (Run.checked d) ≤ 1)
    (heffects : s'.effects.countP (Effect.unspent d) ≤ s.effects.countP (Effect.unspent d))
    (hhistory : s'.history = notes ++ s.history)
    (hruns : ∀ r ∈ s'.runs, r ∈ s.runs ∨ (r.data.SameKey d → r.pc.settled = true)) :
    Once d s' := by
  refine once_frame h hdb ?_ hbudget ?_ hruns
  · unfold Sys.startsOf
    rw [hhistory, List.countP_append, Lib.InFlight.countP_eq_zero fun n hn => (hnotes n hn).1,
      Nat.zero_add]
  · unfold Sys.creditsOf
    rw [hhistory, List.countP_append, Lib.InFlight.countP_eq_zero fun n hn => (hnotes n hn).2,
      Nat.zero_add]
    exact Nat.add_le_add_left heffects _

/-- After its read a call stays checked until it saves. -/
theorem waits_checked {pc : RunPc} (hset : r.data.SameKey d → r.pc.settled = true)
    (hpc : r.pc ≠ .findOne) (h : r.resume env s.db = .waits pc) :
    ({ r with pc } : Run).checked d = r.checked d ∧
      (r.data.SameKey d → pc.settled = true) := by
  rcases resume_waits h with ⟨hfind, _⟩ | ⟨tx, receipt, hrec, _, rfl⟩ |
    ⟨tx, receipt, save, hblock, hsave, rfl⟩
  · exact absurd hfind hpc
  · rw [hrec] at hset
    unfold Run.checked
    rw [hrec]
    cases tx with
    | none => exact ⟨rfl, fun _ => rfl⟩
    | some tx => exact ⟨rfl, hset⟩
  · rw [hblock] at hset
    unfold Run.checked
    rw [hblock]
    rcases saveOf_some hsave with ⟨rfl, rfl⟩ | ⟨row, rfl, hpending, rfl⟩
    · exact ⟨rfl, fun _ => rfl⟩
    · have hne : ¬ r.data.SameKey d := fun hk => by
        have hst := hset hk
        simp only [RunPc.settled, hpending] at hst
        exact absurd hst (by decide)
      exact ⟨rfl, fun hk => absurd hk hne⟩

/-- A call that reads while no other is checked keeps the budget. -/
theorem once_read (h : Once d s)
    (hser : r.data.SameKey d → ∀ r' ∈ s.runs, r'.checked d = false) :
    let pc := RunPc.getTransactionReceipt (s.db.transaction.findOne r.data.matches)
    s.rowsOf d + (resume s.runs r [{ r with pc }]).countP (Run.checked d) ≤ 1 ∧
      (r.data.SameKey d → pc.settled = true) := by
  intro pc
  have hcount := Lib.InFlight.countP_resume_le (l := s.runs) (a := r) (Run.checked d)
    [({ r with pc } : Run)]
  rw [List.countP_singleton] at hcount
  have hbudget := h.budget
  by_cases hk : r.data.SameKey d
  · have hzero : s.runs.countP (Run.checked d) = 0 := Lib.InFlight.countP_eq_zero (hser hk)
    cases hf : s.db.transaction.findOne r.data.matches with
    | none =>
      have hrows : s.rowsOf d = 0 := by
        rw [hk.matches_eq] at hf
        exact Lib.InFlight.countP_eq_zero (Table.findOne_eq_none.mp hf)
      refine ⟨?_, fun _ => by simp only [pc, hf, RunPc.settled]⟩
      split at hcount
      · omega
      · omega
    | some tx =>
      obtain ⟨hmem, hm⟩ := Table.mem_of_findOne hf
      rw [hk.matches_eq] at hm
      have hnone : ({ r with pc } : Run).checked d = false := by
        simp only [Run.checked, pc, hf, RunPc.foundNone, Bool.and_false]
      rw [hnone, if_neg Bool.false_ne_true] at hcount
      refine ⟨by omega, fun _ => ?_⟩
      simp only [pc, hf, RunPc.settled]
      exact decide_eq_true (h.rows tx hmem hm)
  · have hnone : ({ r with pc } : Run).checked d = false := by
      simp only [Run.checked, hk, decide_false, Bool.false_and]
    rw [hnone, if_neg Bool.false_ne_true] at hcount
    exact ⟨by omega, fun hk' => absurd hk' hk⟩

section Saving

theorem rowsOf_create {db : Db} {newTx : Transaction} :
    ((Save.create newTx).run db).1.transaction.rows.countP (fun row => d.matches row.val) =
      db.transaction.rows.countP (fun row => d.matches row.val) +
        if d.matches newTx then 1 else 0 :=
  Table.countP_insert _

theorem rowsOf_update {db : Db} {tx : Row Transaction} {data : TransferEvent}
    (h : (Save.update tx).For data db.transaction) :
    ((Save.update tx).run db).1.transaction.rows.countP (fun row => d.matches row.val) =
      db.transaction.rows.countP fun row => d.matches row.val := by
  obtain ⟨hm, row, hrow, hid⟩ := h
  obtain ⟨hmem, hrm⟩ := Table.mem_of_findOne hrow
  refine Table.countP_save fun x hx hxid => ?_
  rw [Table.eq_of_id_eq hx hmem (hxid.trans hid.symm)]
  exact matches_eq_of_matches d hrm hm

end Saving

/-- The save of a call adds a row for its own log, and takes a checked call away then. -/
theorem rowsOf_starts {save : Save} (h : Once d s) (hr : r ∈ s.runs) (hpc : r.pc = .save save)
    (hfor : save.For r.data s.db.transaction) :
    (save.run s.db).1.transaction.rows.countP (fun row => d.matches row.val) =
        s.rowsOf d + (if r.data.SameKey d then 1 else 0) ∧
      (s.runs.erase r).countP (Run.checked d) + (if r.data.SameKey d then 1 else 0) ≤
        s.runs.countP (Run.checked d) := by
  have hcount := Lib.InFlight.countP_erase_add (Run.checked d) hr
  by_cases hk : r.data.SameKey d
  · have hset := h.runs r hr hk
    rw [hpc] at hset
    cases save with
    | update tx => cases hset
    | create newTx =>
      have hm : d.matches newTx = true := by
        rw [← hk.matches_eq]
        exact hfor
      have hchecked : r.checked d = true := by
        simp only [Run.checked, hk, hpc, RunPc.foundNone, decide_true, Bool.and_self]
      rw [hchecked, if_pos rfl] at hcount
      rw [rowsOf_create, hm, if_pos rfl, if_pos hk]
      exact ⟨rfl, hcount.le⟩
  · have hm : d.matches save.val = false := by
      rw [← Bool.not_eq_true]
      exact fun hd => hk (sameKey_of_matches (for_matches hfor) hd)
    have hrows : (save.run s.db).1.transaction.rows.countP (fun row => d.matches row.val) =
        s.rowsOf d := by
      cases save with
      | create newTx =>
        have hno : ¬ d.matches newTx = true := Bool.eq_false_iff.mp hm
        rw [rowsOf_create, if_neg hno]
        rfl
      | update tx => exact rowsOf_update hfor
    rw [hrows, if_neg hk]
    exact ⟨rfl, by omega⟩

/-- The save of a checked call: a row more, a start more, a checked call less. -/
theorem once_starts {save : Save} {notes : List Note} (h : Once d s) (hs : s.Sound receipts)
    (hr : r ∈ s.runs) (hpc : r.pc = .save save) (hnotes : ∀ n ∈ notes, n = .handled r.data)
    (hdb : s'.db = (save.run s.db).1) (hruns : s'.runs = s.runs.erase r)
    (heffects : s'.effects = ⟨r.data, (save.run s.db).2, .manager⟩ :: s.effects)
    (hhistory : s'.history =
      notes ++ .processReceivedEthOrToken r.data (save.run s.db).2 :: s.history) :
    Once d s' := by
  have hfor := held_for (hs.held r hr) hpc
  have hval := for_matches hfor
  have hstatus : save.val.status ≠ .pending := by
    have hans := hs.answered r hr
    unfold Run.Answered at hans
    rw [hpc] at hans
    obtain ⟨receipt, _, hst⟩ := hans
    rw [hst]
    exact getTxStatusByReceipt_ne_pending receipt
  have hchecked := Lib.InFlight.countP_erase_add (Run.checked d) hr
  have hstarts : s'.startsOf d = (if r.data.SameKey d then 1 else 0) + s.startsOf d := by
    unfold Sys.startsOf
    rw [hhistory, List.countP_append, List.countP_cons,
      Lib.InFlight.countP_eq_zero fun n hn => by rw [hnotes n hn]; rfl]
    simp only [Note.startsFor, decide_eq_true_eq]
    omega
  have hcredits : s'.creditsOf d = s.creditsOf d := by
    unfold Sys.creditsOf
    rw [hhistory, List.countP_append, List.countP_cons,
      Lib.InFlight.countP_eq_zero fun n hn => by rw [hnotes n hn]; rfl]
    simp only [Note.creditsFor, Bool.false_eq_true, if_false]
    omega
  have hunspent : s'.effects.countP (Effect.unspent d) =
      s.effects.countP (Effect.unspent d) + if r.data.SameKey d then 1 else 0 := by
    rw [heffects, List.countP_cons]
    simp [Effect.unspent]
  obtain ⟨hrows, hbudget⟩ := rowsOf_starts h hr hpc hfor
  refine ⟨?_, ?_, ?_, fun row hrow hm => ?_, fun r' hr' => ?_⟩
  · have hb := h.budget
    unfold Sys.rowsOf at *
    rw [hdb, hruns]
    omega
  · have hst := h.starts
    unfold Sys.rowsOf at *
    rw [hdb, hstarts]
    omega
  · have hcr := h.credits
    omega
  · rw [hdb] at hrow
    rcases mem_rows_run hrow with hrow | hval'
    · exact h.rows row hrow hm
    · rw [hval']
      exact hstatus
  · exact h.runs r' (List.mem_of_mem_erase (hruns ▸ hr'))

/-- The step of an effect for the log spends at most what it still may. -/
theorem resumes_credits {db : Db} {e : Effect} {o : Outcome} (h : Resumes env db e o) :
    o.notes.countP (Note.startsFor d) = 0 ∧
      o.notes.countP (Note.creditsFor d) +
          (o.next.map fun pc => { e with pc }).countP (Effect.unspent d) ≤
        if e.unspent d then 1 else 0 := by
  cases h with
  | stops => exact ⟨rfl, Nat.zero_le _⟩
  | routes manager pc at_ found routed =>
    refine ⟨rfl, ?_⟩
    by_cases hk : e.data.SameKey d
    · simp only [List.map_cons, List.map_nil, List.countP_nil, List.countP_singleton,
        Effect.unspent, hk, at_]
      split
      · exact Nat.le_refl _
      · exact Nat.zero_le _
    · simp [Effect.unspent, hk]
  | charges user at_ confirmed found =>
    refine ⟨rfl, ?_⟩
    by_cases hk : e.data.SameKey d
    · simp [Effect.unspent, Note.creditsFor, hk, at_]
    · simp [Effect.unspent, Note.creditsFor, hk]
  | credits user amount stored at_ kept => exact ⟨rfl, Nat.zero_le _⟩
  | deposits newTx row at_ kept => exact ⟨rfl, Nat.zero_le _⟩
  | transfers user at_ confirmed found => exact ⟨rfl, by simp [Effect.unspent, Note.creditsFor]⟩
  | draws user amount stored at_ kept => exact ⟨rfl, Nat.zero_le _⟩
  | withdraws record at_ confirmed found => exact ⟨rfl, by simp [Effect.unspent]⟩
  | refuses record at_ confirmed found => exact ⟨rfl, by simp [Effect.unspent]⟩
  | looksUp record at_ => exact ⟨rfl, by simp [Effect.unspent]⟩
  | settles record at_ => exact ⟨rfl, Nat.zero_le _⟩

theorem once_step {l : Label} (henv : env.Gives receipts) (hs : s.Sound receipts ∧ Once d s)
    (hser : Serialized d s l) (hstep : step cfg env s l = some s') :
    s'.Sound receipts ∧ Once d s' := by
  refine ⟨sound_step henv hs.1 hstep, ?_⟩
  obtain ⟨hsound, h⟩ := hs
  have hbudget := h.budget
  have herase : ∀ r, s.rowsOf d + (s.runs.erase r).countP (Run.checked d) ≤ 1 := fun r =>
    (Nat.add_le_add_left (Lib.InFlight.countP_erase_le _) _).trans hbudget
  have hnil : ∀ n ∈ ([] : List Note), n.startsFor d = false ∧ n.creditsFor d = false :=
    List.forall_mem_nil _
  cases step_change hstep with
  | arrives data awaited from_ db runs effects history =>
    refine once_quiet h [] hnil (by rw [db]) ?_ (by rw [effects]) history fun r hr => ?_
    · rw [runs, List.countP_cons]
      simp only [Run.checked, RunPc.foundNone, Bool.and_false, Bool.false_eq_true, if_false]
      exact hbudget
    · rw [runs] at hr
      rcases List.mem_cons.mp hr with rfl | hr
      · exact Or.inr fun _ => rfl
      · exact Or.inl hr
  | scans notes scan db runs effects history =>
    refine once_quiet h notes (fun n hn => ?_) (by rw [db]) (by rw [runs]; exact hbudget)
      (by rw [effects]) history fun r hr => Or.inl (runs ▸ hr)
    obtain ⟨c, evs, rfl⟩ := scan n hn
    exact ⟨rfl, rfl⟩
  | waits r mem pc resumed db runs effects history =>
    by_cases hpc : r.pc = .findOne
    · obtain ⟨hread, hset⟩ := once_read h fun hk => hser hk hpc
      have heq : pc = .getTransactionReceipt (s.db.transaction.findOne r.data.matches) := by
        unfold Run.resume at resumed
        rw [hpc] at resumed
        cases resumed
        rfl
      subst heq
      refine once_quiet h [] hnil (by rw [db]) (by rw [runs]; exact hread) (by rw [effects])
        history fun r' hr' => ?_
      rcases Lib.InFlight.mem_resume_imp (runs ▸ hr') with hr' | hr'
      · obtain rfl := List.mem_singleton.mp hr'
        exact Or.inr hset
      · exact Or.inl hr'
    · obtain ⟨hchecked, hset⟩ := waits_checked (h.runs r mem) hpc resumed
      refine once_quiet h [] hnil (by rw [db]) ?_ (by rw [effects]) history fun r' hr' => ?_
      · rw [runs, Lib.InFlight.countP_resume_eq _ mem hchecked]
        exact hbudget
      · rcases Lib.InFlight.mem_resume_imp (runs ▸ hr') with hr' | hr'
        · obtain rfl := List.mem_singleton.mp hr'
          exact Or.inr hset
        · exact Or.inl hr'
  | returns r mem resumed notes scan db runs effects history =>
    refine once_quiet h notes (fun n hn => ?_) (by rw [db]) (by rw [runs]; exact herase r)
      (by rw [effects]) history fun r' hr' => Or.inl (List.mem_of_mem_erase (runs ▸ hr'))
    rw [scan n hn]
    exact ⟨rfl, rfl⟩
  | starts r mem save at_save notes scan db runs effects history =>
    exact once_starts h hsound mem at_save scan db runs effects history
  | runFails r mem db runs effects history =>
    exact once_quiet h [] hnil (by rw [db]) (by rw [runs]; exact herase r) (by rw [effects])
      history fun r' hr' => Or.inl (List.mem_of_mem_erase (runs ▸ hr'))
  | effect e mem db runs effects history =>
    obtain ⟨hstarts, hcredits⟩ := resumes_credits (d := d) (resumes env s.db e)
    have hcount := Lib.InFlight.countP_resume (Effect.unspent d)
      ((e.resume env s.db).next.map fun pc => { e with pc }) mem
    refine once_frame h (by rw [db, (resumes env s.db e).frame.1]) ?_
      (by rw [runs]; exact hbudget) ?_ fun r hr => Or.inl (runs ▸ hr)
    · unfold Sys.startsOf
      rw [history, List.countP_append, hstarts, Nat.zero_add]
    · unfold Sys.creditsOf
      rw [history, effects, List.countP_append]
      omega
  | effectFails e mem db runs effects history =>
    exact once_quiet h [] hnil (by rw [db]) (by rw [runs]; exact hbudget)
      (by rw [effects]; exact Lib.InFlight.countP_erase_le _) history
      fun r hr => Or.inl (runs ▸ hr)
  | crash db runs effects history =>
    refine once_quiet h [] hnil (by rw [db]) ?_ (by rw [effects]; exact Nat.zero_le _) history
      fun r hr => ?_
    · rw [runs]
      exact (Nat.le_add_right _ _).trans hbudget
    · rw [runs] at hr
      exact absurd hr List.not_mem_nil
  | storeTxhash record txhash row found blank db runs effects history =>
    exact once_quiet h [] hnil (by rw [db]) (by rw [runs]; exact hbudget) (by rw [effects])
      history fun r hr => Or.inl (runs ▸ hr)

end Steps

/-- However the calls for a log interleave, as long as none of them reads while another is
between its read and its insert, the log gets at most one row, one effect and one credit. -/
theorem credited_at_most_once (cfg : Config) (db : Db) (redis : Option Nat) (d : TransferEvent)
    (hnew : db.transaction.findOne d.matches = none) (ms : List Move) (s : Sys)
    (hrun : run (next cfg) (Sys.start db redis) ms = some s)
    (hser : Along (next cfg) (fun s m => Serialized d s m.label) (Sys.start db redis) ms) :
    s.rowsOf d ≤ 1 ∧ s.startsOf d ≤ 1 ∧ s.creditsOf d ≤ 1 := by
  have hany : ∀ env : Env, env.Gives fun _ _ => True := fun _ _ _ _ => trivial
  obtain ⟨_, h⟩ := Lib.Machine.run_induction (P := fun s => s.Sound (fun _ _ => True) ∧ Once d s)
    (fun s m s' hs hg hstep => once_step (hany m.env) hs hg hstep)
    ⟨sound_start _ db redis, once_start db redis hnew⟩ hser hrun
  have hb := h.budget
  have hst := h.starts
  have hcr := h.credits
  exact ⟨by omega, by omega, by omega⟩

section Samples

/-- The steps of one delivery of `sampleLog` that found nothing, from its receipt on. -/
def sampleCall : List Label :=
  [.run ⟨sampleLog, false, .getTransactionReceipt none⟩,
    .run ⟨sampleLog, false, .getBlock none ⟨true⟩⟩,
    .run ⟨sampleLog, false, .save (.create (transformedTxData sampleEnv sampleLog ⟨true⟩))⟩]

/-- The effect of the row of this id, up to `addUserCoin`. -/
def sampleEffect (id : Nat) : List Label :=
  [.effect ⟨sampleLog, sampleTx sampleLog id, .manager⟩,
    .effect ⟨sampleLog, sampleTx sampleLog id, .charge⟩]

/-- The second delivery finds the row of the first. -/
def sampleAgain : List Label :=
  [.deliver sampleLog, .run ⟨sampleLog, false, .findOne⟩,
    .run ⟨sampleLog, false, .getTransactionReceipt (some (sampleTx sampleLog 1))⟩,
    .run ⟨sampleLog, false, .getBlock (some (sampleTx sampleLog 1)) ⟨true⟩⟩]

def sampleRedelivered : List Move :=
  sampleMoves ([.deliver sampleLog, .run ⟨sampleLog, false, .findOne⟩] ++ sampleCall ++
    sampleEffect 1 ++ sampleAgain)

theorem credited_at_most_once_redelivered :
    ∃ s, run (next sampleConfig) (Sys.start sampleDb none) sampleRedelivered = some s ∧
      s.rowsOf sampleLog ≤ 1 ∧ s.startsOf sampleLog ≤ 1 ∧ s.creditsOf sampleLog ≤ 1 := by
  have h : (run (next sampleConfig) (Sys.start sampleDb none) sampleRedelivered).isSome = true := by
    decide +kernel
  have hser : Along (next sampleConfig) (fun s m => Serialized sampleLog s m.label)
      (Sys.start sampleDb none) sampleRedelivered := by
    decide +kernel
  obtain ⟨s, hs⟩ := Option.isSome_iff_exists.mp h
  exact ⟨s, hs, credited_at_most_once sampleConfig sampleDb none sampleLog rfl sampleRedelivered s
    hs hser⟩

/-- The subscription and the rescan deliver one log; both calls read before either inserts. -/
def sampleOverlapping : List Move :=
  sampleMoves ([.deliver sampleLog, .deliver sampleLog, .run ⟨sampleLog, false, .findOne⟩,
    .run ⟨sampleLog, false, .findOne⟩] ++ sampleCall ++ sampleCall ++ sampleEffect 1 ++
      sampleEffect 2)

theorem two_deliveries_credit_twice :
    ∃ s, run (next sampleConfig) (Sys.start sampleDb none) sampleOverlapping = some s ∧
      s.rowsOf sampleLog = 2 ∧ s.startsOf sampleLog = 2 ∧ s.creditsOf sampleLog = 2 := by
  have h : (run (next sampleConfig) (Sys.start sampleDb none) sampleOverlapping).any
      (fun s => s.rowsOf sampleLog = 2 ∧ s.startsOf sampleLog = 2 ∧ s.creditsOf sampleLog = 2) =
      true := by
    decide +kernel
  obtain ⟨s, hs, hp⟩ := (Option.any_eq_true _ _).mp h
  exact ⟨s, hs, of_decide_eq_true hp⟩

end Samples

end OlsDapp.Handler
