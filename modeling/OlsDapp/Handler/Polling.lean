import OlsDapp.Handler.AtMostOnce
import OlsDapp.Handler.Scan

/-!
# A handler without a subscription

The constructor attaches the handlers unless the node is reached over HTTP. Then every call of
`processTokenTransfer` is made and awaited by the scan, so the calls take turns and what one of
them has looked up is still what the table holds when it saves. A key then starts at most one
effect in the life of the database, whatever the table held at first.
-/

namespace OlsDapp.Handler

open Lib (Row Table)
open Lib.Machine (run Along)

section Definitions

/-- `config.rpc.type` -/
inductive RpcType where
  | ipc
  | ws
  | http
  deriving DecidableEq

/-- `if (config.rpc.type !== 'http') this.attachHandlers()` -/
def RpcType.attachesHandlers (type : RpcType) : Bool := type ≠ .http

/-- A log is delivered to an attached handler only. -/
def RpcType.allows (type : RpcType) : Label → Bool
  | .deliver _ => type.attachesHandlers
  | _ => true

/-- What the call has looked up and has still to decide on. -/
def RunPc.looked : RunPc → Option (Option (Row Transaction))
  | .getTransactionReceipt tx => some tx
  | .getBlock tx _ => some tx
  | _ => none

/-- The one call in flight is awaited, and knows the table as it is. -/
structure Turns (s : Sys) : Prop where
  hands : HandsOver s
  awaited : ∀ r ∈ s.runs, r.awaited = true
  looked : ∀ r ∈ s.runs, ∀ tx, r.pc.looked = some tx →
    tx = s.db.transaction.findOne r.data.matches
  saves : ∀ r ∈ s.runs, ∀ save, r.pc = .save save → ∃ t, r.data.matches t = true ∧
    t.status ≠ .pending ∧ saveOf (s.db.transaction.findOne r.data.matches) t = some save

/-- The log has started an effect at most once, and then its row is settled. -/
structure OneStart (d : TransferEvent) (rows : Nat) (s : Sys) : Prop where
  starts : s.startsOf d ≤ 1
  closed : 0 < s.startsOf d → ∃ row, s.db.transaction.findOne d.matches = some row ∧
    row.val.status ≠ .pending
  credits : s.creditsOf d + s.effects.countP (Effect.unspent d) ≤ s.startsOf d
  rows : s.rowsOf d ≤ max 1 rows

end Definitions

section Turns

variable {cfg : Config} {env : Env} {s s' : Sys} {l : Label}

/-- Without a subscription only the scan makes calls, and it awaits them. -/
theorem awaited_step (hl : RpcType.http.allows l = true) (h : ∀ r ∈ s.runs, r.awaited = true)
    (hstep : step cfg env s l = some s') : ∀ r ∈ s'.runs, r.awaited = true := by
  have herase (r : Run) : ∀ r' ∈ s.runs.erase r, r'.awaited = true := fun r' hr' =>
    h r' (List.mem_of_mem_erase hr')
  cases l with
  | deliver data => exact absurd hl Bool.false_ne_true
  | run r =>
    simp only [step] at hstep
    split at hstep
    · next hr =>
      split at hstep
      · obtain rfl := Option.some.inj hstep
        intro r' hr'
        rcases Lib.InFlight.mem_resume_imp hr' with hr' | hr'
        · obtain rfl := List.mem_singleton.mp hr'
          exact h r hr
        · exact h r' hr'
      · obtain rfl := Option.some.inj hstep
        rw [returned_runs]
        exact herase r
      · obtain rfl := Option.some.inj hstep
        rw [returned_runs]
        exact herase r
    · cases hstep
  | runFails r =>
    simp only [step, Option.ite_none_right_eq_some, Option.some.injEq] at hstep
    obtain ⟨_, rfl⟩ := hstep
    exact herase r
  | effect e =>
    simp only [step, Option.ite_none_right_eq_some, Option.some.injEq] at hstep
    obtain ⟨_, rfl⟩ := hstep
    exact h
  | effectFails e =>
    simp only [step, Option.ite_none_right_eq_some, Option.some.injEq] at hstep
    obtain ⟨_, rfl⟩ := hstep
    exact h
  | crash =>
    obtain rfl := Option.some.inj hstep
    exact List.forall_mem_nil _
  | storeTxhash record txhash =>
    simp only [step] at hstep
    split at hstep
    · simp only [Option.ite_none_right_eq_some, Option.some.injEq] at hstep
      obtain ⟨_, rfl⟩ := hstep
      exact h
    · cases hstep
  | jobStarts =>
    simp only [step, Option.ite_none_right_eq_some, Option.some.injEq] at hstep
    obtain ⟨_, rfl⟩ := hstep
    exact h
  | blockNumber c =>
    simp only [step, Option.ite_none_right_eq_some, Option.some.injEq] at hstep
    obtain ⟨_, rfl⟩ := hstep
    exact h
  | redisGet =>
    simp only [step] at hstep
    split at hstep
    · obtain rfl := Option.some.inj hstep
      exact h
    · cases hstep
  | pastEvents evs =>
    simp only [step] at hstep
    split at hstep
    · obtain rfl := Option.some.inj hstep
      exact h
    · cases hstep
  | nextEvent =>
    simp only [step] at hstep
    split at hstep
    · obtain rfl := Option.some.inj hstep
      exact List.forall_mem_cons.mpr ⟨rfl, h⟩
    · obtain rfl := Option.some.inj hstep
      exact h
    · cases hstep
  | redisSet =>
    simp only [step] at hstep
    split at hstep
    · obtain rfl := Option.some.inj hstep
      exact h
    · cases hstep
  | jobFails =>
    simp only [step] at hstep
    split at hstep <;> first | obtain rfl := Option.some.inj hstep; exact h | cases hstep

theorem turns_start (db : Db) (redis : Option Nat) : Turns (Sys.start db redis) :=
  ⟨handsOver_start db redis, fun _ h => absurd h List.not_mem_nil,
    fun _ h => absurd h List.not_mem_nil, fun _ h => absurd h List.not_mem_nil⟩

/-- No other call is in flight. -/
theorem Turns.alone (h : Turns s) {r : Run} (hr : r ∈ s.runs) : ∀ r' ∈ s.runs.erase r, False := by
  intro r' hr'
  have hfree := no_awaited_erase h.hands hr (h.awaited r hr) r' hr'
  rw [h.awaited r' (List.mem_of_mem_erase hr')] at hfree
  cases hfree

/-- The next await of a call that knows the table. -/
theorem turns_waits {r : Run} (hr : r ∈ s.runs) (h : Turns s) {pc : RunPc}
    (hres : r.resume env s.db = .waits pc) :
    (∀ tx, pc.looked = some tx → tx = s.db.transaction.findOne r.data.matches) ∧
      ∀ save, pc = .save save → ∃ t, r.data.matches t = true ∧ t.status ≠ .pending ∧
        saveOf (s.db.transaction.findOne r.data.matches) t = some save := by
  rcases resume_waits hres with ⟨_, rfl⟩ | ⟨tx, receipt, hpc, _, rfl⟩ |
    ⟨tx, receipt, save, hpc, hsave, rfl⟩
  · exact ⟨fun tx htx => (Option.some.inj htx).symm, fun _ hc => absurd hc nofun⟩
  · have hlooked := h.looked r hr tx (by rw [hpc]; rfl)
    refine ⟨fun tx' htx => ?_, fun _ hc => absurd hc nofun⟩
    rw [← Option.some.inj htx]
    exact hlooked
  · have hlooked := h.looked r hr tx (by rw [hpc]; rfl)
    refine ⟨fun _ hc => absurd hc nofun, fun save' hc => ?_⟩
    cases hc
    rw [hlooked] at hsave
    exact ⟨_, matches_transformed env receipt, getTxStatusByReceipt_ne_pending receipt, hsave⟩

theorem turns_step (hl : RpcType.http.allows l = true) (h : Turns s)
    (hstep : step cfg env s l = some s') : Turns s' := by
  have hands := handsOver_step h.hands hstep
  have hawaited := awaited_step hl h.awaited hstep
  have hkeep (hdb : s'.db.transaction = s.db.transaction) (hruns : s'.runs ⊆ s.runs) : Turns s' :=
    ⟨hands, hawaited, fun r hr => by rw [hdb]; exact h.looked r (hruns hr),
      fun r hr => by rw [hdb]; exact h.saves r (hruns hr)⟩
  have hempty {r : Run} (mem : r ∈ s.runs) (hruns : s'.runs = s.runs.erase r) : Turns s' :=
    ⟨hands, hawaited, fun r' hr' => (h.alone mem r' (hruns ▸ hr')).elim,
      fun r' hr' => (h.alone mem r' (hruns ▸ hr')).elim⟩
  cases step_change hstep with
  | arrives data awaited _ dbs runs _ _ =>
    refine ⟨hands, hawaited, fun r hr => ?_, fun r hr => ?_⟩
    · rw [dbs]
      rcases List.mem_cons.mp (runs ▸ hr) with rfl | hr
      · exact fun _ hc => absurd hc nofun
      · exact h.looked r hr
    · rw [dbs]
      rcases List.mem_cons.mp (runs ▸ hr) with rfl | hr
      · exact fun _ hc => absurd hc nofun
      · exact h.saves r hr
  | scans _ _ dbs runs _ _ => exact hkeep (by rw [dbs]) (by rw [runs]; exact fun _ h => h)
  | waits r mem pc resumed dbs runs _ _ =>
    obtain ⟨hlooked, hsaves⟩ := turns_waits mem h resumed
    have hcases : ∀ r' ∈ s'.runs, r' = { r with pc } ∨ r' ∈ s.runs := fun r' hr' =>
      (Lib.InFlight.mem_resume_imp (runs ▸ hr')).imp_left List.mem_singleton.mp
    refine ⟨hands, hawaited, fun r' hr' => ?_, fun r' hr' => ?_⟩
    · rw [dbs]
      rcases hcases r' hr' with rfl | hr'
      · exact hlooked
      · exact h.looked r' hr'
    · rw [dbs]
      rcases hcases r' hr' with rfl | hr'
      · exact hsaves
      · exact h.saves r' hr'
  | returns r mem _ _ _ _ runs _ _ => exact hempty mem runs
  | starts r mem _ _ _ _ _ runs _ _ => exact hempty mem runs
  | runFails r mem _ runs _ _ => exact hempty mem runs
  | effect e _ dbs runs _ _ =>
    exact hkeep (by rw [dbs, (resumes env s.db e).frame.1]) (by rw [runs]; exact fun _ h => h)
  | effectFails _ _ dbs runs _ _ => exact hkeep (by rw [dbs]) (by rw [runs]; exact fun _ h => h)
  | crash dbs runs _ _ => exact hkeep (by rw [dbs]) (by rw [runs]; exact List.nil_subset _)
  | storeTxhash _ _ _ _ _ dbs runs _ _ =>
    exact hkeep (by rw [dbs]) (by rw [runs]; exact fun _ h => h)

end Turns

section OneStart

variable {cfg : Config} {env : Env} {receipts : Receipts} {d : TransferEvent} {rows : Nat}
  {s s' : Sys} {l : Label} {r : Run}

theorem oneStart_start (d : TransferEvent) (db : Db) (redis : Option Nat) :
    OneStart d ((Sys.start db redis).rowsOf d) (Sys.start db redis) :=
  ⟨Nat.zero_le _, fun h => absurd h (Nat.lt_irrefl 0), Nat.le_refl _, Nat.le_max_right _ _⟩

/-- A step that starts nothing and saves no transaction. -/
theorem oneStart_frame (h : OneStart d rows s) (hdb : s'.db.transaction = s.db.transaction)
    (notes : List Note) (hnotes : notes.countP (Note.startsFor d) = 0)
    (hhistory : s'.history = notes ++ s.history)
    (hcredits : notes.countP (Note.creditsFor d) + s'.effects.countP (Effect.unspent d) ≤
      s.effects.countP (Effect.unspent d)) : OneStart d rows s' := by
  have hstarts : s'.startsOf d = s.startsOf d := by
    unfold Sys.startsOf
    rw [hhistory, List.countP_append, hnotes, Nat.zero_add]
  have hcount : s'.creditsOf d = notes.countP (Note.creditsFor d) + s.creditsOf d := by
    unfold Sys.creditsOf
    rw [hhistory, List.countP_append]
  refine ⟨?_, ?_, ?_, ?_⟩
  · rw [hstarts]
    exact h.starts
  · rw [hstarts, hdb]
    exact h.closed
  · have hbudget := h.credits
    omega
  · unfold Sys.rowsOf
    rw [hdb]
    exact h.rows

/-- After its save the row of a log is found settled. -/
theorem findOne_saved {data : TransferEvent} {db : Db} {t : Transaction} {save : Save}
    (hrow : data.matches t = true) (hstatus : t.status ≠ .pending)
    (hsave : saveOf (db.transaction.findOne data.matches) t = some save) :
    ∃ row, (save.run db).1.transaction.findOne data.matches = some row ∧
      row.val.status ≠ .pending := by
  rcases saveOf_some hsave with ⟨hnone, rfl⟩ | ⟨row, hfound, _, rfl⟩
  · refine ⟨⟨db.transaction.nextId, t⟩, ?_, hstatus⟩
    show (db.transaction.insert t).findOne data.matches = _
    rw [Table.findOne_insert, hnone, Option.none_or, if_pos hrow]
  · have hfor : (Save.update ⟨row.id, row.val.updated t⟩).For data db.transaction :=
      ⟨(Table.mem_of_findOne hfound).2, row, hfound, rfl⟩
    refine ⟨⟨row.id, row.val.updated t⟩, ?_, hstatus⟩
    show (db.transaction.save _).findOne data.matches = _
    rw [findOne_update hfor, hfound, Option.map_some, Table.replace, if_pos rfl]

/-- The save of a call keeps the settled rows of other keys, and is the first start of its own. -/
theorem oneStart_saves {save : Save} {notes : List Note} (h : OneStart d rows s) (ht : Turns s)
    (hs : s.Sound receipts) (hr : r ∈ s.runs) (hpc : r.pc = .save save)
    (hnotes : ∀ n ∈ notes, n = .handled r.data) (hdb : s'.db = (save.run s.db).1)
    (heffects : s'.effects = ⟨r.data, (save.run s.db).2, .manager⟩ :: s.effects)
    (hhistory : s'.history =
      notes ++ .processReceivedEthOrToken r.data (save.run s.db).2 :: s.history) :
    OneStart d rows s' := by
  obtain ⟨t, hrow, hstatus, hsave⟩ := ht.saves r hr save hpc
  have hfor := held_for (hs.held r hr) hpc
  have hnone {q : Note → Bool} (hq : q (.handled r.data) = false) : notes.countP q = 0 :=
    Lib.InFlight.countP_eq_zero fun n hn => by rw [hnotes n hn]; exact hq
  have hstarts : s'.startsOf d = s.startsOf d + if r.data.SameKey d then 1 else 0 := by
    unfold Sys.startsOf
    rw [hhistory, List.countP_append, List.countP_cons, hnone rfl, Nat.zero_add]
    simp only [Note.startsFor, decide_eq_true_eq]
  have hcredits : s'.creditsOf d = s.creditsOf d := by
    unfold Sys.creditsOf
    rw [hhistory, List.countP_append, List.countP_cons, hnone rfl, Nat.zero_add]
    rfl
  have hunspent : s'.effects.countP (Effect.unspent d) =
      s.effects.countP (Effect.unspent d) + if r.data.SameKey d then 1 else 0 := by
    rw [heffects, List.countP_cons]
    simp [Effect.unspent]
  have hbudget := h.credits
  by_cases hk : r.data.SameKey d
  · rw [if_pos hk] at hstarts hunspent
    rw [hk.matches_eq] at hrow hsave
    have hfirst : s.startsOf d = 0 := by
      by_contra hne
      obtain ⟨row, hfound, hsettled⟩ := h.closed (Nat.pos_of_ne_zero hne)
      rw [hfound, saveOf, if_neg hsettled] at hsave
      cases hsave
    refine ⟨by omega, fun _ => ?_, by omega, ?_⟩
    · rw [hdb]
      exact findOne_saved hrow hstatus hsave
    · have hold := h.rows
      unfold Sys.rowsOf at hold ⊢
      rw [hdb]
      rcases saveOf_some hsave with ⟨hfound, rfl⟩ | ⟨row, _, _, rfl⟩
      · have hzero : s.db.transaction.rows.countP (fun row => d.matches row.val) = 0 :=
          Lib.InFlight.countP_eq_zero (Table.findOne_eq_none.mp hfound)
        rw [rowsOf_create, hzero, if_pos hrow]
        exact Nat.le_max_left _ _
      · rw [rowsOf_update hfor]
        exact hold
  · rw [if_neg hk] at hstarts hunspent
    have hne : d.matches save.val = false := by
      rw [← Bool.not_eq_true]
      exact fun hd => hk (sameKey_of_matches (for_matches hfor) hd)
    refine ⟨?_, ?_, by omega, ?_⟩
    · rw [hstarts]
      exact h.starts
    · rw [hstarts, hdb, findOne_run_ne hfor hne]
      exact h.closed
    · have hold := h.rows
      unfold Sys.rowsOf at hold ⊢
      rw [hdb]
      cases save with
      | create newTx =>
        have hno : ¬ d.matches newTx = true := Bool.eq_false_iff.mp hne
        rw [rowsOf_create, if_neg hno]
        exact hold
      | update tx =>
        rw [rowsOf_update hfor]
        exact hold

theorem oneStart_step (h : OneStart d rows s) (ht : Turns s) (hs : s.Sound receipts)
    (hstep : step cfg env s l = some s') : OneStart d rows s' := by
  have hquiet (hdb : s'.db.transaction = s.db.transaction) (notes : List Note)
      (hnotes : ∀ n ∈ notes, n.startsFor d = false ∧ n.creditsFor d = false)
      (hhistory : s'.history = notes ++ s.history)
      (heffects : s'.effects.countP (Effect.unspent d) ≤ s.effects.countP (Effect.unspent d)) :
      OneStart d rows s' := by
    refine oneStart_frame h hdb notes (Lib.InFlight.countP_eq_zero fun n hn => (hnotes n hn).1)
      hhistory ?_
    rw [Lib.InFlight.countP_eq_zero fun n hn => (hnotes n hn).2, Nat.zero_add]
    exact heffects
  have hnil : ∀ n ∈ ([] : List Note), n.startsFor d = false ∧ n.creditsFor d = false :=
    List.forall_mem_nil _
  cases step_change hstep with
  | arrives _ _ _ dbs _ effects history =>
    exact hquiet (by rw [dbs]) [] hnil history (by rw [effects])
  | scans notes scan dbs _ effects history =>
    refine hquiet (by rw [dbs]) notes (fun n hn => ?_) history (by rw [effects])
    obtain ⟨c, evs, rfl⟩ := scan n hn
    exact ⟨rfl, rfl⟩
  | waits _ _ _ _ dbs _ effects history =>
    exact hquiet (by rw [dbs]) [] hnil history (by rw [effects])
  | returns r _ _ notes scan dbs _ effects history =>
    refine hquiet (by rw [dbs]) notes (fun n hn => ?_) history (by rw [effects])
    rw [scan n hn]
    exact ⟨rfl, rfl⟩
  | starts r mem save at_save notes scan dbs _ effects history =>
    exact oneStart_saves h ht hs mem at_save scan dbs effects history
  | runFails _ _ dbs _ effects history =>
    exact hquiet (by rw [dbs]) [] hnil history (by rw [effects])
  | effect e mem dbs _ effects history =>
    obtain ⟨hstarts, hcredits⟩ := resumes_credits (d := d) (resumes env s.db e)
    have hcount := Lib.InFlight.countP_resume (Effect.unspent d)
      ((e.resume env s.db).next.map fun pc => { e with pc }) mem
    refine oneStart_frame h (by rw [dbs, (resumes env s.db e).frame.1]) _ hstarts history ?_
    rw [effects]
    omega
  | effectFails e _ dbs _ effects history =>
    exact hquiet (by rw [dbs]) [] hnil history
      (by rw [effects]; exact Lib.InFlight.countP_erase_le _)
  | crash dbs _ effects history =>
    exact hquiet (by rw [dbs]) [] hnil history (by rw [effects]; exact Nat.zero_le _)
  | storeTxhash _ _ _ _ _ dbs _ effects history =>
    exact hquiet (by rw [dbs]) [] hnil history (by rw [effects])

end OneStart

/-- What a handler that only polls keeps in every run. -/
structure Polled (d : TransferEvent) (rows : Nat) (s : Sys) : Prop where
  sound : s.Sound fun _ _ => True
  turns : Turns s
  oneStart : OneStart d rows s

theorem polled_step {cfg : Config} {env : Env} {d : TransferEvent} {rows : Nat} {s s' : Sys}
    {l : Label} (hl : RpcType.http.allows l = true) (h : Polled d rows s)
    (hstep : step cfg env s l = some s') : Polled d rows s' :=
  ⟨sound_step (fun _ _ _ => trivial) h.sound hstep, turns_step hl h.turns hstep,
    oneStart_step h.oneStart h.turns h.sound hstep⟩

theorem polled_start (d : TransferEvent) (db : Db) (redis : Option Nat) :
    Polled d ((Sys.start db redis).rowsOf d) (Sys.start db redis) :=
  ⟨sound_start _ db redis, turns_start db redis, oneStart_start d db redis⟩

theorem polled_run {cfg : Config} {db : Db} {redis : Option Nat} {ms : List Move} {s : Sys}
    (hhttp : ∀ m ∈ ms, RpcType.http.allows m.label = true)
    (hrun : run (next cfg) (Sys.start db redis) ms = some s) (d : TransferEvent) :
    Polled d ((Sys.start db redis).rowsOf d) s := by
  refine Lib.Machine.run_induction_mem (fun s m s' hs hl hstep => ?_) (polled_start d db redis)
    hhttp hrun
  exact polled_step hl hs hstep

/-- Over HTTP, from every database and in every run with its failures and crashes, each key
starts at most one effect and is credited at most once, and a second row of it is never
inserted. -/
theorem polled_at_most_once (cfg : Config) (db : Db) (redis : Option Nat) (ms : List Move)
    (s : Sys) (hhttp : ∀ m ∈ ms, RpcType.http.allows m.label = true)
    (hrun : run (next cfg) (Sys.start db redis) ms = some s) (d : TransferEvent) :
    s.startsOf d ≤ 1 ∧ s.creditsOf d ≤ 1 ∧ s.rowsOf d ≤ max 1 ((Sys.start db redis).rowsOf d) := by
  have h := polled_run hhttp hrun d
  have hstarts := h.oneStart.starts
  have hcredits := h.oneStart.credits
  exact ⟨hstarts, by omega, h.oneStart.rows⟩

/-- Two scans fetch the log, and its wallet is credited between them. -/
def samplePolled : List Move :=
  sampleMoves (sampleScanTo 1 sampleLog ++ [.redisSet] ++ sampleReads sampleLog 1 ++
    sampleSaves sampleLog 1 sampleUser ++ sampleRescan 2 sampleLog)

theorem polled_at_most_once_rescanned :
    ∃ s, run (next sampleConfig) (Sys.start sampleDb none) samplePolled = some s ∧
      s.redis = some 2 ∧ s.startsOf sampleLog ≤ 1 ∧ s.creditsOf sampleLog ≤ 1 := by
  have h : (run (next sampleConfig) (Sys.start sampleDb none) samplePolled).any
      (fun s => s.redis = some 2) = true := by
    decide +kernel
  obtain ⟨s, hs, hp⟩ := (Option.any_eq_true _ _).mp h
  have hhttp : ∀ m ∈ samplePolled, RpcType.http.allows m.label = true := by decide +kernel
  obtain ⟨hstarts, hcredits, _⟩ :=
    polled_at_most_once sampleConfig sampleDb none samplePolled s hhttp hs sampleLog
  exact ⟨s, hs, of_decide_eq_true hp, hstarts, hcredits⟩

end OlsDapp.Handler
