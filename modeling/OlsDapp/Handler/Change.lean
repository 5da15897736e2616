import OlsDapp.Handler.System

/-!
# What one step changes

`Change` says for each step what becomes of the database, of the calls and effects in
flight and of the history, and `Resumes` says it for the step of an effect. The invariants
are proved by cases on them.
-/

namespace OlsDapp.Handler

open Lib (Row Table)
open Lib.InFlight (resume)

/-- The events the scan has fetched and not yet handed over. -/
def Job.ahead : Job → List TransferEvent
  | .loop _ _ rest => rest
  | .processTokenTransfer _ _ _ rest => rest
  | _ => []

/-- The logs a step brings in. -/
def Label.logs : Label → List TransferEvent
  | .deliver data => [data]
  | .pastEvents transferEvents => transferEvents
  | _ => []

inductive Change (env : Env) (s : Sys) : Label → Sys → Prop where
  /-- A new call of `processTokenTransfer`. -/
  | arrives {l s'} (data : TransferEvent) (awaited : Bool)
      (from_ : l = .deliver data ∨ data ∈ s.job.ahead)
      (db : s'.db = s.db) (runs : s'.runs = ⟨data, awaited, .findOne⟩ :: s.runs)
      (effects : s'.effects = s.effects) (history : s'.history = s.history) : Change env s l s'
  /-- A step of the scan alone. -/
  | scans {l s'} (notes : List Note) (scan : ∀ n ∈ notes, ∃ c evs, n = .lastCheckedBlock c evs)
      (db : s'.db = s.db) (runs : s'.runs = s.runs)
      (effects : s'.effects = s.effects) (history : s'.history = notes ++ s.history) :
      Change env s l s'
  | waits {s'} (r : Run) (mem : r ∈ s.runs) (pc : RunPc) (resumed : r.resume env s.db = .waits pc)
      (db : s'.db = s.db) (runs : s'.runs = resume s.runs r [{ r with pc }])
      (effects : s'.effects = s.effects) (history : s'.history = s.history) :
      Change env s (.run r) s'
  | returns {s'} (r : Run) (mem : r ∈ s.runs) (resumed : r.resume env s.db = .returns)
      (notes : List Note) (scan : ∀ n ∈ notes, n = .handled r.data)
      (db : s'.db = s.db) (runs : s'.runs = s.runs.erase r)
      (effects : s'.effects = s.effects) (history : s'.history = notes ++ s.history) :
      Change env s (.run r) s'
  | starts {s'} (r : Run) (mem : r ∈ s.runs) (save : Save) (at_save : r.pc = .save save)
      (notes : List Note) (scan : ∀ n ∈ notes, n = .handled r.data)
      (db : s'.db = (save.run s.db).1) (runs : s'.runs = s.runs.erase r)
      (effects : s'.effects = ⟨r.data, (save.run s.db).2, .manager⟩ :: s.effects)
      (history : s'.history =
        notes ++ .processReceivedEthOrToken r.data (save.run s.db).2 :: s.history) :
      Change env s (.run r) s'
  | runFails {s'} (r : Run) (mem : r ∈ s.runs)
      (db : s'.db = s.db) (runs : s'.runs = s.runs.erase r)
      (effects : s'.effects = s.effects) (history : s'.history = s.history) :
      Change env s (.runFails r) s'
  | effect {s'} (e : Effect) (mem : e ∈ s.effects)
      (db : s'.db = (e.resume env s.db).db) (runs : s'.runs = s.runs)
      (effects : s'.effects =
        resume s.effects e ((e.resume env s.db).next.map fun pc => { e with pc }))
      (history : s'.history = (e.resume env s.db).notes ++ s.history) :
      Change env s (.effect e) s'
  | effectFails {s'} (e : Effect) (mem : e ∈ s.effects)
      (db : s'.db = s.db) (runs : s'.runs = s.runs)
      (effects : s'.effects = s.effects.erase e) (history : s'.history = s.history) :
      Change env s (.effectFails e) s'
  | crash {s'} (db : s'.db = s.db) (runs : s'.runs = [])
      (effects : s'.effects = []) (history : s'.history = s.history) : Change env s .crash s'
  | storeTxhash {s'} (record : Nat) (txhash : String) (row : Row UOlsMyzc)
      (found : s.db.uOlsMyzc.findById record = some row) (blank : row.val.txhash = "")
      (db : s'.db =
        { s.db with uOlsMyzc := s.db.uOlsMyzc.save ⟨record, { row.val with txhash }⟩ })
      (runs : s'.runs = s.runs) (effects : s'.effects = s.effects)
      (history : s'.history = s.history) : Change env s (.storeTxhash record txhash) s'

section Returned

variable (s : Sys) (r : Run)

theorem returned_db : (s.returned r).db = s.db := by
  unfold Sys.returned
  split
  · split <;> rfl
  · rfl

theorem returned_runs : (s.returned r).runs = s.runs.erase r := by
  unfold Sys.returned
  split
  · split <;> rfl
  · rfl

theorem returned_effects : (s.returned r).effects = s.effects := by
  unfold Sys.returned
  split
  · split <;> rfl
  · rfl

theorem returned_history :
    ∃ notes, (∀ n ∈ notes, n = .handled r.data) ∧ (s.returned r).history = notes ++ s.history := by
  have hnil : ∀ n ∈ ([] : List Note), n = .handled r.data := fun n h => absurd h List.not_mem_nil
  unfold Sys.returned
  split
  · split
    · refine ⟨[.handled r.data], fun n h => List.mem_singleton.mp h, rfl⟩
    · exact ⟨[], hnil, rfl⟩
  · exact ⟨[], hnil, rfl⟩

end Returned

section Inversion

variable {cfg : Config} {env : Env} {s s' : Sys}

theorem run_change {r : Run} (h : step cfg env s (.run r) = some s') :
    Change env s (.run r) s' := by
  simp only [step] at h
  split at h
  · next hr =>
    cases hres : r.resume env s.db with
    | waits pc =>
      rw [hres] at h
      obtain rfl := Option.some.inj h
      exact .waits r hr pc hres rfl rfl rfl rfl
    | returns =>
      rw [hres] at h
      obtain rfl := Option.some.inj h
      obtain ⟨notes, hscan, hhist⟩ := returned_history s r
      exact .returns r hr hres notes hscan (returned_db s r) (returned_runs s r)
        (returned_effects s r) hhist
    | starts db tx =>
      rw [hres] at h
      obtain rfl := Option.some.inj h
      obtain ⟨save, hpc, rfl, rfl⟩ := resume_starts hres
      obtain ⟨notes, hscan, hhist⟩ := returned_history _ r
      exact .starts r hr save hpc notes hscan (returned_db _ r) (returned_runs _ r)
        (returned_effects _ r) hhist
  · cases h

/-- A step of the scan that changes nothing but its own state. -/
theorem change_of_job {l : Label} {job : Job} {redis : Option Nat}
    (h : s' = { s with job, redis }) : Change env s l s' := by
  subst h
  exact .scans [] (fun n h => absurd h List.not_mem_nil) rfl rfl rfl rfl

theorem job_change {l : Label} (hl : l = .jobStarts ∨ (∃ n, l = .blockNumber n) ∨ l = .redisGet ∨
    (∃ evs, l = .pastEvents evs) ∨ l = .nextEvent ∨ l = .redisSet ∨ l = .jobFails)
    (h : step cfg env s l = some s') : Change env s l s' := by
  rcases hl with rfl | ⟨n, rfl⟩ | rfl | ⟨evs, rfl⟩ | rfl | rfl | rfl
  · simp only [step, Option.ite_none_right_eq_some, Option.some.injEq] at h
    exact change_of_job h.2.symm
  · simp only [step, Option.ite_none_right_eq_some, Option.some.injEq] at h
    exact change_of_job h.2.symm
  · simp only [step] at h
    split at h
    · exact change_of_job (Option.some.inj h).symm
    · cases h
  · simp only [step] at h
    split at h
    · exact change_of_job (Option.some.inj h).symm
    · cases h
  · simp only [step] at h
    split at h
    · next event rest hjob =>
      obtain rfl := Option.some.inj h
      refine .arrives event true (Or.inr ?_) rfl rfl rfl rfl
      rw [hjob]
      exact List.mem_cons_self
    · exact change_of_job (Option.some.inj h).symm
    · cases h
  · simp only [step] at h
    split at h
    · next c evs _ =>
      obtain rfl := Option.some.inj h
      refine .scans [.lastCheckedBlock c evs] (fun n hn => ?_) rfl rfl rfl rfl
      exact ⟨c, evs, List.mem_singleton.mp hn⟩
    · cases h
  · simp only [step] at h
    split at h
    · exact change_of_job (Option.some.inj h).symm
    · exact change_of_job (Option.some.inj h).symm
    · exact change_of_job (Option.some.inj h).symm
    · exact change_of_job (Option.some.inj h).symm
    · cases h

theorem step_change {l : Label} (h : step cfg env s l = some s') : Change env s l s' := by
  cases l with
  | deliver data =>
    obtain rfl := Option.some.inj h
    exact .arrives data false (Or.inl rfl) rfl rfl rfl rfl
  | run r => exact run_change h
  | runFails r =>
    simp only [step, Option.ite_none_right_eq_some, Option.some.injEq] at h
    obtain ⟨hr, rfl⟩ := h
    exact .runFails r hr rfl rfl rfl rfl
  | effect e =>
    simp only [step, Option.ite_none_right_eq_some, Option.some.injEq] at h
    obtain ⟨he, rfl⟩ := h
    exact .effect e he rfl rfl rfl rfl
  | effectFails e =>
    simp only [step, Option.ite_none_right_eq_some, Option.some.injEq] at h
    obtain ⟨he, rfl⟩ := h
    exact .effectFails e he rfl rfl rfl rfl
  | crash =>
    obtain rfl := Option.some.inj h
    exact .crash rfl rfl rfl rfl
  | storeTxhash record txhash =>
    simp only [step] at h
    split at h
    · next row hrow =>
      simp only [Option.ite_none_right_eq_some, Option.some.injEq] at h
      obtain ⟨hblank, rfl⟩ := h
      exact .storeTxhash record txhash row hrow hblank rfl rfl rfl rfl
    · cases h
  | jobStarts => exact job_change (by simp) h
  | blockNumber n => exact job_change (by simp) h
  | redisGet => exact job_change (by simp) h
  | pastEvents evs => exact job_change (by simp) h
  | nextEvent => exact job_change (by simp) h
  | redisSet => exact job_change (by simp) h
  | jobFails => exact job_change (by simp) h

end Inversion

section Ahead

variable {cfg : Config} {env : Env} {s s' : Sys}

theorem returned_ahead (s : Sys) (r : Run) : (s.returned r).job.ahead = s.job.ahead := by
  unfold Sys.returned
  split
  · next hjob =>
    split
    · rw [hjob]
      rfl
    · rfl
  · rfl

/-- What the scan has ahead of it was ahead before or has just been fetched. -/
theorem ahead_step {l : Label} (h : step cfg env s l = some s') {data : TransferEvent}
    (hd : data ∈ s'.job.ahead) : data ∈ s.job.ahead ∨ data ∈ l.logs := by
  cases l with
  | deliver d =>
    obtain rfl := Option.some.inj h
    exact Or.inl hd
  | run r =>
    simp only [step] at h
    split at h
    · split at h
      · obtain rfl := Option.some.inj h
        exact Or.inl hd
      · obtain rfl := Option.some.inj h
        rw [returned_ahead] at hd
        exact Or.inl hd
      · obtain rfl := Option.some.inj h
        rw [returned_ahead] at hd
        exact Or.inl hd
    · cases h
  | runFails r =>
    simp only [step, Option.ite_none_right_eq_some, Option.some.injEq] at h
    obtain ⟨_, rfl⟩ := h
    unfold Sys.threw at hd
    dsimp only at hd
    split at hd
    · exact absurd hd List.not_mem_nil
    · exact Or.inl hd
  | effect e =>
    simp only [step, Option.ite_none_right_eq_some, Option.some.injEq] at h
    obtain ⟨_, rfl⟩ := h
    exact Or.inl hd
  | effectFails e =>
    simp only [step, Option.ite_none_right_eq_some, Option.some.injEq] at h
    obtain ⟨_, rfl⟩ := h
    exact Or.inl hd
  | crash =>
    obtain rfl := Option.some.inj h
    exact absurd hd List.not_mem_nil
  | storeTxhash record txhash =>
    simp only [step] at h
    split at h
    · simp only [Option.ite_none_right_eq_some, Option.some.injEq] at h
      obtain ⟨_, rfl⟩ := h
      exact Or.inl hd
    · cases h
  | jobStarts =>
    simp only [step, Option.ite_none_right_eq_some, Option.some.injEq] at h
    obtain ⟨_, rfl⟩ := h
    exact absurd hd List.not_mem_nil
  | blockNumber n =>
    simp only [step, Option.ite_none_right_eq_some, Option.some.injEq] at h
    obtain ⟨_, rfl⟩ := h
    exact absurd hd List.not_mem_nil
  | redisGet =>
    simp only [step] at h
    split at h
    · obtain rfl := Option.some.inj h
      exact absurd hd List.not_mem_nil
    · cases h
  | pastEvents evs =>
    simp only [step] at h
    split at h
    · obtain rfl := Option.some.inj h
      exact Or.inr hd
    · cases h
  | nextEvent =>
    simp only [step] at h
    split at h
    · next event rest hjob =>
      obtain rfl := Option.some.inj h
      left
      rw [hjob]
      exact List.mem_cons_of_mem _ hd
    · obtain rfl := Option.some.inj h
      exact absurd hd List.not_mem_nil
    · cases h
  | redisSet =>
    simp only [step] at h
    split at h
    · obtain rfl := Option.some.inj h
      exact absurd hd List.not_mem_nil
    · cases h
  | jobFails =>
    simp only [step] at h
    split at h <;> first | cases h; exact absurd hd List.not_mem_nil | cases h

end Ahead

/-- The save of a transaction leaves the other tables alone. -/
theorem run_frame (save : Save) (db : Db) :
    (save.run db).1.uOlsWallet = db.uOlsWallet ∧ (save.run db).1.uOlsMyzc = db.uOlsMyzc ∧
      (save.run db).1.sManagerWallet = db.sManagerWallet := by
  cases save <;> exact ⟨rfl, rfl, rfl⟩

section InFlight

variable {cfg : Config} {env : Env} {s s' : Sys} {l : Label}

theorem history_subset (h : step cfg env s l = some s') : s.history ⊆ s'.history := by
  cases step_change h with
  | arrives _ _ _ _ _ _ history => exact history ▸ List.Subset.refl _
  | scans notes _ _ _ _ history => exact history ▸ List.subset_append_right _ _
  | waits _ _ _ _ _ _ _ history => exact history ▸ List.Subset.refl _
  | returns _ _ _ notes _ _ _ _ history => exact history ▸ List.subset_append_right _ _
  | starts _ _ _ _ notes _ _ _ _ history =>
    rw [history]
    intro n hn
    exact List.mem_append_right _ (List.mem_cons_of_mem _ hn)
  | runFails _ _ _ _ _ history => exact history ▸ List.Subset.refl _
  | effect _ _ _ _ _ history => exact history ▸ List.subset_append_right _ _
  | effectFails _ _ _ _ _ history => exact history ▸ List.Subset.refl _
  | crash _ _ _ history => exact history ▸ List.Subset.refl _
  | storeTxhash _ _ _ _ _ _ _ _ history => exact history ▸ List.Subset.refl _

theorem effect_history {e : Effect} (h : step cfg env s (.effect e) = some s') :
    s'.history = (e.resume env s.db).notes ++ s.history := by
  simp only [step, Option.ite_none_right_eq_some, Option.some.injEq] at h
  obtain ⟨_, rfl⟩ := h
  rfl

/-- What a step writes: the save of a call, what the step of an effect writes, or the hash of a
withdrawal. -/
theorem step_db (h : step cfg env s l = some s') :
    s'.db = s.db ∨ (∃ save : Save, s'.db = (save.run s.db).1) ∨
      (∃ e ∈ s.effects, l = .effect e ∧ s'.db = (e.resume env s.db).db) ∨
      ∃ record txhash row, s.db.uOlsMyzc.findById record = some row ∧ row.val.txhash = "" ∧
        s'.db =
          { s.db with uOlsMyzc := s.db.uOlsMyzc.save ⟨record, { row.val with txhash }⟩ } := by
  cases step_change h with
  | arrives _ _ _ db => exact Or.inl db
  | scans _ _ db => exact Or.inl db
  | waits _ _ _ _ db => exact Or.inl db
  | returns _ _ _ _ _ db => exact Or.inl db
  | starts _ _ save _ _ _ db => exact Or.inr (Or.inl ⟨save, db⟩)
  | runFails _ _ db => exact Or.inl db
  | effect e mem db => exact Or.inr (Or.inr (Or.inl ⟨e, mem, rfl, db⟩))
  | effectFails _ _ db => exact Or.inl db
  | crash db => exact Or.inl db
  | storeTxhash record txhash row found blank db =>
    exact Or.inr (Or.inr (Or.inr ⟨record, txhash, row, found, blank, db⟩))

/-- Where an effect comes from: it was in flight, it is new, or it has taken its step. -/
theorem effect_from (h : step cfg env s l = some s') {e : Effect} (he : e ∈ s'.effects) :
    e ∈ s.effects ∨ e.pc = .manager ∨
      ∃ e₁ ∈ s.effects, l = .effect e₁ ∧ ∃ pc ∈ (e₁.resume env s.db).next, e = { e₁ with pc } := by
  cases step_change h with
  | arrives _ _ _ _ _ effects _ => exact Or.inl (effects ▸ he)
  | scans _ _ _ _ effects _ => exact Or.inl (effects ▸ he)
  | waits _ _ _ _ _ _ effects _ => exact Or.inl (effects ▸ he)
  | returns _ _ _ _ _ _ _ effects _ => exact Or.inl (effects ▸ he)
  | starts _ _ _ _ _ _ _ _ effects _ =>
    rcases List.mem_cons.mp (effects ▸ he) with rfl | he
    · exact Or.inr (Or.inl rfl)
    · exact Or.inl he
  | runFails _ _ _ _ effects _ => exact Or.inl (effects ▸ he)
  | effect e₁ mem _ _ effects _ =>
    rcases Lib.InFlight.mem_resume_imp (effects ▸ he) with he | he
    · obtain ⟨pc, hpc, rfl⟩ := List.mem_map.mp he
      exact Or.inr (Or.inr ⟨e₁, mem, rfl, pc, hpc, rfl⟩)
    · exact Or.inl he
  | effectFails _ _ _ _ effects _ => exact Or.inl (List.mem_of_mem_erase (effects ▸ he))
  | crash _ _ effects _ => exact absurd (effects ▸ he) List.not_mem_nil
  | storeTxhash _ _ _ _ _ _ _ effects _ => exact Or.inl (effects ▸ he)

/-- What becomes of an effect: it stays, it takes its step, or it is lost. -/
theorem effect_to (h : step cfg env s l = some s') {e : Effect} (he : e ∈ s.effects) :
    e ∈ s'.effects ∨ (l = .effect e ∧ s'.db = (e.resume env s.db).db ∧
        (∀ pc ∈ (e.resume env s.db).next, { e with pc } ∈ s'.effects) ∧
        ∀ n ∈ (e.resume env s.db).notes, n ∈ s'.history) ∨
      l = .effectFails e ∨ l = .crash := by
  cases step_change h with
  | arrives _ _ _ _ _ effects _ => exact Or.inl (effects ▸ he)
  | scans _ _ _ _ effects _ => exact Or.inl (effects ▸ he)
  | waits _ _ _ _ _ _ effects _ => exact Or.inl (effects ▸ he)
  | returns _ _ _ _ _ _ _ effects _ => exact Or.inl (effects ▸ he)
  | starts _ _ _ _ _ _ _ _ effects _ => exact Or.inl (effects ▸ List.mem_cons_of_mem _ he)
  | runFails _ _ _ _ effects _ => exact Or.inl (effects ▸ he)
  | effect e₁ mem db _ effects history =>
    by_cases heq : e = e₁
    · subst heq
      refine Or.inr (Or.inl ⟨rfl, db, ?_, ?_⟩)
      · intro pc hpc
        rw [effects]
        exact Lib.InFlight.mem_resume_of_mem_next (List.mem_map_of_mem hpc)
      · intro n hn
        rw [history]
        exact List.mem_append_left _ hn
    · left
      rw [effects]
      exact Lib.InFlight.mem_resume_of_ne he heq
  | effectFails e₁ _ _ _ effects _ =>
    by_cases heq : e = e₁
    · exact Or.inr (Or.inr (Or.inl (by rw [heq])))
    · left
      rw [effects]
      exact (List.mem_erase_of_ne heq).mpr he
  | crash => exact Or.inr (Or.inr (Or.inr rfl))
  | storeTxhash _ _ _ _ _ _ _ effects _ => exact Or.inl (effects ▸ he)

/-- The step loses no effect that is due, and an effect that takes it meets the condition. -/
def Spares (due : Effect → Bool) (ok : Effect → Prop) (s : Sys) : Label → Prop
  | .effect e => ok e
  | .effectFails e => due e = false
  | .crash => ∀ e ∈ s.effects, due e = false
  | _ => True

instance {due : Effect → Bool} {ok : Effect → Prop} [DecidablePred ok] (s : Sys) :
    (l : Label) → Decidable (Spares due ok s l)
  | .effect e => inferInstanceAs (Decidable (ok e))
  | .effectFails e => inferInstanceAs (Decidable (due e = false))
  | .crash => inferInstanceAs (Decidable (∀ e ∈ s.effects, due e = false))
  | .deliver _ => isTrue trivial
  | .run _ => isTrue trivial
  | .runFails _ => isTrue trivial
  | .jobStarts => isTrue trivial
  | .blockNumber _ => isTrue trivial
  | .redisGet => isTrue trivial
  | .pastEvents _ => isTrue trivial
  | .nextEvent => isTrue trivial
  | .redisSet => isTrue trivial
  | .jobFails => isTrue trivial
  | .storeTxhash _ _ => isTrue trivial

/-- An effect that is due stays, or takes its step under the condition. -/
theorem due_step {due : Effect → Bool} {ok : Effect → Prop} (h : step cfg env s l = some s')
    (hspares : Spares due ok s l) {e : Effect} (he : e ∈ s.effects) (hdue : due e = true) :
    e ∈ s'.effects ∨ (ok e ∧ s'.db = (e.resume env s.db).db ∧
      (∀ pc ∈ (e.resume env s.db).next, { e with pc } ∈ s'.effects) ∧
      ∀ n ∈ (e.resume env s.db).notes, n ∈ s'.history) := by
  rcases effect_to h he with hstays | ⟨rfl, hresumed⟩ | rfl | rfl
  · exact Or.inl hstays
  · exact Or.inr ⟨hspares, hresumed⟩
  · have hfree : due e = false := hspares
    rw [hdue] at hfree
    cases hfree
  · have hfree : due e = false := hspares e he
    rw [hdue] at hfree
    cases hfree

/-- Who has made a note: it was there, or the scan, a call or an effect has made it. -/
theorem note_from (h : step cfg env s l = some s') {n : Note} (hn : n ∈ s'.history) :
    n ∈ s.history ∨ (∃ c evs, n = .lastCheckedBlock c evs) ∨ (∃ data, n = .handled data) ∨
      (∃ data tx, n = .processReceivedEthOrToken data tx) ∨
      ∃ e ∈ s.effects, l = .effect e ∧ n ∈ (e.resume env s.db).notes := by
  cases step_change h with
  | arrives _ _ _ _ _ _ history => exact Or.inl (history ▸ hn)
  | scans notes scan _ _ _ history =>
    rcases List.mem_append.mp (history ▸ hn) with hn | hn
    · exact Or.inr (Or.inl (scan n hn))
    · exact Or.inl hn
  | waits _ _ _ _ _ _ _ history => exact Or.inl (history ▸ hn)
  | returns r _ _ notes scan _ _ _ history =>
    rcases List.mem_append.mp (history ▸ hn) with hn | hn
    · exact Or.inr (Or.inr (Or.inl ⟨r.data, scan n hn⟩))
    · exact Or.inl hn
  | starts r _ save _ notes scan _ _ _ history =>
    rcases List.mem_append.mp (history ▸ hn) with hn | hn
    · exact Or.inr (Or.inr (Or.inl ⟨r.data, scan n hn⟩))
    · rcases List.mem_cons.mp hn with hn | hn
      · exact Or.inr (Or.inr (Or.inr (Or.inl ⟨_, _, hn⟩)))
      · exact Or.inl hn
  | runFails _ _ _ _ _ history => exact Or.inl (history ▸ hn)
  | effect e mem _ _ _ history =>
    rcases List.mem_append.mp (history ▸ hn) with hn | hn
    · exact Or.inr (Or.inr (Or.inr (Or.inr ⟨e, mem, rfl, hn⟩)))
    · exact Or.inl hn
  | effectFails _ _ _ _ _ history => exact Or.inl (history ▸ hn)
  | crash _ _ _ history => exact Or.inl (history ▸ hn)
  | storeTxhash _ _ _ _ _ _ _ _ history => exact Or.inl (history ▸ hn)

end InFlight

/-- What the step of an effect does, by the call it awaited. -/
inductive Resumes (env : Env) (db : Db) (e : Effect) : Outcome → Prop where
  | stops : Resumes env db e ⟨db, [], []⟩
  | routes (manager : Row SManagerWallet) (pc : EffectPc) (at_ : e.pc = .manager)
      (found : db.sManagerWallet.findById 1 = some manager)
      (routed : route manager.val.eth_address e.tx.val = some pc) :
      Resumes env db e ⟨db, [pc], []⟩
  | charges (user : Row UOlsWallet) (at_ : e.pc = .charge)
      (confirmed : e.tx.val.status = .confirmed)
      (found : db.uOlsWallet.findOne (fun w => w.eth_address = some e.tx.val.to_) = some user) :
      Resumes env db e ⟨db, [.addUserCoin user e.tx.val.coins,
        .saveMyzr (myzrData e.tx.val user e.tx.val.coins).create],
        [.addUserCoin e.data user.id e.tx.val.coins]⟩
  | credits (user : Row UOlsWallet) (amount : Amount) (stored : UOlsWallet)
      (at_ : e.pc = .addUserCoin user amount)
      (kept : (addUserCoin user.val e.tx.val.type amount).stored env = some stored) :
      Resumes env db e ⟨{ db with uOlsWallet := db.uOlsWallet.save ⟨user.id, stored⟩ }, [],
        [.credited e.data user.id amount]⟩
  | deposits (newTx : MyzrEntity) (row : UOlsMyzr) (at_ : e.pc = .saveMyzr newTx)
      (kept : newTx.row env = some row) :
      Resumes env db e ⟨{ db with uOlsMyzr := db.uOlsMyzr.insert row }, [], []⟩
  | transfers (user : Row UOlsWallet) (at_ : e.pc = .transfer)
      (confirmed : e.tx.val.status = .confirmed)
      (found : db.uOlsWallet.findOne (fun w => w.eth_address = some e.tx.val.from_) = some user) :
      Resumes env db e ⟨db, [.addUserDrawCoin user e.tx.val.coins],
        [.addUserDrawCoin e.data user.id e.tx.val.coins]⟩
  | draws (user : Row UOlsWallet) (amount : Amount) (stored : UOlsWallet)
      (at_ : e.pc = .addUserDrawCoin user amount)
      (kept : (addUserDrawCoin user.val e.tx.val.type amount).stored env = some stored) :
      Resumes env db e ⟨{ db with uOlsWallet := db.uOlsWallet.save ⟨user.id, stored⟩ }, [], []⟩
  | withdraws (record : Row UOlsMyzc) (at_ : e.pc = .withdraw)
      (confirmed : e.tx.val.status = .confirmed)
      (found : db.uOlsMyzc.findOne (fun r => r.txhash = e.tx.val.transactionHash) = some record) :
      Resumes env db e ⟨db, [.withdrawUser ⟨record.id, { record.val with status := 2 }⟩], []⟩
  | refuses (record : Row UOlsMyzc) (at_ : e.pc = .withdraw)
      (confirmed : e.tx.val.status ≠ .confirmed)
      (found : db.uOlsMyzc.findOne (fun r => r.txhash = e.tx.val.transactionHash) = some record) :
      Resumes env db e ⟨db, [.saveWithdraw ⟨record.id, { record.val with status := 3 }⟩], []⟩
  | looksUp (record : Row UOlsMyzc) (at_ : e.pc = .withdrawUser record) :
      Resumes env db e ⟨db, [.saveWithdraw record], []⟩
  | settles (record : Row UOlsMyzc) (at_ : e.pc = .saveWithdraw record) :
      Resumes env db e ⟨{ db with uOlsMyzc := db.uOlsMyzc.save record }, [],
        [.settled e.data record.id record.val.status]⟩

theorem route_cases {managerAddress : String} {tx : Transaction} {pc : EffectPc}
    (h : route managerAddress tx = some pc) : pc = .charge ∨ pc = .transfer ∨ pc = .withdraw := by
  unfold route at h
  split at h
  · exact Or.inl (Option.some.inj h).symm
  · split at h
    · exact Or.inr (Or.inl (Option.some.inj h).symm)
    · split at h
      · exact Or.inr (Or.inr (Option.some.inj h).symm)
      · cases h

theorem stored_eq_some {env : Env} {w s : UOlsWallet} : w.stored env = some s ↔
    ∃ a c d, env.double w.amount = some a ∧ env.double w.charge_amount = some c ∧
      env.double w.draw_amount = some d ∧
      s = { w with amount := a, charge_amount := c, draw_amount := d } := by
  simp only [UOlsWallet.stored, Option.bind_eq_bind, Option.bind_eq_some_iff, Option.pure_def,
    Option.some.injEq]
  constructor
  · intro hgiven
    obtain ⟨a, ha, c, hc, d, hd, rfl⟩ := hgiven
    exact ⟨a, c, d, ha, hc, hd, rfl⟩
  · intro hgiven
    obtain ⟨a, c, d, ha, hc, hd, rfl⟩ := hgiven
    exact ⟨a, ha, c, hc, d, hd, rfl⟩

theorem saveWallet_eq_some {env : Env} {db db' : Db} {user : Row UOlsWallet} :
    saveWallet env db user = some db' ↔ ∃ stored, user.val.stored env = some stored ∧
      db' = { db with uOlsWallet := db.uOlsWallet.save ⟨user.id, stored⟩ } := by
  simp only [saveWallet, Option.bind_eq_bind, Option.bind_eq_some_iff, Option.pure_def,
    Option.some.injEq]
  exact exists_congr fun stored => and_congr_right fun _ => eq_comm

theorem saveWallet_refused {env : Env} {db : Db} {user : Row UOlsWallet}
    (h : user.val.stored env = none) : saveWallet env db user = none := by
  rw [saveWallet, h]
  rfl

/-- Saving a wallet touches no other table. -/
theorem saveWallet_tables (env : Env) (db : Db) (user : Row UOlsWallet) :
    let saved := (saveWallet env db user).getD db
    saved.transaction = db.transaction ∧ saved.uOlsMyzr = db.uOlsMyzr ∧
      saved.uOlsMyzc = db.uOlsMyzc ∧ saved.sManagerWallet = db.sManagerWallet := by
  cases hsave : saveWallet env db user with
  | none => exact ⟨rfl, rfl, rfl, rfl⟩
  | some db' =>
    obtain ⟨stored, _, rfl⟩ := saveWallet_eq_some.mp hsave
    exact ⟨rfl, rfl, rfl, rfl⟩

theorem resumes (env : Env) (db : Db) (e : Effect) : Resumes env db e (e.resume env db) := by
  unfold Effect.resume
  dsimp only
  split
  · next hpc =>
    split
    · next manager hfound =>
      cases hroute : route manager.val.eth_address e.tx.val with
      | none => exact .stops
      | some pc => exact .routes manager pc hpc hfound hroute
    · exact .stops
  · next hpc =>
    split
    · next hstatus =>
      split
      · next user hfound => exact .charges user hpc hstatus hfound
      · exact .stops
    · exact .stops
  · next user amount hpc =>
    split
    · next db' hsave =>
      obtain ⟨stored, hstored, rfl⟩ := saveWallet_eq_some.mp hsave
      exact .credits user amount stored hpc hstored
    · exact .stops
  · next newTx hpc =>
    unfold saveMyzr
    split
    · next row hrow => exact .deposits newTx row hpc hrow
    · exact .stops
  · next hpc =>
    split
    · next hstatus =>
      split
      · next user hfound => exact .transfers user hpc hstatus hfound
      · exact .stops
    · exact .stops
  · next user amount hpc =>
    split
    · next db' hsave =>
      obtain ⟨stored, hstored, rfl⟩ := saveWallet_eq_some.mp hsave
      exact .draws user amount stored hpc hstored
    · exact .stops
  · next hpc =>
    split
    · next record hfound =>
      split
      · next hstatus => exact .withdraws record hpc hstatus hfound
      · next hstatus => exact .refuses record hpc hstatus hfound
    · exact .stops
  · next record hpc => exact .looksUp record hpc
  · next record hpc => exact .settles record hpc

/-- The step of an effect leaves the transactions and the manager alone. -/
theorem Resumes.frame {env : Env} {db : Db} {e : Effect} {o : Outcome} (h : Resumes env db e o) :
    o.db.transaction = db.transaction ∧ o.db.sManagerWallet = db.sManagerWallet := by
  cases h <;> exact ⟨rfl, rfl⟩

end OlsDapp.Handler
