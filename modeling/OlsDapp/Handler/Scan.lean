import OlsDapp.Handler.System

/-!
# The scan

`ScanStep` says what one step of the system does to the scan: to its place in
`checkAndRestoreTransactions`, to the cursor, to the calls it awaits and to the logs it has
handed over. It follows that a scan hands over every log it fetched before it stores its
cursor, whatever else runs beside it.
-/

namespace OlsDapp.Handler

open Lib.InFlight (resume)

/-- The notes the scan leaves. -/
def Note.ofScan : Note → Bool
  | .handled _ => true
  | .lastCheckedBlock _ _ => true
  | _ => false

/-- The call is awaited by the scan and was before the step. -/
def AwaitedFrom (runs runs' : List Run) : Prop :=
  (∀ r ∈ runs', r.awaited = true → ∃ r₀ ∈ runs, r₀.awaited = true ∧ r₀.data = r.data) ∧
    runs'.countP (·.awaited) ≤ runs.countP (·.awaited)

inductive ScanStep (cfg : Config) (s : Sys) : Label → Sys → Prop where
  /-- The scan stays where it is. -/
  | beside {l s'} (job : s'.job = s.job) (redis : s'.redis = s.redis)
      (runs : AwaitedFrom s.runs s'.runs) (notes : List Note)
      (quiet : ∀ n ∈ notes, n.ofScan = false) (history : s'.history = notes ++ s.history) :
      ScanStep cfg s l s'
  /-- The call it awaits returns. -/
  | returns {s'} (r : Run) (mem : r ∈ s.runs) (awaited : r.awaited = true) (c : Nat)
      (evs : List TransferEvent) (e : TransferEvent) (rest : List TransferEvent)
      (at_ : s.job = .processTokenTransfer c evs e rest) (job : s'.job = .loop c evs rest)
      (redis : s'.redis = s.redis) (runs : s'.runs = s.runs.erase r) (notes : List Note)
      (quiet : ∀ n ∈ notes, n.ofScan = false)
      (history : s'.history = .handled r.data :: (notes ++ s.history)) :
      ScanStep cfg s (.run r) s'
  | throws {s'} (r : Run) (mem : r ∈ s.runs) (awaited : r.awaited = true)
      (job : s'.job = .idle) (redis : s'.redis = s.redis) (runs : s'.runs = s.runs.erase r)
      (history : s'.history = s.history) : ScanStep cfg s (.runFails r) s'
  | crashes {s'} (job : s'.job = .idle) (redis : s'.redis = s.redis) (runs : s'.runs = [])
      (history : s'.history = s.history) : ScanStep cfg s .crash s'
  | starts (at_ : s.job = .idle) : ScanStep cfg s .jobStarts { s with job := .getBlockNumber }
  | tip (c : Nat) (at_ : s.job = .getBlockNumber) :
      ScanStep cfg s (.blockNumber c) { s with job := .redisGet c }
  | cursor (c : Nat) (at_ : s.job = .redisGet c) :
      ScanStep cfg s .redisGet { s with job := .getPastEvents c (cfg.fromBlock s.redis) }
  | fetches (c : Nat) (fromBlock : Int) (evs : List TransferEvent)
      (at_ : s.job = .getPastEvents c fromBlock) :
      ScanStep cfg s (.pastEvents evs) { s with job := .loop c evs evs }
  | calls (c : Nat) (evs : List TransferEvent) (e : TransferEvent) (rest : List TransferEvent)
      (at_ : s.job = .loop c evs (e :: rest)) :
      ScanStep cfg s .nextEvent { s with
        runs := ⟨e, true, .findOne⟩ :: s.runs
        job := .processTokenTransfer c evs e rest }
  | finishes (c : Nat) (evs : List TransferEvent) (at_ : s.job = .loop c evs []) :
      ScanStep cfg s .nextEvent { s with job := .redisSet c evs }
  | stores (c : Nat) (evs : List TransferEvent) (at_ : s.job = .redisSet c evs) :
      ScanStep cfg s .redisSet { s with
        redis := some c
        job := .idle
        history := .lastCheckedBlock c evs :: s.history }
  | fails (at_ : s.job = .getBlockNumber ∨ (∃ c, s.job = .redisGet c) ∨
        (∃ c b, s.job = .getPastEvents c b) ∨ ∃ c evs, s.job = .redisSet c evs) :
      ScanStep cfg s .jobFails { s with job := .idle }

section Inversion

variable {cfg : Config} {env : Env} {s s' : Sys}

theorem awaitedFrom_refl (runs : List Run) : AwaitedFrom runs runs :=
  ⟨fun r hr ha => ⟨r, hr, ha, rfl⟩, Nat.le_refl _⟩

theorem awaitedFrom_erase (runs : List Run) (r : Run) : AwaitedFrom runs (runs.erase r) :=
  ⟨fun r' hr' ha => ⟨r', List.mem_of_mem_erase hr', ha, rfl⟩, Lib.InFlight.countP_erase_le _⟩

theorem awaitedFrom_waits {runs : List Run} {r : Run} (hr : r ∈ runs) (pc : RunPc) :
    AwaitedFrom runs (resume runs r [{ r with pc }]) := by
  refine ⟨fun r' hr' ha => ?_,
    (Lib.InFlight.countP_resume_eq (b := { r with pc }) (·.awaited) hr rfl).le⟩
  rcases Lib.InFlight.mem_resume_imp hr' with hr' | hr'
  · obtain rfl := List.mem_singleton.mp hr'
    exact ⟨r, hr, ha, rfl⟩
  · exact ⟨r', hr', ha, rfl⟩

/-- The return of a call, with what it has saved and started before it. -/
theorem returned_scan {t : Sys} {r : Run} (hr : r ∈ s.runs) (hjob : t.job = s.job)
    (hredis : t.redis = s.redis) (hruns : t.runs = s.runs) (notes : List Note)
    (hquiet : ∀ n ∈ notes, n.ofScan = false) (hhistory : t.history = notes ++ s.history) :
    ScanStep cfg s (.run r) (t.returned r) := by
  unfold Sys.returned
  split
  · next c evs e rest hpc =>
    split
    · next ha =>
      refine .returns r hr ha c evs e rest (hjob.symm.trans hpc) rfl hredis ?_ notes hquiet ?_
      · rw [← hruns]
      · rw [← hhistory]
    · refine .beside hjob hredis ?_ notes hquiet hhistory
      rw [← hruns]
      exact awaitedFrom_erase _ r
  · refine .beside hjob hredis ?_ notes hquiet hhistory
    rw [← hruns]
    exact awaitedFrom_erase _ r

theorem resume_quiet (e : Effect) (db : Db) :
    ∀ n ∈ (e.resume env db).notes, n.ofScan = false := by
  unfold Effect.resume
  dsimp only
  split
  · split <;> exact List.forall_mem_nil _
  · split
    · split
      · exact List.forall_mem_singleton.mpr rfl
      · exact List.forall_mem_nil _
    · exact List.forall_mem_nil _
  · split
    · exact List.forall_mem_singleton.mpr rfl
    · exact List.forall_mem_nil _
  · exact List.forall_mem_nil _
  · split
    · split
      · exact List.forall_mem_singleton.mpr rfl
      · exact List.forall_mem_nil _
    · exact List.forall_mem_nil _
  · split <;> exact List.forall_mem_nil _
  · split
    · split <;> exact List.forall_mem_nil _
    · exact List.forall_mem_nil _
  · exact List.forall_mem_nil _
  · exact List.forall_mem_singleton.mpr rfl

theorem step_scan {l : Label} (h : step cfg env s l = some s') : ScanStep cfg s l s' := by
  cases l with
  | deliver data =>
    obtain rfl := Option.some.inj h
    refine .beside rfl rfl ⟨fun r hr ha => ?_, ?_⟩ [] (List.forall_mem_nil _) rfl
    · rcases List.mem_cons.mp hr with rfl | hr
      · cases ha
      · exact ⟨r, hr, ha, rfl⟩
    · rw [List.countP_cons]
      exact Nat.le_refl _
  | run r =>
    simp only [step] at h
    split at h
    · next hr =>
      split at h
      · next pc _ =>
        obtain rfl := Option.some.inj h
        exact .beside rfl rfl (awaitedFrom_waits hr pc) [] (List.forall_mem_nil _) rfl
      · obtain rfl := Option.some.inj h
        exact returned_scan hr rfl rfl rfl [] (List.forall_mem_nil _) rfl
      · next db tx _ =>
        obtain rfl := Option.some.inj h
        exact returned_scan hr rfl rfl rfl [.processReceivedEthOrToken r.data tx]
          (List.forall_mem_singleton.mpr rfl) rfl
    · cases h
  | runFails r =>
    simp only [step, Option.ite_none_right_eq_some, Option.some.injEq] at h
    obtain ⟨hr, rfl⟩ := h
    by_cases ha : r.awaited = true
    · exact .throws r hr ha (if_pos ha) rfl rfl rfl
    · exact .beside (if_neg ha) rfl (awaitedFrom_erase _ r) [] (List.forall_mem_nil _) rfl
  | effect e =>
    simp only [step, Option.ite_none_right_eq_some, Option.some.injEq] at h
    obtain ⟨_, rfl⟩ := h
    exact .beside rfl rfl (awaitedFrom_refl _) _ (resume_quiet e s.db) rfl
  | effectFails e =>
    simp only [step, Option.ite_none_right_eq_some, Option.some.injEq] at h
    obtain ⟨_, rfl⟩ := h
    exact .beside rfl rfl (awaitedFrom_refl _) [] (List.forall_mem_nil _) rfl
  | crash =>
    obtain rfl := Option.some.inj h
    exact .crashes rfl rfl rfl rfl
  | storeTxhash record txhash =>
    simp only [step] at h
    split at h
    · simp only [Option.ite_none_right_eq_some, Option.some.injEq] at h
      obtain ⟨_, rfl⟩ := h
      exact .beside rfl rfl (awaitedFrom_refl _) [] (List.forall_mem_nil _) rfl
    · cases h
  | jobStarts =>
    simp only [step, Option.ite_none_right_eq_some, Option.some.injEq] at h
    obtain ⟨hjob, rfl⟩ := h
    exact .starts hjob
  | blockNumber c =>
    simp only [step, Option.ite_none_right_eq_some, Option.some.injEq] at h
    obtain ⟨hjob, rfl⟩ := h
    exact .tip c hjob
  | redisGet =>
    simp only [step] at h
    split at h
    · next c hjob =>
      obtain rfl := Option.some.inj h
      exact .cursor c hjob
    · cases h
  | pastEvents evs =>
    simp only [step] at h
    split at h
    · next c b hjob =>
      obtain rfl := Option.some.inj h
      exact .fetches c b evs hjob
    · cases h
  | nextEvent =>
    simp only [step] at h
    split at h
    · next c evs e rest hjob =>
      obtain rfl := Option.some.inj h
      exact .calls c evs e rest hjob
    · next c evs hjob =>
      obtain rfl := Option.some.inj h
      exact .finishes c evs hjob
    · cases h
  | redisSet =>
    simp only [step] at h
    split at h
    · next c evs hjob =>
      obtain rfl := Option.some.inj h
      exact .stores c evs hjob
    · cases h
  | jobFails =>
    simp only [step] at h
    split at h
    · next hjob =>
      obtain rfl := Option.some.inj h
      exact .fails (Or.inl hjob)
    · next c hjob =>
      obtain rfl := Option.some.inj h
      exact .fails (Or.inr (Or.inl ⟨c, hjob⟩))
    · next c b hjob =>
      obtain rfl := Option.some.inj h
      exact .fails (Or.inr (Or.inr (Or.inl ⟨c, b, hjob⟩)))
    · next c evs hjob =>
      obtain rfl := Option.some.inj h
      exact .fails (Or.inr (Or.inr (Or.inr ⟨c, evs, hjob⟩)))
    · cases h

end Inversion

section HandsOver

variable {cfg : Config} {env : Env} {s s' : Sys}

/-- What the scan still has to hand over of the events it fetched. -/
def Job.remaining : Job → List TransferEvent
  | .loop _ _ rest => rest
  | .processTokenTransfer _ _ e rest => e :: rest
  | _ => []

def Job.fetched : Job → List TransferEvent
  | .loop _ evs _ => evs
  | .processTokenTransfer _ evs _ _ => evs
  | .redisSet _ evs => evs
  | _ => []

structure HandsOver (s : Sys) : Prop where
  /-- The one call that is awaited is the one the scan waits for. -/
  awaited : ∀ r ∈ s.runs, r.awaited = true →
    ∃ c evs rest, s.job = .processTokenTransfer c evs r.data rest
  single : s.runs.countP (·.awaited) ≤ 1
  fetched : ∀ e ∈ s.job.fetched, .handled e ∈ s.history ∨ e ∈ s.job.remaining
  stored : ∀ c evs, .lastCheckedBlock c evs ∈ s.history → ∀ e ∈ evs, .handled e ∈ s.history

theorem handsOver_start (db : Db) (redis : Option Nat) : HandsOver (Sys.start db redis) :=
  ⟨fun _ h => absurd h List.not_mem_nil, Nat.zero_le _, fun _ h => absurd h List.not_mem_nil,
    fun _ _ h => absurd h List.not_mem_nil⟩

/-- Without an awaited call the scan waits for something else, or for nothing. -/
theorem no_awaited_of_job (h : HandsOver s)
    (hjob : ∀ c evs e rest, s.job ≠ .processTokenTransfer c evs e rest) :
    ∀ r ∈ s.runs, r.awaited = false := by
  intro r hr
  rw [← Bool.not_eq_true]
  intro ha
  obtain ⟨c, evs, rest, hc⟩ := h.awaited r hr ha
  exact hjob c evs r.data rest hc

theorem no_awaited_erase (h : HandsOver s) {r : Run} (hr : r ∈ s.runs) (ha : r.awaited = true) :
    ∀ r' ∈ s.runs.erase r, r'.awaited = false := by
  have hcount := Lib.InFlight.countP_erase_add (·.awaited) hr
  rw [ha, if_pos rfl] at hcount
  have hone := h.single
  have hzero : (s.runs.erase r).countP (·.awaited) = 0 := by omega
  intro r' hr'
  rw [← Bool.not_eq_true]
  exact List.countP_eq_zero.mp hzero r' hr'

theorem mem_of_notes {notes history : List Note} {n : Note}
    (hquiet : ∀ n ∈ notes, n.ofScan = false) (hn : n.ofScan = true) (h : n ∈ notes ++ history) :
    n ∈ history := by
  rcases List.mem_append.mp h with h | h
  · rw [hquiet n h] at hn
    cases hn
  · exact h

/-- A step of the scan that ends its loop or never was in it. -/
theorem handsOver_idle (h : HandsOver s) (hruns : ∀ r ∈ s'.runs, r.awaited = false)
    (hfetched : s'.job.fetched = []) (hhistory : s'.history = s.history) : HandsOver s' := by
  refine ⟨fun r hr ha => ?_, ?_, fun e he => ?_, ?_⟩
  · rw [hruns r hr] at ha
    cases ha
  · rw [Lib.InFlight.countP_eq_zero hruns]
    exact Nat.zero_le _
  · rw [hfetched] at he
    exact absurd he List.not_mem_nil
  · rw [hhistory]
    exact h.stored

theorem handsOver_step {l : Label} (h : HandsOver s) (hstep : step cfg env s l = some s') :
    HandsOver s' := by
  cases step_scan hstep with
  | beside job redis runs notes quiet history =>
    have hmem : ∀ n, n ∈ s.history → n ∈ s'.history := fun n hn => by
      rw [history]
      exact List.mem_append_right _ hn
    refine ⟨fun r hr ha => ?_, runs.2.trans h.single, fun e he => ?_, fun c evs hn e he => ?_⟩
    · obtain ⟨r₀, hr₀, ha₀, hdata⟩ := runs.1 r hr ha
      rw [job, ← hdata]
      exact h.awaited r₀ hr₀ ha₀
    · rw [job] at he ⊢
      exact (h.fetched e he).imp_left (hmem _)
    · rw [history] at hn
      exact hmem _ (h.stored c evs (mem_of_notes quiet rfl hn) e he)
  | returns r mem awaited c evs e rest at_ job redis runs notes quiet history =>
    obtain ⟨c', evs', rest', hjob⟩ := h.awaited r mem awaited
    rw [at_] at hjob
    obtain ⟨rfl, rfl, rfl, rfl⟩ := Job.processTokenTransfer.inj hjob
    have hmem : ∀ n, n ∈ s.history → n ∈ s'.history := fun n hn => by
      rw [history]
      exact List.mem_cons_of_mem _ (List.mem_append_right _ hn)
    have hfree := no_awaited_erase h mem awaited
    refine ⟨fun r' hr' ha => ?_, ?_, fun e' he' => ?_, fun c' evs' hn e' he' => ?_⟩
    · rw [hfree r' (runs ▸ hr')] at ha
      cases ha
    · rw [runs]
      exact (Lib.InFlight.countP_erase_le _).trans h.single
    · have hold := h.fetched e'
      rw [at_] at hold
      rw [job] at he' ⊢
      rcases hold he' with hdone | hrest
      · exact Or.inl (hmem _ hdone)
      · rcases List.mem_cons.mp hrest with rfl | hrest
        · left
          rw [history]
          exact List.mem_cons_self
        · exact Or.inr hrest
    · rw [history] at hn
      rcases List.mem_cons.mp hn with hn | hn
      · cases hn
      · exact hmem _ (h.stored c' evs' (mem_of_notes quiet rfl hn) e' he')
  | throws r mem awaited job redis runs history =>
    refine handsOver_idle h (fun r' hr' => ?_) (by rw [job]; rfl) history
    exact no_awaited_erase h mem awaited r' (runs ▸ hr')
  | crashes job redis runs history =>
    refine handsOver_idle h (fun r hr => ?_) (by rw [job]; rfl) history
    rw [runs] at hr
    exact absurd hr List.not_mem_nil
  | starts at_ =>
    have hfree := no_awaited_of_job h (by rw [at_]; exact nofun)
    exact handsOver_idle h hfree rfl rfl
  | tip c at_ =>
    have hfree := no_awaited_of_job h (by rw [at_]; exact nofun)
    exact handsOver_idle h hfree rfl rfl
  | cursor c at_ =>
    have hfree := no_awaited_of_job h (by rw [at_]; exact nofun)
    exact handsOver_idle h hfree rfl rfl
  | fetches c b evs at_ =>
    have hfree := no_awaited_of_job h (by rw [at_]; exact nofun)
    refine ⟨fun r hr ha => ?_, h.single, fun e he => Or.inr he, h.stored⟩
    rw [hfree r hr] at ha
    cases ha
  | calls c evs e rest at_ =>
    have hfree := no_awaited_of_job h (by rw [at_]; exact nofun)
    refine ⟨fun r hr ha => ?_, ?_, fun e' he' => ?_, h.stored⟩
    · rcases List.mem_cons.mp hr with rfl | hr
      · exact ⟨c, evs, rest, rfl⟩
      · rw [hfree r hr] at ha
        cases ha
    · show (_ :: s.runs).countP _ ≤ 1
      rw [List.countP_cons, Lib.InFlight.countP_eq_zero hfree]
      exact Nat.le_refl _
    · have hold := h.fetched e'
      rw [at_] at hold
      exact hold he'
  | finishes c evs at_ =>
    have hfree := no_awaited_of_job h (by rw [at_]; exact nofun)
    refine ⟨fun r hr ha => ?_, h.single, fun e he => ?_, h.stored⟩
    · rw [hfree r hr] at ha
      cases ha
    · have hold := h.fetched e
      rw [at_] at hold
      exact hold he
  | stores c evs at_ =>
    have hfree := no_awaited_of_job h (by rw [at_]; exact nofun)
    refine ⟨fun r hr ha => ?_, h.single, fun e he => absurd he List.not_mem_nil,
      fun c' evs' hn e he => ?_⟩
    · rw [hfree r hr] at ha
      cases ha
    · apply List.mem_cons_of_mem _
      rcases List.mem_cons.mp hn with hn | hn
      · obtain ⟨rfl, rfl⟩ := Note.lastCheckedBlock.inj hn
        have hold := h.fetched e
        rw [at_] at hold
        rcases hold he with hdone | hrest
        · exact hdone
        · exact absurd hrest List.not_mem_nil
      · exact h.stored c' evs' hn e he
  | fails at_ =>
    have hfree := no_awaited_of_job h fun c evs e rest hjob => by
      rw [hjob] at at_
      rcases at_ with h1 | ⟨_, h1⟩ | ⟨_, _, h1⟩ | ⟨_, _, h1⟩ <;> cases h1
    exact handsOver_idle h hfree rfl rfl

end HandsOver

end OlsDapp.Handler
