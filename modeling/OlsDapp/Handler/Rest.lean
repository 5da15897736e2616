import OlsDapp.Handler.Change
import OlsDapp.Handler.Scan
import OlsDapp.Lib.Progress

/-!
# The handler comes to rest

A call of `processTokenTransfer` has four awaits and its effect four at most, and a scan makes one
call for each event it has fetched: what is in flight has only so many steps to take. One of them
can always be taken, since the call a scan waits for is in flight.
-/

namespace OlsDapp.Handler

open Lib.InFlight (resume sum_erase_add sum_resume)
open Lib.Machine (run Winds Goes LeadsTo)

section Definitions

/-- The most steps an effect has to take. -/
def EffectPc.weight : EffectPc → Nat
  | .manager => 4
  | .charge => 3
  | .withdraw => 3
  | .transfer => 2
  | .withdrawUser _ => 2
  | .addUserCoin _ _ => 1
  | .saveMyzr _ => 1
  | .addUserDrawCoin _ _ => 1
  | .saveWithdraw _ => 1

/-- The most steps a call has to take with the effect it starts. -/
def RunPc.weight : RunPc → Nat
  | .findOne => 8
  | .getTransactionReceipt _ => 7
  | .getBlock _ _ => 6
  | .save _ => 5

/-- The most steps a scan has to take with the calls it makes, on a node that gives it `n` events
at most. -/
def Job.weight (n : Nat) : Job → Nat
  | .idle => 0
  | .redisSet _ _ => 1
  | .loop _ _ rest => 9 * rest.length + 2
  | .processTokenTransfer _ _ _ rest => 9 * rest.length + 2
  | .getPastEvents _ _ => 9 * n + 3
  | .redisGet _ => 9 * n + 4
  | .getBlockNumber => 9 * n + 5

def Sys.weight (n : Nat) (s : Sys) : Nat :=
  (s.runs.map fun r => r.pc.weight).sum + (s.effects.map fun e => e.pc.weight).sum + s.job.weight n

/-- The steps of the process, with those that fail: no delivery, no new scan, no crash and no step
of the other writer. -/
def Label.own (n : Nat) : Label → Prop
  | .deliver _ | .jobStarts | .crash | .storeTxhash _ _ => False
  | .pastEvents transferEvents => transferEvents.length ≤ n
  | _ => True

def Label.fails : Label → Bool
  | .runFails _ | .effectFails _ | .jobFails => true
  | _ => false

/-- A step that does not fail, on a node whose tip is `c` and whose events are `evs`. -/
def Label.served (c : Nat) (evs : List TransferEvent) : Label → Prop
  | .run _ | .effect _ | .redisGet | .nextEvent | .redisSet => True
  | .blockNumber currentBlock => currentBlock = c
  | .pastEvents transferEvents => transferEvents = evs
  | _ => False

/-- Nothing is in flight. -/
structure Sys.Quiet (s : Sys) : Prop where
  runs : s.runs = []
  effects : s.effects = []
  job : s.job = .idle

/-- The call a scan waits for is in flight. -/
def Awaits (s : Sys) : Prop :=
  ∀ c evs e rest, s.job = .processTokenTransfer c evs e rest → ∃ r ∈ s.runs, r.awaited = true

end Definitions

section Awaits

variable {cfg : Config} {env : Env} {s s' : Sys} {l : Label} {r : Run}

theorem awaits_of_job (h : ∀ c evs e rest, s.job ≠ .processTokenTransfer c evs e rest) :
    Awaits s := fun c evs e rest hjob => absurd hjob (h c evs e rest)

theorem awaits_start (db : Db) (redis : Option Nat) : Awaits (Sys.start db redis) :=
  awaits_of_job fun c evs e rest hc => by cases hc

/-- A call the scan does not wait for leaves. -/
theorem awaits_erase (h : Awaits s) (hjob : s'.job = s.job) (hruns : s'.runs = s.runs.erase r)
    (hr : r.awaited = true → ∀ c evs e rest, s.job ≠ .processTokenTransfer c evs e rest) :
    Awaits s' := by
  intro c evs e rest hat
  rw [hjob] at hat
  obtain ⟨r', hr', ha⟩ := h c evs e rest hat
  have hne : r' ≠ r := by
    rintro rfl
    exact hr ha c evs e rest hat
  refine ⟨r', ?_, ha⟩
  rw [hruns]
  exact (List.mem_erase_of_ne hne).mpr hr'

theorem awaits_returned (h : Awaits s) : Awaits (s.returned r) := by
  unfold Sys.returned
  split
  · split
    · exact awaits_of_job fun c evs e rest hc => by cases hc
    · next ha => exact awaits_erase h rfl rfl fun hc => absurd hc ha
  · next hjob => exact awaits_erase h rfl rfl fun _ c evs e rest => hjob c evs e rest

theorem awaits_step (h : Awaits s) (hstep : step cfg env s l = some s') : Awaits s' := by
  have hkeep {t : Sys} (hjob : t.job = s.job) (hruns : ∀ r ∈ s.runs, r.awaited = true →
      ∃ r' ∈ t.runs, r'.awaited = true) : Awaits t := by
    intro c evs e rest hat
    obtain ⟨r, hr, ha⟩ := h c evs e rest (hjob ▸ hat)
    exact hruns r hr ha
  cases l with
  | deliver data =>
    obtain rfl := Option.some.inj hstep
    exact hkeep rfl fun r hr ha => ⟨r, List.mem_cons_of_mem _ hr, ha⟩
  | run r =>
    simp only [step] at hstep
    split at hstep
    · next hr =>
      split at hstep
      · next pc _ =>
        obtain rfl := Option.some.inj hstep
        refine hkeep rfl fun r' hr' ha => ?_
        by_cases heq : r' = r
        · subst heq
          exact ⟨{ r' with pc }, Lib.InFlight.mem_resume_of_mem_next List.mem_cons_self, ha⟩
        · exact ⟨r', Lib.InFlight.mem_resume_of_ne hr' heq, ha⟩
      · obtain rfl := Option.some.inj hstep
        exact awaits_returned h
      · obtain rfl := Option.some.inj hstep
        exact awaits_returned (hkeep rfl fun r' hr' ha => ⟨r', hr', ha⟩)
    · cases hstep
  | runFails r =>
    simp only [step, Option.ite_none_right_eq_some, Option.some.injEq] at hstep
    obtain ⟨_, rfl⟩ := hstep
    by_cases ha : r.awaited = true
    · refine awaits_of_job fun c evs e rest hc => ?_
      rw [Sys.threw, if_pos ha] at hc
      cases hc
    · exact awaits_erase h (if_neg ha) rfl fun hc => absurd hc ha
  | effect e =>
    simp only [step, Option.ite_none_right_eq_some, Option.some.injEq] at hstep
    obtain ⟨_, rfl⟩ := hstep
    exact hkeep rfl fun r hr ha => ⟨r, hr, ha⟩
  | effectFails e =>
    simp only [step, Option.ite_none_right_eq_some, Option.some.injEq] at hstep
    obtain ⟨_, rfl⟩ := hstep
    exact hkeep rfl fun r hr ha => ⟨r, hr, ha⟩
  | crash =>
    obtain rfl := Option.some.inj hstep
    exact awaits_of_job fun c evs e rest hc => by cases hc
  | storeTxhash record txhash =>
    simp only [step] at hstep
    split at hstep
    · simp only [Option.ite_none_right_eq_some, Option.some.injEq] at hstep
      obtain ⟨_, rfl⟩ := hstep
      exact hkeep rfl fun r hr ha => ⟨r, hr, ha⟩
    · cases hstep
  | jobStarts =>
    simp only [step, Option.ite_none_right_eq_some, Option.some.injEq] at hstep
    obtain ⟨_, rfl⟩ := hstep
    exact awaits_of_job fun c evs e rest hc => by cases hc
  | blockNumber c =>
    simp only [step, Option.ite_none_right_eq_some, Option.some.injEq] at hstep
    obtain ⟨_, rfl⟩ := hstep
    exact awaits_of_job fun c evs e rest hc => by cases hc
  | redisGet =>
    simp only [step] at hstep
    split at hstep
    · obtain rfl := Option.some.inj hstep
      exact awaits_of_job fun c evs e rest hc => by cases hc
    · cases hstep
  | pastEvents evs =>
    simp only [step] at hstep
    split at hstep
    · obtain rfl := Option.some.inj hstep
      exact awaits_of_job fun c evs e rest hc => by cases hc
    · cases hstep
  | nextEvent =>
    simp only [step] at hstep
    split at hstep
    · obtain rfl := Option.some.inj hstep
      exact fun _ _ _ _ _ => ⟨_, List.mem_cons_self, rfl⟩
    · obtain rfl := Option.some.inj hstep
      exact awaits_of_job fun c evs e rest hc => by cases hc
    · cases hstep
  | redisSet =>
    simp only [step] at hstep
    split at hstep
    · obtain rfl := Option.some.inj hstep
      exact awaits_of_job fun c evs e rest hc => by cases hc
    · cases hstep
  | jobFails =>
    simp only [step] at hstep
    split at hstep
    · obtain rfl := Option.some.inj hstep
      exact awaits_of_job fun c evs e rest hc => by cases hc
    · obtain rfl := Option.some.inj hstep
      exact awaits_of_job fun c evs e rest hc => by cases hc
    · obtain rfl := Option.some.inj hstep
      exact awaits_of_job fun c evs e rest hc => by cases hc
    · obtain rfl := Option.some.inj hstep
      exact awaits_of_job fun c evs e rest hc => by cases hc
    · cases hstep

end Awaits

section Weight

variable {cfg : Config} {env : Env} {s s' : Sys} {l : Label} {n : Nat}

/-- What an effect leaves to do is less than it had to do. -/
theorem Resumes.weight {db : Db} {e : Effect} {o : Outcome} (h : Resumes env db e o) :
    (o.next.map EffectPc.weight).sum < e.pc.weight := by
  have hpos : 0 < e.pc.weight := by
    unfold EffectPc.weight
    split <;> omega
  cases h with
  | stops => exact hpos
  | routes manager pc at_ found routed =>
    rw [at_]
    rcases route_cases routed with rfl | rfl | rfl
    · show 3 + 0 < 4
      omega
    · show 2 + 0 < 4
      omega
    · show 3 + 0 < 4
      omega
  | charges user at_ confirmed found =>
    rw [at_]
    show 1 + (1 + 0) < 3
    omega
  | credits user amount stored at_ kept => exact hpos
  | deposits newTx row at_ kept => exact hpos
  | transfers user at_ confirmed found =>
    rw [at_]
    show 1 + 0 < 2
    omega
  | draws user amount stored at_ kept => exact hpos
  | withdraws record at_ confirmed found =>
    rw [at_]
    show 2 + 0 < 3
    omega
  | refuses record at_ confirmed found =>
    rw [at_]
    show 1 + 0 < 3
    omega
  | looksUp record at_ =>
    rw [at_]
    show 1 + 0 < 2
    omega
  | settles record at_ => exact hpos

theorem waits_weight {db : Db} {r : Run} {pc : RunPc} (h : r.resume env db = .waits pc) :
    pc.weight < r.pc.weight := by
  rcases resume_waits h with ⟨hpc, rfl⟩ | ⟨_, _, hpc, _, rfl⟩ | ⟨_, _, _, hpc, _, rfl⟩
  · rw [hpc]
    exact Nat.lt_succ_self 7
  · rw [hpc]
    exact Nat.lt_succ_self 6
  · rw [hpc]
    exact Nat.lt_succ_self 5

theorem run_weight_ge (r : Run) : 5 ≤ r.pc.weight := by
  unfold RunPc.weight
  split <;> omega

/-- The scan goes on with what it had. -/
theorem returned_weight (s : Sys) (r : Run) : (s.returned r).job.weight n = s.job.weight n := by
  unfold Sys.returned
  split
  · next hjob =>
    split
    · rw [hjob]
      rfl
    · rfl
  · rfl

theorem weight_falls (hown : l.own n) (hstep : step cfg env s l = some s') :
    s'.weight n < s.weight n := by
  cases l with
  | deliver data => exact hown.elim
  | jobStarts => exact hown.elim
  | crash => exact hown.elim
  | storeTxhash record txhash => exact hown.elim
  | run r =>
    simp only [step] at hstep
    split at hstep
    · next hr =>
      have herase := sum_erase_add (fun r : Run => r.pc.weight) hr
      have hge := run_weight_ge r
      split at hstep
      · next pc hwaits =>
        obtain rfl := Option.some.inj hstep
        have hlt := waits_weight hwaits
        have hsum := sum_resume (fun r : Run => r.pc.weight) [{ r with pc }] hr
        simp only [List.map_cons, List.map_nil, List.sum_cons, List.sum_nil] at hsum
        simp only [Sys.weight]
        omega
      · obtain rfl := Option.some.inj hstep
        simp only [Sys.weight, returned_runs, returned_effects, returned_weight]
        omega
      · obtain rfl := Option.some.inj hstep
        simp only [Sys.weight, returned_runs, returned_effects, returned_weight, List.map_cons,
          List.sum_cons, EffectPc.weight]
        omega
    · cases hstep
  | runFails r =>
    simp only [step, Option.ite_none_right_eq_some, Option.some.injEq] at hstep
    obtain ⟨hr, rfl⟩ := hstep
    have herase := sum_erase_add (fun r : Run => r.pc.weight) hr
    have hge := run_weight_ge r
    have hjob : (s.threw r).job.weight n ≤ s.job.weight n := by
      unfold Sys.threw
      dsimp only
      split
      · exact Nat.zero_le _
      · exact Nat.le_refl _
    simp only [Sys.weight]
    simp only [Sys.threw] at hjob ⊢
    omega
  | effect e =>
    simp only [step, Option.ite_none_right_eq_some, Option.some.injEq] at hstep
    obtain ⟨he, rfl⟩ := hstep
    have hlt := (resumes env s.db e).weight
    have hsum := sum_resume (fun e : Effect => e.pc.weight)
      ((e.resume env s.db).next.map fun pc => { e with pc }) he
    rw [List.map_map] at hsum
    simp only [Sys.weight]
    have hnext : ((e.resume env s.db).next.map ((fun e : Effect => e.pc.weight) ∘ fun pc =>
        { e with pc })) = (e.resume env s.db).next.map EffectPc.weight := rfl
    rw [hnext] at hsum
    omega
  | effectFails e =>
    simp only [step, Option.ite_none_right_eq_some, Option.some.injEq] at hstep
    obtain ⟨he, rfl⟩ := hstep
    have herase := sum_erase_add (fun e : Effect => e.pc.weight) he
    have hpos := (resumes env s.db e).weight
    simp only [Sys.weight]
    omega
  | blockNumber c =>
    simp only [step, Option.ite_none_right_eq_some, Option.some.injEq] at hstep
    obtain ⟨hjob, rfl⟩ := hstep
    simp only [Sys.weight, hjob, Job.weight]
    omega
  | redisGet =>
    simp only [step] at hstep
    split at hstep
    · next hjob =>
      obtain rfl := Option.some.inj hstep
      simp only [Sys.weight, hjob, Job.weight]
      omega
    · cases hstep
  | pastEvents evs =>
    simp only [step] at hstep
    split at hstep
    · next hjob =>
      obtain rfl := Option.some.inj hstep
      have hlength : evs.length ≤ n := hown
      simp only [Sys.weight, hjob, Job.weight]
      omega
    · cases hstep
  | nextEvent =>
    simp only [step] at hstep
    split at hstep
    · next hjob =>
      obtain rfl := Option.some.inj hstep
      simp only [Sys.weight, hjob, Job.weight, RunPc.weight, List.map_cons, List.sum_cons,
        List.length_cons]
      omega
    · next hjob =>
      obtain rfl := Option.some.inj hstep
      simp only [Sys.weight, hjob, Job.weight, List.length_nil]
      omega
    · cases hstep
  | redisSet =>
    simp only [step] at hstep
    split at hstep
    · next hjob =>
      obtain rfl := Option.some.inj hstep
      simp only [Sys.weight, hjob, Job.weight]
      omega
    · cases hstep
  | jobFails =>
    simp only [step] at hstep
    split at hstep
    · next hjob =>
      obtain rfl := Option.some.inj hstep
      simp only [Sys.weight, hjob, Job.weight]
      omega
    · next hjob =>
      obtain rfl := Option.some.inj hstep
      simp only [Sys.weight, hjob, Job.weight]
      omega
    · next hjob =>
      obtain rfl := Option.some.inj hstep
      simp only [Sys.weight, hjob, Job.weight]
      omega
    · next hjob =>
      obtain rfl := Option.some.inj hstep
      simp only [Sys.weight, hjob, Job.weight]
      omega
    · cases hstep

end Weight

section Enabled

variable {s : Sys} {l : Label} {n c : Nat} {evs : List TransferEvent}

theorem own_of_served (h : l.served c evs) (hlength : evs.length ≤ n) : l.own n := by
  cases l with
  | pastEvents transferEvents =>
    obtain rfl : transferEvents = evs := h
    exact hlength
  | run | effect | blockNumber | redisGet | nextEvent | redisSet => trivial
  | _ => exact h.elim

theorem fails_of_served (h : l.served c evs) : l.fails = false := by
  cases l with
  | run | effect | blockNumber | redisGet | pastEvents | nextEvent | redisSet => rfl
  | _ => exact h.elim

/-- Unless nothing is in flight a step can be taken, whatever the node answers. -/
theorem enabled_of_not_quiet (cfg : Config) (env : Env) (c : Nat) (evs : List TransferEvent)
    (h : Awaits s) (hquiet : ¬ s.Quiet) : ∃ l : Label, l.served c evs ∧
      (step cfg env s l).isSome := by
  cases hruns : s.runs with
  | cons r runs =>
    have hr : r ∈ s.runs := hruns ▸ List.mem_cons_self
    refine ⟨.run r, trivial, ?_⟩
    simp only [step, if_pos hr]
    split <;> rfl
  | nil =>
    cases heffects : s.effects with
    | cons e effects =>
      have he : e ∈ s.effects := heffects ▸ List.mem_cons_self
      refine ⟨.effect e, trivial, ?_⟩
      simp only [step, if_pos he]
      rfl
    | nil =>
      cases hjob : s.job with
      | idle => exact absurd ⟨hruns, heffects, hjob⟩ hquiet
      | getBlockNumber =>
        refine ⟨.blockNumber c, rfl, ?_⟩
        simp only [step, if_pos hjob]
        rfl
      | redisGet currentBlock =>
        refine ⟨.redisGet, trivial, ?_⟩
        simp only [step, hjob]
        rfl
      | getPastEvents currentBlock fromBlock =>
        refine ⟨.pastEvents evs, rfl, ?_⟩
        simp only [step, hjob]
        rfl
      | loop currentBlock transferEvents rest =>
        refine ⟨.nextEvent, trivial, ?_⟩
        simp only [step, hjob]
        cases rest <;> rfl
      | processTokenTransfer currentBlock transferEvents event rest =>
        obtain ⟨r, hr, _⟩ := h _ _ _ _ hjob
        rw [hruns] at hr
        exact absurd hr List.not_mem_nil
      | redisSet currentBlock transferEvents =>
        refine ⟨.redisSet, trivial, ?_⟩
        simp only [step, hjob]
        rfl

/-- When nothing is in flight only a new scan, a delivery, a crash or the other writer goes on. -/
theorem stuck_of_quiet {cfg : Config} {env : Env} (hquiet : s.Quiet) (hown : l.own n)
    (hfails : l.fails = false) : step cfg env s l = none := by
  obtain ⟨hruns, heffects, hjob⟩ := hquiet
  cases l with
  | run r =>
    simp only [step, hruns, List.not_mem_nil, ↓reduceIte]
  | effect e =>
    simp only [step, heffects, List.not_mem_nil, ↓reduceIte]
  | blockNumber | redisGet | pastEvents | nextEvent | redisSet =>
    simp only [step, hjob, reduceCtorEq, ↓reduceIte]
  | runFails | effectFails | jobFails => cases hfails
  | deliver | jobStarts | crash | storeTxhash => exact hown.elim

end Enabled

section Run

variable {cfg : Config} {db : Db} {redis : Option Nat} {ms : List Move} {s : Sys} {n : Nat}

theorem awaits_run (hrun : run (next cfg) (Sys.start db redis) ms = some s) : Awaits s :=
  Lib.Machine.run_invariant (P := Awaits) (fun _ _ _ hs hstep => awaits_step hs hstep)
    (awaits_start db redis) hrun

/-- The handler winds down. -/
theorem winds (cfg : Config) (n : Nat) :
    Winds (next cfg) Awaits (fun m => m.label.own n) (Sys.weight n) :=
  ⟨fun _ _ _ hs _ hstep => awaits_step hs hstep, fun _ _ _ _ hown hstep => weight_falls hown hstep⟩

theorem goes (cfg : Config) (env : Env) (n : Nat) : Goes (next cfg) Awaits
    (fun m => m.env = env ∧ m.label.own n ∧ m.label.fails = false) Sys.Quiet := by
  intro s hs hquiet
  obtain ⟨l, hserved, hsome⟩ := enabled_of_not_quiet cfg env 0 [] hs hquiet
  exact ⟨⟨env, l⟩, ⟨rfl, own_of_served hserved (Nat.zero_le n), fails_of_served hserved⟩, hsome⟩

end Run

/-- From every state of every run, whatever was delivered, failed or crashed before: the handler
takes no more steps of its own in a row than its state weighs, whatever the node and MySQL answer;
it can go on unless nothing is in flight; and without a failure it gets there. -/
theorem comes_to_rest (cfg : Config) (db : Db) (redis : Option Nat) (ms : List Move) (s : Sys)
    (h : run (next cfg) (Sys.start db redis) ms = some s) (n : Nat) :
    (∀ ms' t, (∀ m ∈ ms', m.label.own n) → run (next cfg) s ms' = some t →
      ms'.length ≤ s.weight n ∧ ∀ env,
        (∀ l : Label, l.own n → l.fails = false → step cfg env t l = none) ↔ t.Quiet) ∧
    ∀ env, ∃ t, t.Quiet ∧
      LeadsTo (next cfg) (fun m => m.env = env ∧ m.label.own n ∧ m.label.fails = false) s t := by
  have hawaits := awaits_run h
  have hwinds := winds cfg n
  constructor
  · intro ms' t hown hrun
    have hlength := hwinds.length_add_le hawaits hown hrun
    refine ⟨by omega, fun env => ⟨fun hstuck => ?_, fun hquiet l hl hfails => ?_⟩⟩
    · apply (goes cfg env n).rest_of_stuck (hwinds.inv_run hawaits hown hrun)
      rintro ⟨_, l⟩ ⟨rfl, hl, hfails⟩
      exact hstuck l hl hfails
    · exact stuck_of_quiet hquiet hl hfails
  · intro env
    exact hwinds.leadsTo_rest (goes cfg env n) (fun m hm => hm.2.1) hawaits

/-- A log delivered beside a scan that fetches it again. -/
theorem comes_to_rest_delivered : ∃ s t, s.weight 1 = 22 ∧ t.Quiet ∧
    LeadsTo (next sampleConfig) (fun m => m.env = sampleEnv ∧ m.label.own 1 ∧
      m.label.fails = false) s t := by
  have h : (run (next sampleConfig) (Sys.start sampleDb none)
      [⟨sampleEnv, .deliver sampleLog⟩, ⟨sampleEnv, .jobStarts⟩]).any
        (fun s => s.weight 1 = 22) = true := by
    decide +kernel
  obtain ⟨s, hs, hweight⟩ := (Option.any_eq_true _ _).mp h
  obtain ⟨_, hleads⟩ := comes_to_rest sampleConfig sampleDb none _ s hs 1
  obtain ⟨t, hquiet, hleads⟩ := hleads sampleEnv
  exact ⟨s, t, of_decide_eq_true hweight, hquiet, hleads⟩

end OlsDapp.Handler
