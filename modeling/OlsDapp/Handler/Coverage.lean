import OlsDapp.Handler.Scan
import OlsDapp.Lib.Chain

/-!
# The cursor covers the chain

A `World` is the handler with the canonical chain it reads. The chain grows and is
reorganised at any time, the scan fails or ends at any step. `Covers` links the cursor to
the blocks whose logs have been handed over: a block at least `blockOffset` below the cursor
no longer changes, and every later one is fetched again.
-/

namespace OlsDapp.Handler

open Lib.Chain (block logsFrom replaceLast)
open Lib.Machine (run)

structure World where
  chain : List (List TransferEvent)
  sys : Sys
  /-- The chain when the scan last fetched its events. -/
  fetched : List (List TransferEvent)

inductive Event where
  | grow (blk : List TransferEvent)
  /-- The last `depth` blocks are replaced and the tip is not lowered. -/
  | reorg (depth : Nat) (blocks : List (List TransferEvent))
  /-- A step of the handler, with what the node and MySQL answer at that time. -/
  | sys (env : Env) (l : Label)

def Job.fromBlock : Job → Int
  | .getPastEvents _ fromBlock => fromBlock
  | _ => 0

namespace World

/-- `getBlockNumber` is the tip, `getPastEvents` all canonical logs from the block on. -/
def answers (w : World) : Label → Bool
  | .blockNumber currentBlock => currentBlock + 1 = w.chain.length
  | .pastEvents transferEvents => transferEvents = logsFrom w.chain w.sys.job.fromBlock.toNat
  | _ => true

def start (chain : List (List TransferEvent)) (db : Db) : World := ⟨chain, Sys.start db none, []⟩

def step (cfg : Config) (w : World) : Event → Option World
  | .grow blk => some { w with chain := w.chain ++ [blk] }
  | .reorg depth blocks =>
    if depth ≤ cfg.blockOffset ∧ depth ≤ blocks.length ∧ depth ≤ w.chain.length then
      some { w with chain := replaceLast w.chain depth blocks }
    else none
  | .sys env l =>
    if w.answers l then
      (Handler.step cfg env w.sys l).map fun sys =>
        match l with
        | .pastEvents _ => { w with sys, fetched := w.chain }
        | _ => { w with sys }
    else none

variable {cfg : Config} {env : Env} {l : Label} {w w' : World}

/-- The handler's own step; the chain is noted when it fetches. -/
theorem step_sys (h : w.step cfg (.sys env l) = some w') :
    w.answers l = true ∧ ∃ s', Handler.step cfg env w.sys l = some s' ∧
      ((∃ evs, l = .pastEvents evs) ∧ w' = { w with sys := s', fetched := w.chain } ∨
        (∀ evs, l ≠ .pastEvents evs) ∧ w' = { w with sys := s' }) := by
  simp only [step, Option.ite_none_right_eq_some, Option.map_eq_some_iff] at h
  obtain ⟨hanswers, s', hs', hw'⟩ := h
  refine ⟨hanswers, s', hs', ?_⟩
  split at hw'
  · next evs => exact Or.inl ⟨⟨evs, rfl⟩, hw'.symm⟩
  · next hl => exact Or.inr ⟨hl, hw'.symm⟩

theorem step_reorg {depth : Nat} {blocks : List (List TransferEvent)}
    (h : w.step cfg (.reorg depth blocks) = some w') :
    (depth ≤ cfg.blockOffset ∧ depth ≤ blocks.length ∧ depth ≤ w.chain.length) ∧
      w' = { w with chain := replaceLast w.chain depth blocks } := by
  simp only [step, Option.ite_none_right_eq_some, Option.some.injEq] at h
  exact ⟨h.1, h.2.symm⟩

end World

section Covers

/-- The tip the scan has read. -/
def Job.currentBlock : Job → Option Nat
  | .redisGet c => some c
  | .getPastEvents c _ => some c
  | .loop c _ _ => some c
  | .processTokenTransfer c _ _ _ => some c
  | .redisSet c _ => some c
  | _ => none

/-- The scan has its events. -/
def Job.hasFetched : Job → Bool
  | .loop _ _ _ => true
  | .processTokenTransfer _ _ _ _ => true
  | .redisSet _ _ => true
  | _ => false

def Config.firstBlock (cfg : Config) : Nat := cfg.startBlock - cfg.blockOffset

/-- Every log of the block has been handed over. -/
def Sys.HandedOver (s : Sys) (blk : List TransferEvent) : Prop :=
  ∀ e ∈ blk, .handled e ∈ s.history

structure Covers (cfg : Config) (w : World) : Prop where
  handsOver : HandsOver w.sys
  cursor : ∀ c, w.sys.redis = some c → c < w.chain.length ∧
    ∀ b, cfg.firstBlock ≤ b → b + cfg.blockOffset ≤ c → w.sys.HandedOver (block w.chain b)
  tip : ∀ c, w.sys.job.currentBlock = some c → c < w.chain.length
  fromBlock : ∀ c f, w.sys.job = .getPastEvents c f → f = cfg.fromBlock w.sys.redis
  /-- What was fetched is handed over already or is among the events of the scan. -/
  events : w.sys.job.hasFetched = true → ∀ b, cfg.firstBlock ≤ b → ∀ e ∈ block w.fetched b,
    .handled e ∈ w.sys.history ∨ e ∈ w.sys.job.fetched
  /-- Far below the tip the chain is still the one that was fetched. -/
  settled : w.sys.job.hasFetched = true → ∀ c, w.sys.job.currentBlock = some c →
    ∀ b, b + cfg.blockOffset ≤ c → block w.chain b = block w.fetched b

variable {cfg : Config} {env : Env} {w : World} {s' : Sys}

theorem covers_start {chain : List (List TransferEvent)} (db : Db) :
    Covers cfg (World.start chain db) :=
  ⟨handsOver_start db none, nofun, nofun, nofun, nofun, nofun⟩

/-- The chain changes in its last `blockOffset` blocks at most, and its tip does not fall. -/
theorem covers_chain (h : Covers cfg w) {chain : List (List TransferEvent)}
    (hlength : w.chain.length ≤ chain.length)
    (hblock : ∀ b, b + cfg.blockOffset < w.chain.length → block chain b = block w.chain b) :
    Covers cfg { w with chain } := by
  refine ⟨h.handsOver, fun c hc => ?_, fun c hc => ?_, h.fromBlock, h.events,
    fun hf c hc b hb => ?_⟩
  · obtain ⟨hlt, hcov⟩ := h.cursor c hc
    refine ⟨by show c < chain.length; omega, fun b hfirst hb => ?_⟩
    show w.sys.HandedOver (block chain b)
    rw [hblock b (by omega)]
    exact hcov b hfirst hb
  · have hlt := h.tip c hc
    show c < chain.length
    omega
  · have hlt := h.tip c hc
    show block chain b = block w.fetched b
    rw [hblock b (by omega)]
    exact h.settled hf c hc b hb

/-- A step of the handler that neither learns of the chain nor stores the cursor. -/
theorem covers_keep (h : Covers cfg w) (hands : HandsOver s') (hredis : s'.redis = w.sys.redis)
    (hhistory : w.sys.history ⊆ s'.history)
    (htip : ∀ c, s'.job.currentBlock = some c → w.sys.job.currentBlock = some c)
    (hfrom : ∀ c f, s'.job = .getPastEvents c f → f = cfg.fromBlock w.sys.redis)
    (hfetched : s'.job.hasFetched = true →
      w.sys.job.hasFetched = true ∧ s'.job.fetched = w.sys.job.fetched) :
    Covers cfg { w with sys := s' } := by
  refine ⟨hands, fun c hc => ?_, fun c hc => h.tip c (htip c hc), fun c f hf => ?_,
    fun hf b hb e he => ?_, fun hf c hc => h.settled (hfetched hf).1 c (htip c hc)⟩
  · obtain ⟨hlt, hcov⟩ := h.cursor c (hredis ▸ hc)
    exact ⟨hlt, fun b hfirst hb e he => hhistory (hcov b hfirst hb e he)⟩
  · rw [hfrom c f hf, ← hredis]
  · obtain ⟨hold, heq⟩ := hfetched hf
    show _ ∨ e ∈ s'.job.fetched
    rw [heq]
    exact (h.events hold b hb e he).imp_left fun hn => hhistory hn

/-- The scan has given up or never began. -/
theorem covers_idle (h : Covers cfg w) (hands : HandsOver s') (hredis : s'.redis = w.sys.redis)
    (hhistory : w.sys.history ⊆ s'.history) (hjob : s'.job = .idle) :
    Covers cfg { w with sys := s' } := by
  refine covers_keep h hands hredis hhistory (fun c hc => ?_) (fun c f hf => ?_) fun hf => ?_
  · rw [hjob] at hc
    cases hc
  · rw [hjob] at hf
    cases hf
  · rw [hjob] at hf
    cases hf

/-- Below the block the scan fetches from, every block has been covered. -/
theorem handedOver_below (h : Covers cfg w) {b : Nat} (hfirst : cfg.firstBlock ≤ b)
    (hb : b < (cfg.fromBlock w.sys.redis).toNat) : w.sys.HandedOver (block w.chain b) := by
  unfold Config.fromBlock at hb
  unfold Config.firstBlock at hfirst
  cases hredis : w.sys.redis with
  | none =>
    rw [hredis] at hb
    simp only [Option.getD_none] at hb
    omega
  | some c =>
    rw [hredis] at hb
    simp only [Option.getD_some] at hb
    exact (h.cursor c hredis).2 b hfirst (by omega)

/-- The scan that stores its cursor has handed over all it fetched. -/
theorem handedOver_stored (h : Covers cfg w) {c : Nat} {evs : List TransferEvent}
    (hjob : w.sys.job = .redisSet c evs) {b : Nat} (hfirst : cfg.firstBlock ≤ b) :
    w.sys.HandedOver (block w.fetched b) := by
  intro e he
  rcases h.events (by rw [hjob]; rfl) b hfirst e he with hdone | hmem
  · exact hdone
  · rcases h.handsOver.fetched e hmem with hdone | hrest
    · exact hdone
    · rw [hjob] at hrest
      exact absurd hrest List.not_mem_nil

theorem covers_sys {l : Label} (h : Covers cfg w) (hanswers : w.answers l = true)
    (hl : ∀ evs, l ≠ .pastEvents evs) (hstep : step cfg env w.sys l = some s') :
    Covers cfg { w with sys := s' } := by
  have hands := handsOver_step h.handsOver hstep
  cases step_scan hstep with
  | beside job redis _ notes _ history =>
    refine covers_keep h hands redis ?_ (fun c hc => job ▸ hc) (fun c f hf => ?_) fun hf => ?_
    · rw [history]
      exact List.subset_append_right _ _
    · exact h.fromBlock c f (job ▸ hf)
    · rw [job] at hf ⊢
      exact ⟨hf, rfl⟩
  | returns r _ _ c evs e rest at_ job redis _ notes _ history =>
    refine covers_keep h hands redis ?_ (fun c' hc => ?_) (fun c' f hf => ?_) fun _ => ?_
    · rw [history]
      exact fun n hn => List.mem_cons_of_mem _ (List.mem_append_right _ hn)
    · rw [job] at hc
      rw [at_]
      exact hc
    · rw [job] at hf
      cases hf
    · rw [job, at_]
      exact ⟨rfl, rfl⟩
  | throws r _ _ job redis _ history =>
    exact covers_idle h hands redis (history ▸ List.Subset.refl _) job
  | crashes job redis _ history =>
    exact covers_idle h hands redis (history ▸ List.Subset.refl _) job
  | starts at_ =>
    exact covers_keep h hands rfl (List.Subset.refl _) nofun nofun nofun
  | tip c at_ =>
    have hc : c + 1 = w.chain.length := of_decide_eq_true hanswers
    refine ⟨hands, h.cursor, fun c' hc' => ?_, nofun, nofun, nofun⟩
    obtain rfl := Option.some.inj hc'
    show c < w.chain.length
    omega
  | cursor c at_ =>
    refine covers_keep h hands rfl (List.Subset.refl _) (fun c' hc => ?_) (fun c' f hf => ?_) nofun
    · rw [at_]
      exact hc
    · exact (Job.getPastEvents.inj hf).2.symm
  | fetches c f evs at_ => exact absurd rfl (hl evs)
  | calls c evs e rest at_ =>
    refine covers_keep h hands rfl (List.Subset.refl _) (fun c' hc => ?_) nofun fun _ => ?_
    · rw [at_]
      exact hc
    · rw [at_]
      exact ⟨rfl, rfl⟩
  | finishes c evs at_ =>
    refine covers_keep h hands rfl (List.Subset.refl _) (fun c' hc => ?_) nofun fun _ => ?_
    · rw [at_]
      exact hc
    · rw [at_]
      exact ⟨rfl, rfl⟩
  | stores c evs at_ =>
    refine ⟨hands, fun c' hc => ?_, nofun, nofun, nofun, nofun⟩
    obtain rfl := Option.some.inj hc
    refine ⟨h.tip c (by rw [at_]; rfl), fun b hfirst hb e he => List.mem_cons_of_mem _ ?_⟩
    have hsettled := h.settled (by rw [at_]; rfl) c (by rw [at_]; rfl) b hb
    exact handedOver_stored h at_ hfirst e (hsettled ▸ he)
  | fails at_ => exact covers_idle h hands rfl (List.Subset.refl _) rfl

/-- The scan fetches its events: from there on the chain of that moment is the one it covers. -/
theorem covers_fetch {evs : List TransferEvent} (h : Covers cfg w)
    (hanswers : w.answers (.pastEvents evs) = true)
    (hstep : step cfg env w.sys (.pastEvents evs) = some s') :
    Covers cfg { w with sys := s', fetched := w.chain } := by
  have hands := handsOver_step h.handsOver hstep
  have hevs : evs = logsFrom w.chain w.sys.job.fromBlock.toNat := of_decide_eq_true hanswers
  simp only [step] at hstep
  split at hstep
  · next c f hjob =>
    obtain rfl := Option.some.inj hstep
    refine ⟨hands, h.cursor, fun c' hc => ?_, fun c' f' hf => ?_, fun _ b hfirst e he => ?_,
      fun _ _ _ _ _ => rfl⟩
    · obtain rfl := Option.some.inj hc
      exact h.tip c (by rw [hjob]; rfl)
    · cases hf
    · have hf := h.fromBlock c f hjob
      by_cases hb : b < (cfg.fromBlock w.sys.redis).toNat
      · left
        exact handedOver_below h hfirst hb e he
      · right
        show e ∈ evs
        rw [hevs, Lib.Chain.mem_logsFrom]
        refine ⟨b, ?_, he⟩
        rw [hjob]
        show f.toNat ≤ b
        rw [hf]
        omega
  · cases hstep

theorem covers_step {w' : World} {a : Event} (h : Covers cfg w) (hstep : w.step cfg a = some w') :
    Covers cfg w' := by
  cases a with
  | grow blk =>
    obtain rfl := Option.some.inj hstep
    refine covers_chain h ?_ fun b hb => ?_
    · rw [List.length_append]
      omega
    · exact Lib.Chain.block_append [blk] (by omega)
  | reorg depth blocks =>
    obtain ⟨⟨hoffset, hblocks, hdepth⟩, rfl⟩ := World.step_reorg hstep
    refine covers_chain h ?_ fun b hb => ?_
    · have hlength := Lib.Chain.length_replaceLast blocks hdepth
      omega
    · exact Lib.Chain.block_replaceLast blocks (by omega)
  | sys env l =>
    obtain ⟨hanswers, s', hs', ⟨⟨evs, rfl⟩, rfl⟩ | ⟨hl, rfl⟩⟩ := World.step_sys hstep
    · exact covers_fetch h hanswers hs'
    · exact covers_sys h hanswers hl hs'

theorem redis_step {l : Label} (hstep : step cfg env w.sys l = some s') (hl : l ≠ .redisSet) :
    s'.redis = w.sys.redis := by
  cases step_scan hstep with
  | beside job redis => exact redis
  | returns r _ _ _ _ _ _ _ _ redis => exact redis
  | throws r _ _ _ redis => exact redis
  | crashes _ redis => exact redis
  | stores => exact absurd rfl hl
  | starts => rfl
  | tip => rfl
  | cursor => rfl
  | fetches => rfl
  | calls => rfl
  | finishes => rfl
  | fails => rfl

end Covers

/-- In every run, whatever the chain did meanwhile and wherever earlier scans failed: when a
scan stores its cursor `c`, each log that was in a block up to `c` when it fetched has been
handed over, and nothing else moves the cursor. -/
theorem rescan_coverage (cfg : Config) (chain : List (List TransferEvent)) (db : Db)
    (as : List Event) (w w' : World) (a : Event)
    (hrun : run (World.step cfg) (World.start chain db) as = some w)
    (hstep : w.step cfg a = some w') :
    (∀ env, a = .sys env .redisSet → ∃ c evs, w.sys.job = .redisSet c evs ∧
      w'.sys.redis = some c ∧ ∀ b, cfg.startBlock - cfg.blockOffset ≤ b → b ≤ c →
        ∀ e ∈ block w.fetched b, .handled e ∈ w'.sys.history) ∧
    ((∀ env, a ≠ .sys env .redisSet) → w'.sys.redis = w.sys.redis) := by
  have hcovers : Covers cfg w :=
    Lib.Machine.run_invariant (fun _ _ _ h hs => covers_step h hs) (covers_start db) hrun
  constructor
  · intro env ha
    subst ha
    obtain ⟨_, s', hs', ⟨⟨evs, hl⟩, _⟩ | ⟨_, rfl⟩⟩ := World.step_sys hstep
    · cases hl
    · simp only [step] at hs'
      split at hs'
      · next c evs hjob =>
        obtain rfl := Option.some.inj hs'
        refine ⟨c, evs, hjob, rfl, fun b hfirst _ e he => List.mem_cons_of_mem _ ?_⟩
        exact handedOver_stored hcovers hjob hfirst e he
      · cases hs'
  · intro ha
    cases a with
    | grow blk =>
      obtain rfl := Option.some.inj hstep
      rfl
    | reorg depth blocks =>
      obtain ⟨_, rfl⟩ := World.step_reorg hstep
      rfl
    | sys env l =>
      obtain ⟨_, s', hs', hw'⟩ := World.step_sys hstep
      have hredis := redis_step hs' fun hl => ha env (by rw [hl])
      rcases hw' with ⟨_, rfl⟩ | ⟨_, rfl⟩
      · exact hredis
      · exact hredis

/-- A scan fails in its loop, the block of its log is replaced, and another one follows. -/
def sampleReorganised : List Event :=
  ((sampleScanTo 1 sampleLog).take 5).map (.sys sampleEnv) ++
    [.sys sampleEnv (.runFails ⟨sampleLog, true, .findOne⟩), .reorg 1 [[sampleLaterLog], []]] ++
    (sampleScanTo 2 sampleLaterLog).map (.sys sampleEnv)

theorem rescan_coverage_reorganised : ∃ w w',
    run (World.step sampleConfig) (World.start [[], [sampleLog]] sampleDb) sampleReorganised =
      some w ∧ w.step sampleConfig (.sys sampleEnv .redisSet) = some w' ∧
    w'.sys.redis = some 2 ∧ ∀ b ≤ 2, ∀ e ∈ block w.fetched b, .handled e ∈ w'.sys.history := by
  have h : (run (World.step sampleConfig) (World.start [[], [sampleLog]] sampleDb)
      sampleReorganised).any (fun w => (w.step sampleConfig (.sys sampleEnv .redisSet)).any
        fun w' => w'.sys.redis = some 2) = true := by
    decide +kernel
  obtain ⟨w, hw, hnext⟩ := (Option.any_eq_true _ _).mp h
  obtain ⟨w', hw', hredis⟩ := (Option.any_eq_true _ _).mp hnext
  obtain ⟨c, _, _, hc, hcovered⟩ := (rescan_coverage sampleConfig [[], [sampleLog]] sampleDb
    sampleReorganised w w' (.sys sampleEnv .redisSet) hw hw').1 sampleEnv rfl
  have hredis := of_decide_eq_true hredis
  obtain rfl := Option.some.inj (hc.symm.trans hredis)
  exact ⟨w, w', hw, hw', hredis, fun b hb => hcovered b (Nat.zero_le b) hb⟩

end OlsDapp.Handler
