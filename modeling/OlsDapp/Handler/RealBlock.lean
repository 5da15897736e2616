import Mathlib.Data.List.TakeWhile
import OlsDapp.Handler.Coverage

/-!
# The block a rescan asks from

`checkAndRestoreTransactions` goes back `blockOffset` blocks from its cursor, from `startBlock`
while redis is empty. Below zero there is no block: the node refuses the call, the job fails
before it stores anything, and the next one asks for the same block again.
-/

namespace OlsDapp.Handler

open Lib.Chain (logsFrom replaceLast)
open Lib.Machine (LeadsTo)

/-! ## `config.ts` -/

section Config

/-- What `parseInt` skips at the head of a text. -/
def isWhiteSpace (c : Char) : Bool :=
  let n := c.toNat
  (0x09 ≤ n && n ≤ 0x0D) || (0x2000 ≤ n && n ≤ 0x200A) ||
    [0x20, 0xA0, 0x1680, 0x2028, 0x2029, 0x202F, 0x205F, 0x3000, 0xFEFF].contains n

def splitSign : List Char → Int × List Char
  | '-' :: text => (-1, text)
  | '+' :: text => (1, text)
  | text => (1, text)

/-- `parseInt(text, 10)`; `none` is `NaN`. -/
def parseInt (text : String) : Option Int :=
  let (sign, text) := splitSign (text.toList.dropWhile isWhiteSpace)
  match text.takeWhile Char.isDigit with
  | [] => none
  | digits => some (sign * Nat.ofDigitChars 10 digits 0)

/-- `value || default`: neither `NaN` nor zero is truthy. -/
def orDefault (value : Option Int) (default_ : Int) : Int :=
  match value with
  | none => default_
  | some n => if n = 0 then default_ else n

/-- The variables that are read; `none` was not set. -/
structure ProcessEnv where
  WEB3_RESTORE_START_BLOCK : Option String := none
  WEB3_BLOCK_OFFSET : Option String := none

/-- `config.web3`; an `undefined` is read as its name. -/
def ProcessEnv.web3 (env : ProcessEnv) : Int × Int :=
  (orDefault (parseInt (env.WEB3_RESTORE_START_BLOCK.getD "undefined")) 1,
    orDefault (parseInt (env.WEB3_BLOCK_OFFSET.getD "undefined")) 200)

/-- Both numbers came out at least zero. -/
def ProcessEnv.Configures (env : ProcessEnv) (cfg : Config) : Prop :=
  env.web3 = (↑cfg.startBlock, ↑cfg.blockOffset)

instance (env : ProcessEnv) (cfg : Config) : Decidable (env.Configures cfg) :=
  inferInstanceAs (Decidable (env.web3 = _))

theorem orDefault_ne_zero {default_ : Int} (h : default_ ≠ 0) (value : Option Int) :
    orDefault value default_ ≠ 0 := by
  cases value with
  | none => exact h
  | some n =>
    show (if n = 0 then default_ else n) ≠ 0
    by_cases hn : n = 0
    · rw [if_pos hn]
      exact h
    · rw [if_neg hn]
      exact hn

/-- No configuration is without an offset: zero is replaced like a missing value. -/
theorem ProcessEnv.Configures.pos {env : ProcessEnv} {cfg : Config} (h : env.Configures cfg) :
    0 < cfg.startBlock ∧ 0 < cfg.blockOffset := by
  obtain ⟨hstart, hoffset⟩ := Prod.mk.inj h
  have hstart_ne := orDefault_ne_zero (by decide : (1 : Int) ≠ 0)
    (parseInt (env.WEB3_RESTORE_START_BLOCK.getD "undefined"))
  have hoffset_ne := orDefault_ne_zero (by decide : (200 : Int) ≠ 0)
    (parseInt (env.WEB3_BLOCK_OFFSET.getD "undefined"))
  rw [hstart] at hstart_ne
  rw [hoffset] at hoffset_ne
  omega

theorem splitSign_digit {c : Char} (h : c.isDigit = true) (text : List Char) :
    splitSign (c :: text) = (1, c :: text) := by
  unfold splitSign
  split
  · next heq =>
    obtain ⟨rfl, _⟩ := List.cons.inj heq
    exact absurd h (by decide)
  · next heq =>
    obtain ⟨rfl, _⟩ := List.cons.inj heq
    exact absurd h (by decide)
  · rfl

theorem isWhiteSpace_digit {c : Char} (h : c.isDigit = true) : isWhiteSpace c = false := by
  obtain ⟨hle, hge⟩ := Char.isDigit_iff_toNat.mp h
  have hzero : '0'.toNat = 48 := rfl
  have hnine : '9'.toNat = 57 := rfl
  simp only [isWhiteSpace, List.contains_eq_mem, List.mem_cons, List.not_mem_nil, or_false,
    Bool.or_eq_false_iff, Bool.and_eq_false_iff, decide_eq_false_iff_not]
  omega

theorem parseInt_repr (n : Nat) : parseInt n.repr = some (n : Int) := by
  have hdigits : ∀ c ∈ Nat.toDigits 10 n, c.isDigit = true := by
    intro c hc
    exact Nat.isDigit_of_mem_toDigits (by decide) (by decide) hc
  have hvalue := Nat.ofDigitChars_ten_toDigits (n := n)
  unfold parseInt
  rw [Nat.toList_repr]
  cases h : Nat.toDigits 10 n with
  | nil => exact absurd h Nat.toDigits_ne_nil
  | cons c cs =>
    rw [h] at hdigits hvalue
    have hc := hdigits c List.mem_cons_self
    have htake : (c :: cs).takeWhile Char.isDigit = c :: cs :=
      List.takeWhile_eq_self_iff.mpr hdigits
    rw [List.dropWhile_cons_of_neg (by simp [isWhiteSpace_digit hc]), splitSign_digit hc]
    dsimp only
    rw [htake]
    show some ((1 : Int) * (Nat.ofDigitChars 10 (c :: cs) 0 : Nat)) = _
    rw [hvalue, one_mul]

example : parseInt " +12 blocks" = some 12 := by decide +kernel

/-- Every two positive numbers can be configured. -/
theorem exists_configures {cfg : Config} (hstart : 0 < cfg.startBlock)
    (hoffset : 0 < cfg.blockOffset) : ∃ env : ProcessEnv, env.Configures cfg := by
  refine ⟨⟨some cfg.startBlock.repr, some cfg.blockOffset.repr⟩, ?_⟩
  unfold ProcessEnv.Configures ProcessEnv.web3
  simp only [Option.getD_some, parseInt_repr, orDefault]
  rw [if_neg (by omega), if_neg (by omega)]

end Config

/-! ## The node refuses a negative block -/

section Refusing

/-- A scan about to fetch asks from a block there is. -/
def World.AsksRealBlock (w : World) : Prop :=
  ∀ c fromBlock, w.sys.job = .getPastEvents c fromBlock → 0 ≤ fromBlock

/-- Asked from a negative block the node does not answer, and the job can only fail. -/
def World.stepRefusing (cfg : Config) (w : World) (a : Event) : Option World :=
  match a with
  | .sys _ (.pastEvents _) => if w.sys.job.fromBlock < 0 then none else w.step cfg a
  | _ => w.step cfg a

/-- Without reorganisations the chain only grows. -/
def Event.Grows : Event → Prop
  | .reorg _ _ => False
  | _ => True

variable {cfg : Config} {env : Env} {w w' : World} {a : Event} {s' : Sys} {c : Nat}

theorem step_of_refusing (h : w.stepRefusing cfg a = some w') : w.step cfg a = some w' := by
  unfold World.stepRefusing at h
  split at h
  · split at h
    · cases h
    · exact h
  · exact h

/-- Nothing is refused where a scan asks from a block there is. -/
theorem refusing_of_asks (h : w.AsksRealBlock) (a : Event) :
    w.stepRefusing cfg a = w.step cfg a := by
  have hreal : 0 ≤ w.sys.job.fromBlock := by
    unfold Job.fromBlock
    split
    · next c fromBlock hjob => exact h c fromBlock hjob
    · exact Int.le_refl 0
  unfold World.stepRefusing
  split
  · exact if_neg (by omega)
  · rfl

/-- The node has answered, so the block is one there is. -/
theorem real_of_fetch {evs : List TransferEvent}
    (h : w.stepRefusing cfg (.sys env (.pastEvents evs)) = some w') :
    0 ≤ w.sys.job.fromBlock := by
  by_contra hneg
  have hrefused : w.stepRefusing cfg (.sys env (.pastEvents evs)) = none := if_pos (by omega)
  rw [hrefused] at h
  cases h

theorem stepRefusing_sys {l : Label} (hl : ∀ evs, l ≠ .pastEvents evs)
    (hanswers : w.answers l = true) (hstep : step cfg env w.sys l = some s') :
    w.stepRefusing cfg (.sys env l) = some { w with sys := s' } := by
  unfold World.stepRefusing
  split
  · next heq =>
    obtain ⟨_, rfl⟩ := Event.sys.inj heq
    exact absurd rfl (hl _)
  · unfold World.step
    dsimp only
    rw [if_pos hanswers, hstep, Option.map_some]
    split
    · exact absurd rfl (hl _)
    · rfl

/-- The node has the block, and answers with all its logs and those after it. -/
theorem stepRefusing_fetch {fromBlock : Int} (hjob : w.sys.job = .getPastEvents c fromBlock)
    (hreal : 0 ≤ fromBlock) :
    w.stepRefusing cfg (.sys env (.pastEvents (logsFrom w.chain fromBlock.toNat))) =
      some { w with
        sys := { w.sys with
          job := .loop c (logsFrom w.chain fromBlock.toNat) (logsFrom w.chain fromBlock.toNat) }
        fetched := w.chain } := by
  have hfrom : w.sys.job.fromBlock = fromBlock := by rw [hjob]; rfl
  have hanswers : w.answers (.pastEvents (logsFrom w.chain fromBlock.toNat)) = true := by
    apply decide_eq_true
    rw [hfrom]
  unfold World.stepRefusing World.step
  dsimp only
  rw [if_neg (by omega), if_pos hanswers]
  simp only [step, hjob, Option.map_some]

end Refusing

/-! ## Above the offset -/

section AboveOffset

variable {cfg : Config} {env : Env} {w w' : World} {a : Event} {s' : Sys} {l : Label}

/-- The tip the scan holds is the one it held or the one it is told. -/
theorem currentBlock_step {c : Nat} (hstep : step cfg env w.sys l = some s')
    (hc : s'.job.currentBlock = some c) :
    w.sys.job.currentBlock = some c ∨ l = .blockNumber c := by
  cases step_scan hstep with
  | beside job => exact Or.inl (job ▸ hc)
  | returns r _ _ c' evs e rest at_ job =>
    left
    rw [job] at hc
    rw [at_]
    exact hc
  | throws r _ _ job =>
    rw [job] at hc
    cases hc
  | crashes job =>
    rw [job] at hc
    cases hc
  | starts => cases hc
  | tip c' =>
    obtain rfl := Option.some.inj hc
    exact Or.inr rfl
  | cursor c' at_ =>
    left
    rw [at_]
    exact hc
  | fetches c' f evs at_ =>
    left
    rw [at_]
    exact hc
  | calls c' evs e rest at_ =>
    left
    rw [at_]
    exact hc
  | finishes c' evs at_ =>
    left
    rw [at_]
    exact hc
  | stores => cases hc
  | fails => cases hc

/-- The cursor is the one there was or the tip the scan held. -/
theorem cursor_step {c : Nat} (hstep : step cfg env w.sys l = some s')
    (hc : s'.redis = some c) : w.sys.redis = some c ∨ w.sys.job.currentBlock = some c := by
  by_cases hl : l = .redisSet
  · subst hl
    simp only [step] at hstep
    split at hstep
    · next c' evs hjob =>
      obtain rfl := Option.some.inj hstep
      right
      rw [hjob]
      exact hc
    · cases hstep
  · left
    exact redis_step hstep hl ▸ hc

/-- The chain reaches above the offset, and so does what the scan has learned of it. -/
structure AboveOffset (cfg : Config) (w : World) : Prop where
  chain : cfg.blockOffset < w.chain.length
  cursor : ∀ c, w.sys.redis = some c → cfg.blockOffset ≤ c
  tip : ∀ c, w.sys.job.currentBlock = some c → cfg.blockOffset ≤ c

theorem aboveOffset_start {chain : List (List TransferEvent)} {db : Db}
    (h : cfg.blockOffset < chain.length) : AboveOffset cfg (World.start chain db) :=
  ⟨h, nofun, nofun⟩

theorem aboveOffset_sys (h : AboveOffset cfg w) (hanswers : w.answers l = true)
    (hstep : step cfg env w.sys l = some s') :
    (∀ c, s'.redis = some c → cfg.blockOffset ≤ c) ∧
      ∀ c, s'.job.currentBlock = some c → cfg.blockOffset ≤ c := by
  constructor
  · intro c hc
    rcases cursor_step hstep hc with hold | hheld
    · exact h.cursor c hold
    · exact h.tip c hheld
  · intro c hc
    rcases currentBlock_step hstep hc with hold | htold
    · exact h.tip c hold
    · subst htold
      have hlength : c + 1 = w.chain.length := of_decide_eq_true hanswers
      have hchain := h.chain
      omega

/-- No step leaves the blocks above the offset: the tip does not fall. -/
theorem aboveOffset_step (h : AboveOffset cfg w) (hstep : w.step cfg a = some w') :
    AboveOffset cfg w' := by
  have hchain := h.chain
  cases a with
  | grow blk =>
    obtain rfl := Option.some.inj hstep
    refine ⟨?_, h.cursor, h.tip⟩
    show cfg.blockOffset < (w.chain ++ [blk]).length
    rw [List.length_append]
    omega
  | reorg depth blocks =>
    obtain ⟨⟨_, hblocks, hdepth⟩, rfl⟩ := World.step_reorg hstep
    refine ⟨?_, h.cursor, h.tip⟩
    have hlength := Lib.Chain.length_replaceLast blocks hdepth
    show cfg.blockOffset < (replaceLast w.chain depth blocks).length
    omega
  | sys env l =>
    obtain ⟨hanswers, s', hs', hw'⟩ := World.step_sys hstep
    obtain ⟨hcursor, htip⟩ := aboveOffset_sys h hanswers hs'
    rcases hw' with ⟨_, rfl⟩ | ⟨_, rfl⟩
    · exact ⟨hchain, hcursor, htip⟩
    · exact ⟨hchain, hcursor, htip⟩

/-- Going back from the first block or from a cursor above the offset ends at a block. -/
theorem asksRealBlock_of_above (hcovers : Covers cfg w) (h : AboveOffset cfg w)
    (hstart : cfg.blockOffset ≤ cfg.startBlock) : w.AsksRealBlock := by
  intro c fromBlock hjob
  rw [hcovers.fromBlock c fromBlock hjob, Config.fromBlock]
  cases hredis : w.sys.redis with
  | none =>
    rw [Option.getD_none]
    omega
  | some cursor =>
    have hcursor := h.cursor cursor hredis
    rw [Option.getD_some]
    omega

end AboveOffset

/-! ## Below the offset -/

section Blocked

variable {cfg : Config} {env : Env} {w w' : World} {a : Event} {s s' : Sys} {l : Label}
variable {cursor : Option Nat}

/-- The scan has not fetched, and asks from where `cursor` sends it. -/
structure Blocked (cfg : Config) (cursor : Option Nat) (s : Sys) : Prop where
  redis : s.redis = cursor
  notFetched : s.job.hasFetched = false
  fromBlock : ∀ c f, s.job = .getPastEvents c f → f = cfg.fromBlock cursor

theorem blocked_idle (hredis : s.redis = cursor) (hjob : s.job = .idle) :
    Blocked cfg cursor s := by
  refine ⟨hredis, by rw [hjob]; rfl, fun c f hf => ?_⟩
  rw [hjob] at hf
  cases hf

/-- Only an answer of the node gets the scan past its fetch. -/
theorem blocked_sys (h : Blocked cfg cursor s) (hl : ∀ evs, l ≠ .pastEvents evs)
    (hstep : step cfg env s l = some s') : Blocked cfg cursor s' := by
  have hnot := h.notFetched
  cases step_scan hstep with
  | beside job redis =>
    refine ⟨redis.trans h.redis, job ▸ hnot, fun c f hf => ?_⟩
    exact h.fromBlock c f (job ▸ hf)
  | returns r _ _ c evs e rest at_ =>
    rw [at_] at hnot
    cases hnot
  | throws r _ _ job redis => exact blocked_idle (redis.trans h.redis) job
  | crashes job redis => exact blocked_idle (redis.trans h.redis) job
  | starts => exact ⟨h.redis, rfl, nofun⟩
  | tip => exact ⟨h.redis, rfl, nofun⟩
  | cursor c at_ =>
    refine ⟨h.redis, rfl, fun c' f hf => ?_⟩
    rw [← h.redis]
    exact (Job.getPastEvents.inj hf).2.symm
  | fetches c f evs => exact absurd rfl (hl evs)
  | calls c evs e rest at_ =>
    rw [at_] at hnot
    cases hnot
  | finishes c evs at_ =>
    rw [at_] at hnot
    cases hnot
  | stores c evs at_ =>
    rw [at_] at hnot
    cases hnot
  | fails => exact blocked_idle h.redis rfl

/-- Where `cursor` sends the scan below zero, no step moves it from there. -/
theorem blocked_step (hneg : cfg.fromBlock cursor < 0) (h : Blocked cfg cursor w.sys)
    (hstep : w.stepRefusing cfg a = some w') : Blocked cfg cursor w'.sys := by
  cases a with
  | grow blk =>
    obtain rfl := Option.some.inj hstep
    exact h
  | reorg depth blocks =>
    obtain ⟨_, rfl⟩ := World.step_reorg (step_of_refusing hstep)
    exact h
  | sys env l =>
    obtain ⟨_, s', hs', ⟨⟨evs, rfl⟩, rfl⟩ | ⟨hl, rfl⟩⟩ :=
      World.step_sys (step_of_refusing hstep)
    · -- The node would have to answer, but the block asked from is negative.
      have hreal := real_of_fetch hstep
      simp only [step] at hs'
      split at hs'
      · next c f hjob =>
        have hf := h.fromBlock c f hjob
        rw [hjob] at hreal
        have hasked : 0 ≤ f := hreal
        omega
      · cases hs'
    · exact blocked_sys h hl hs'

end Blocked

/-! ## Runs that get there -/

section Runs

variable (cfg : Config) {w : World} {c : Nat} {s' : Sys}

/-- A run without reorganisations, on a node that refuses negative blocks. -/
def Leads (w w' : World) : Prop := LeadsTo (World.stepRefusing cfg) Event.Grows w w'

/-- A node that has no receipts yet. -/
def pendingEnv : Env := { sampleEnv with getTransactionReceipt := fun _ => none }

/-- The node is asked for events. -/
def Label.fetches : Label → Bool
  | .pastEvents _ => true
  | _ => false

theorem leads_sys (l : Label) (hl : l.fetches = false) (hanswers : w.answers l = true)
    (hstep : step cfg pendingEnv w.sys l = some s') :
    ∃ w', Leads cfg w w' ∧ w'.sys = s' ∧ w'.chain = w.chain := by
  have hne : ∀ evs, l ≠ .pastEvents evs := by
    intro evs heq
    rw [heq] at hl
    cases hl
  exact ⟨{ w with sys := s' }, LeadsTo.head (a := .sys pendingEnv l) trivial
    (stepRefusing_sys hne hanswers hstep) LeadsTo.refl, rfl, rfl⟩

/-- From the idle scan a job gets to where it asks. -/
theorem leads_asking (hjob : w.sys.job = .idle) (htip : c + 1 = w.chain.length) :
    ∃ w', Leads cfg w w' ∧
      w'.sys = { w.sys with job := .getPastEvents c (cfg.fromBlock w.sys.redis) } ∧
      w'.chain = w.chain := by
  obtain ⟨w₁, hstarts, hsys₁, hchain₁⟩ := leads_sys cfg .jobStarts rfl rfl
    (show step cfg pendingEnv w.sys .jobStarts = some { w.sys with job := .getBlockNumber } from
      if_pos hjob)
  obtain ⟨w₂, htold, hsys₂, hchain₂⟩ := leads_sys cfg (.blockNumber c) rfl
    (decide_eq_true (hchain₁ ▸ htip))
    (show step cfg pendingEnv w₁.sys _ = some { w.sys with job := .redisGet c } by
      rw [hsys₁]
      simp only [step, if_true])
  obtain ⟨w₃, hreads, hsys₃, hchain₃⟩ := leads_sys cfg .redisGet rfl rfl
    (show step cfg pendingEnv w₂.sys _ =
        some { w.sys with job := .getPastEvents c (cfg.fromBlock w.sys.redis) } by
      rw [hsys₂]
      rfl)
  exact ⟨w₃, hstarts.trans (htold.trans hreads), hsys₃, hchain₃.trans (hchain₂.trans hchain₁)⟩

theorem leads_fetched {fromBlock : Int} (hjob : w.sys.job = .getPastEvents c fromBlock)
    (hreal : 0 ≤ fromBlock) : ∃ w' evs, Leads cfg w w' ∧
      w'.sys = { w.sys with job := .loop c evs evs } ∧ w'.chain = w.chain :=
  ⟨_, _, LeadsTo.head (a := .sys pendingEnv (.pastEvents _)) trivial
    (stepRefusing_fetch hjob hreal) LeadsTo.refl, rfl, rfl⟩

/-- Without a receipt the call the scan awaits returns after two steps. -/
theorem leads_returned {evs rest : List TransferEvent} {e : TransferEvent}
    (hjob : w.sys.job = .processTokenTransfer c evs e rest)
    (hruns : w.sys.runs = [⟨e, true, .findOne⟩]) : ∃ w', Leads cfg w w' ∧
      w'.sys.job = .loop c evs rest ∧ w'.sys.runs = [] ∧ w'.chain = w.chain := by
  let r : Run := ⟨e, true, .findOne⟩
  let r' : Run := ⟨e, true, .getTransactionReceipt (w.sys.db.transaction.findOne e.matches)⟩
  have hfinds : step cfg pendingEnv w.sys (.run r) = some { w.sys with runs := [r'] } := by
    simp only [step]
    rw [hruns, if_pos (List.mem_singleton_self r)]
    simp only [Run.resume, Lib.InFlight.resume, r, List.erase_cons_head, List.append_nil]
    rfl
  have hreturns : step cfg pendingEnv { w.sys with runs := [r'] } (.run r') =
      some { w.sys with
        runs := []
        job := .loop c evs rest
        history := .handled e :: w.sys.history } := by
    simp only [step]
    rw [if_pos (List.mem_singleton_self r')]
    simp only [Run.resume, pendingEnv, Sys.returned, hjob, r', if_true, List.erase_cons_head]
  obtain ⟨w₁, hfirst, hsys₁, hchain₁⟩ := leads_sys cfg (.run r) rfl rfl hfinds
  obtain ⟨w₂, hsecond, hsys₂, hchain₂⟩ := leads_sys cfg (.run r') rfl rfl (hsys₁ ▸ hreturns)
  refine ⟨w₂, hfirst.trans hsecond, ?_, ?_, hchain₂.trans hchain₁⟩
  · rw [hsys₂]
  · rw [hsys₂]

/-- The loop comes to its end, event by event. -/
theorem leads_redisSet {evs rest : List TransferEvent} (hjob : w.sys.job = .loop c evs rest)
    (hruns : w.sys.runs = []) :
    ∃ w', Leads cfg w w' ∧ w'.sys.job = .redisSet c evs ∧ w'.chain = w.chain := by
  induction rest generalizing w with
  | nil =>
    have hends : step cfg pendingEnv w.sys .nextEvent =
        some { w.sys with job := .redisSet c evs } := by
      simp only [step, hjob]
    obtain ⟨w₁, hled, hsys₁, hchain₁⟩ := leads_sys cfg .nextEvent rfl rfl hends
    exact ⟨w₁, hled, by rw [hsys₁], hchain₁⟩
  | cons e rest ih =>
    have hcalls : step cfg pendingEnv w.sys .nextEvent = some { w.sys with
        runs := [⟨e, true, .findOne⟩], job := .processTokenTransfer c evs e rest } := by
      simp only [step, hjob, hruns]
    obtain ⟨w₁, hcalled, hsys₁, hchain₁⟩ := leads_sys cfg .nextEvent rfl rfl hcalls
    obtain ⟨w₂, hreturned, hjob₂, hruns₂, hchain₂⟩ :=
      leads_returned cfg (w := w₁) (by rw [hsys₁]) (by rw [hsys₁])
    obtain ⟨w₃, hends, hjob₃, hchain₃⟩ := ih hjob₂ hruns₂
    exact ⟨w₃, hcalled.trans (hreturned.trans hends), hjob₃,
      hchain₃.trans (hchain₂.trans hchain₁)⟩

/-- A job that asks from a block there is stores the tip. -/
theorem leads_stored (hjob : w.sys.job = .idle) (hruns : w.sys.runs = [])
    (htip : c + 1 = w.chain.length) (hreal : 0 ≤ cfg.fromBlock w.sys.redis) :
    ∃ w', Leads cfg w w' ∧ w'.sys.job = .idle ∧ w'.sys.redis = some c ∧ w'.chain = w.chain := by
  obtain ⟨w₁, hasks, hsys₁, hchain₁⟩ := leads_asking cfg hjob htip
  obtain ⟨w₂, evs, hfetches, hsys₂, hchain₂⟩ :=
    leads_fetched cfg (w := w₁) (by rw [hsys₁]) hreal
  obtain ⟨w₃, hloop, hjob₃, hchain₃⟩ :=
    leads_redisSet cfg (w := w₂) (by rw [hsys₂]) (by rw [hsys₂, hsys₁]; exact hruns)
  have hstores : step cfg pendingEnv w₃.sys .redisSet = some { w₃.sys with
      redis := some c
      job := .idle
      history := .lastCheckedBlock c evs :: w₃.sys.history } := by
    simp only [step, hjob₃]
  obtain ⟨w₄, hstored, hsys₄, hchain₄⟩ := leads_sys cfg .redisSet rfl rfl hstores
  refine ⟨w₄, hasks.trans (hfetches.trans (hloop.trans hstored)), ?_, ?_,
    hchain₄.trans (hchain₃.trans (hchain₂.trans hchain₁))⟩
  · rw [hsys₄]
  · rw [hsys₄]

end Runs

/-! ## Whole runs -/

section Whole

variable {cfg : Config} {chain : List (List TransferEvent)} {db : Db}

/-- A chain with a tip, by a first block where there is none. -/
theorem leads_tip (cfg : Config) (chain : List (List TransferEvent)) (db : Db) :
    ∃ w, Leads cfg (World.start chain db) w ∧ w.sys = Sys.start db none ∧
      (chain.length - 1) + 1 = w.chain.length := by
  cases chain with
  | nil =>
    exact ⟨World.start [[]] db, LeadsTo.head (a := .grow []) trivial rfl LeadsTo.refl, rfl, rfl⟩
  | cons blk chain => exact ⟨World.start (blk :: chain) db, LeadsTo.refl, rfl, rfl⟩

/-- The first job asks from `startBlock - blockOffset`. -/
theorem startBlock_of_asks (hall : ∀ w, Leads cfg (World.start chain db) w → w.AsksRealBlock) :
    cfg.blockOffset ≤ cfg.startBlock := by
  obtain ⟨w₀, hled, hsys₀, htip⟩ := leads_tip cfg chain db
  obtain ⟨w₁, hasks, hsys₁, _⟩ := leads_asking cfg (w := w₀) (by rw [hsys₀]; rfl) htip
  have hreal := hall w₁ (hled.trans hasks) _ _ (by rw [hsys₁])
  rw [hsys₀] at hreal
  have hfrom : cfg.fromBlock (Sys.start db none).redis = cfg.startBlock - cfg.blockOffset := rfl
  omega

/-- The job after it asks from `blockOffset` below the tip the first one stored. -/
theorem length_of_asks (hoffset : 0 < cfg.blockOffset)
    (hall : ∀ w, Leads cfg (World.start chain db) w → w.AsksRealBlock) :
    cfg.blockOffset < chain.length := by
  have hstart := startBlock_of_asks hall
  obtain ⟨w₀, hled, hsys₀, htip⟩ := leads_tip cfg chain db
  have hfirst : 0 ≤ cfg.fromBlock w₀.sys.redis := by
    rw [hsys₀]
    show (0 : Int) ≤ cfg.startBlock - cfg.blockOffset
    omega
  obtain ⟨w₁, hstored, hjob₁, hredis₁, hchain₁⟩ :=
    leads_stored cfg (w := w₀) (by rw [hsys₀]; rfl) (by rw [hsys₀]; rfl) htip hfirst
  obtain ⟨w₂, hasks, hsys₂, _⟩ := leads_asking cfg hjob₁ (htip.trans (congrArg _ hchain₁.symm))
  have hreal := hall w₂ (hled.trans (hstored.trans hasks)) _ _ (by rw [hsys₂])
  rw [hredis₁] at hreal
  have hfrom : cfg.fromBlock (some (chain.length - 1)) =
      ((chain.length - 1 : Nat) : Int) - cfg.blockOffset := rfl
  omega

theorem asksRealBlock_run {w : World} (hstart : cfg.blockOffset ≤ cfg.startBlock)
    (hlength : cfg.blockOffset < chain.length) (h : Leads cfg (World.start chain db) w) :
    w.AsksRealBlock := by
  have hinv : Covers cfg w ∧ AboveOffset cfg w := by
    refine LeadsTo.invariant (P := fun w => Covers cfg w ∧ AboveOffset cfg w) ?_ h
      ⟨covers_start db, aboveOffset_start hlength⟩
    intro w a w' hw hstep
    have hworld := step_of_refusing hstep
    exact ⟨covers_step hw.1 hworld, aboveOffset_step hw.2 hworld⟩
  exact asksRealBlock_of_above hinv.1 hinv.2 hstart

theorem redis_run {w : World} (hbelow : cfg.startBlock < cfg.blockOffset)
    (h : Leads cfg (World.start chain db) w) : w.sys.redis = none := by
  have hneg : cfg.fromBlock none < 0 := by
    show (cfg.startBlock : Int) - cfg.blockOffset < 0
    omega
  have hblocked : Blocked cfg none w.sys :=
    LeadsTo.invariant (P := fun w => Blocked cfg none w.sys)
      (fun _ _ _ hw hstep => blocked_step hneg hw hstep) h (blocked_idle rfl rfl)
  exact hblocked.redis

end Whole

/-- Under every configuration with positive numbers, on a growing chain and from an empty
redis: all jobs of all runs ask from a block there is exactly when `blockOffset` is at most
`startBlock` and there is a block of that number from the start. With a greater offset no job
ever stores the cursor. -/
theorem rescan_asks_real_block (env : ProcessEnv) (cfg : Config) (hcfg : env.Configures cfg)
    (chain : List (List TransferEvent)) (db : Db) :
    ((∀ w, Leads cfg (World.start chain db) w → w.AsksRealBlock) ↔
      cfg.blockOffset ≤ cfg.startBlock ∧ cfg.blockOffset < chain.length) ∧
    (cfg.startBlock < cfg.blockOffset →
      ∀ w, Leads cfg (World.start chain db) w → w.sys.redis = none) := by
  constructor
  · constructor
    · intro hall
      exact ⟨startBlock_of_asks hall, length_of_asks hcfg.pos.2 hall⟩
    · intro hcond w hled
      exact asksRealBlock_run hcond.1 hcond.2 hled
  · intro hbelow w hled
    exact redis_run hbelow hled

/-- Without variables the offset is greater than the first block. -/
theorem rescan_asks_real_block_defaults :
    ¬ (∀ w, Leads ⟨1, 200⟩ (World.start [[], [sampleLog]] sampleDb) w → w.AsksRealBlock) ∧
      ∀ w, Leads ⟨1, 200⟩ (World.start [[], [sampleLog]] sampleDb) w → w.sys.redis = none := by
  obtain ⟨hiff, hblocked⟩ :=
    rescan_asks_real_block {} ⟨1, 200⟩ (by decide +kernel) [[], [sampleLog]] sampleDb
  exact ⟨fun hall => absurd (hiff.mp hall).1 (by decide), hblocked (by decide)⟩

/-- The first job on a chain of 300 blocks asks from block -199. -/
theorem first_rescan_below_zero :
    ProcessEnv.Configures {} ⟨1, 200⟩ ∧
      ∃ w, Leads ⟨1, 200⟩ (World.start (List.replicate 300 []) sampleDb) w ∧
        w.sys.job = .getPastEvents 299 (-199) ∧ ¬ w.AsksRealBlock := by
  have htip : 299 + 1 = (World.start (List.replicate 300 []) sampleDb).chain.length :=
    List.length_replicate.symm
  obtain ⟨w, hasks, hsys, _⟩ := leads_asking ⟨1, 200⟩ rfl htip
  have hjob : w.sys.job = .getPastEvents 299 (-199) := by
    rw [hsys]
    rfl
  refine ⟨by decide +kernel, w, hasks, hjob, fun hreal => ?_⟩
  exact absurd (hreal 299 (-199) hjob) (by decide)

end OlsDapp.Handler
