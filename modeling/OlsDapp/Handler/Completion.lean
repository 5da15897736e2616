import OlsDapp.Handler.Delivery
import OlsDapp.Handler.RealBlock
import OlsDapp.Handler.Rest

/-!
# A scan that is left alone delivers every deposit

Exactly-once delivery says what is true once the cursor covers a block and no effect is due. Both
come about by themselves: a scan that has begun and asks from a block there is, on a node and a
database that serve it, ends after so many steps in whatever order they are taken, with its cursor
at the tip and all effects done. From a negative block the node refuses and no scan ever ends.
-/

namespace OlsDapp.Handler

open Lib (Row Table)
open Lib.Chain (logsFrom)
open Lib.Machine (run Along Winds Goes LeadsTo)
open Token (Address)

section Definitions

/-- The node has a receipt for each log of the chain, and MySQL, not being strict, takes every value
into a numeric column. -/
structure Env.Serves (env : Env) (chain : List (List TransferEvent)) : Prop where
  receipts : ∀ data ∈ chain.flatten,
    env.getTransactionReceipt data.transactionHash = some ⟨true⟩
  columns : ∀ amount, (env.double amount).isSome

/-- The whole system on a node that refuses to answer from a negative block. -/
def Dapp.stepRefusing (cfg : Config) (text : Address → String) (deployer : Address) (d : Dapp) :
    Dapp.Event → Option Dapp
  | .mine block => d.step cfg text deployer (.mine block)
  | .sys env l =>
    if RpcType.http.allows l then
      (d.world.stepRefusing cfg (.sys env l)).map fun world => { d with world }
    else none

/-- A run in which no effect has been lost so far. -/
structure Underway (cfg : Config) (text : Address → String) (deployer : Address) (db : Db)
    (as : List Dapp.Event) (d : Dapp) : Prop where
  runs : run (Dapp.step cfg text deployer) (Dapp.start db) as = some d
  calls : (d.calls.map Executed.hash).Nodup
  receipts : ∀ env l, .sys env l ∈ as → ∀ data ∈ d.world.chain.flatten,
    (⟨env, l⟩ : Move).Gives data.transactionHash ⟨true⟩
  keeps : Along (Dapp.step cfg text deployer) Dapp.KeepsEffects (Dapp.start db) as

variable (chain : List (List TransferEvent))

/-- A step of the handler, which may fail. -/
def Dapp.Event.own : Dapp.Event → Prop
  | .mine _ => False
  | .sys _ l => l.own chain.flatten.length

/-- A step of the handler that does not fail, where it is served. -/
def Dapp.Event.served : Dapp.Event → Prop
  | .mine _ => False
  | .sys env l => env.Serves chain ∧ l.own chain.flatten.length ∧ l.fails = false

variable {chain}

/-- The handler is served and left alone until it can do no more. -/
structure LeftAlone (cfg : Config) (text : Address → String) (deployer : Address) (d : Dapp)
    (bs : List Dapp.Event) (d' : Dapp) : Prop where
  runs : run (Dapp.stepRefusing cfg text deployer) d bs = some d'
  served : ∀ e ∈ bs, e.served d.world.chain
  ends : ∀ e : Dapp.Event, e.served d.world.chain → d'.stepRefusing cfg text deployer e = none

/-- The scan asks from a block there is, and will ask from one. -/
structure AsksReal (cfg : Config) (s : Sys) : Prop where
  asks : ∀ c fromBlock, s.job = .getPastEvents c fromBlock → 0 ≤ fromBlock
  willAsk : s.job = .getBlockNumber ∨ (∃ c, s.job = .redisGet c) → 0 ≤ cfg.fromBlock s.redis

/-- The scan reads the tip, has read it or has stored it. -/
def AtTip (c : Nat) (s : Sys) : Prop :=
  s.job = .getBlockNumber ∨ s.job.currentBlock = some c ∨ (s.job = .idle ∧ s.redis = some c)

end Definitions

section Steps

variable {cfg : Config} {text : Address → String} {deployer : Address} {db : Db} {d d' : Dapp}
  {as bs : List Dapp.Event} {chain : List (List TransferEvent)} {env : Env} {l : Label}

theorem length_logsFrom_le (chain : List (List TransferEvent)) (b : Nat) :
    (logsFrom chain b).length ≤ chain.flatten.length :=
  (List.drop_sublist b chain).flatten.length_le

theorem own_of_event_served {e : Dapp.Event} (h : e.served chain) : e.own chain := by
  cases e with
  | mine block => exact h.elim
  | sys env l => exact h.2.1

/-- Every place has an environment that serves it. -/
theorem exists_serves (chain : List (List TransferEvent)) : ∃ env : Env, env.Serves chain :=
  ⟨⟨fun _ => some ⟨true⟩, fun _ => none, 0, false, some, some⟩, fun _ _ => rfl, fun _ => rfl⟩

theorem dapp_step_of_refusing {e : Dapp.Event}
    (h : d.stepRefusing cfg text deployer e = some d') :
    d.step cfg text deployer e = some d' := by
  cases e with
  | mine block => exact h
  | sys env l =>
    simp only [Dapp.stepRefusing, Option.ite_none_right_eq_some, Option.map_eq_some_iff] at h
    obtain ⟨hallows, world, hworld, rfl⟩ := h
    simp only [Dapp.step, if_pos hallows, step_of_refusing hworld, Option.map_some]

theorem dapp_refusing_of_asks (h : d.world.AsksRealBlock) (e : Dapp.Event) :
    d.stepRefusing cfg text deployer e = d.step cfg text deployer e := by
  cases e with
  | mine block => rfl
  | sys env l => simp only [Dapp.stepRefusing, Dapp.step, refusing_of_asks h]

/-- Until its end the scan asks from a block there is, if it does so at its begin. -/
theorem asksReal_step {n : Nat} {s s' : Sys} (h : AsksReal cfg s) (hown : l.own n)
    (hstep : step cfg env s l = some s') : AsksReal cfg s' := by
  have hpast {t : Sys} (hasks : ∀ c f, t.job ≠ .getPastEvents c f) (htip : t.job ≠ .getBlockNumber)
      (hcursor : ∀ c, t.job ≠ .redisGet c) : AsksReal cfg t := by
    refine ⟨fun c f hjob => absurd hjob (hasks c f), fun hbegun => ?_⟩
    rcases hbegun with hjob | ⟨c, hjob⟩
    · exact absurd hjob htip
    · exact absurd hjob (hcursor c)
  cases step_scan hstep with
  | beside job redis runs notes quiet history =>
    refine ⟨fun c f hjob => h.asks c f (job ▸ hjob), fun hbegun => ?_⟩
    rw [redis]
    exact h.willAsk (job ▸ hbegun)
  | returns r mem awaited c evs e rest at_ job redis runs notes quiet history =>
    refine hpast (fun c f hc => ?_) (fun hc => ?_) fun c hc => ?_ <;> rw [job] at hc <;> cases hc
  | throws r mem awaited job redis runs history =>
    refine hpast (fun c f hc => ?_) (fun hc => ?_) fun c hc => ?_ <;> rw [job] at hc <;> cases hc
  | crashes job redis runs history => exact hown.elim
  | starts at_ => exact hown.elim
  | tip c at_ =>
    exact ⟨fun c f hc => (by cases hc), fun _ => h.willAsk (Or.inl at_)⟩
  | cursor c at_ =>
    refine ⟨fun c' f hc => ?_, fun hbegun => ?_⟩
    · cases hc
      exact h.willAsk (Or.inr ⟨c, at_⟩)
    · rcases hbegun with hc | ⟨_, hc⟩ <;> cases hc
  | fetches c b evs at_ =>
    exact hpast (fun _ _ hc => (by cases hc)) (fun hc => (by cases hc)) fun _ hc => (by cases hc)
  | calls c evs e rest at_ =>
    exact hpast (fun _ _ hc => (by cases hc)) (fun hc => (by cases hc)) fun _ hc => (by cases hc)
  | finishes c evs at_ =>
    exact hpast (fun _ _ hc => (by cases hc)) (fun hc => (by cases hc)) fun _ hc => (by cases hc)
  | stores c evs at_ =>
    exact hpast (fun _ _ hc => (by cases hc)) (fun hc => (by cases hc)) fun _ hc => (by cases hc)
  | fails at_ =>
    exact hpast (fun _ _ hc => (by cases hc)) (fun hc => (by cases hc)) fun _ hc => (by cases hc)

/-- The state of a scan that is left alone. -/
def ScanGoes (cfg : Config) (chain : List (List TransferEvent)) (d : Dapp) : Prop :=
  Awaits d.world.sys ∧ AsksReal cfg d.world.sys ∧ d.world.chain = chain

theorem dapp_winds (cfg : Config) (text : Address → String) (deployer : Address)
    (chain : List (List TransferEvent)) : Winds (Dapp.stepRefusing cfg text deployer)
      (ScanGoes cfg chain) (Dapp.Event.own chain)
      (fun d => d.world.sys.weight chain.flatten.length) := by
  constructor
  · intro d e d' hinv hown hstep
    cases e with
    | mine block => exact hown.elim
    | sys env l =>
      obtain ⟨_, _, _, hchain, hsys⟩ := dapp_sys (dapp_step_of_refusing hstep)
      obtain ⟨hawaits, hasks, hsame⟩ := hinv
      exact ⟨awaits_step hawaits hsys, asksReal_step hasks hown hsys, hchain.trans hsame⟩
  · intro d e d' hinv hown hstep
    cases e with
    | mine block => exact hown.elim
    | sys env l =>
      obtain ⟨_, _, _, _, hsys⟩ := dapp_sys (dapp_step_of_refusing hstep)
      exact weight_falls hown hsys

/-- A step the handler can take is one of the whole system, when the answer is the chain's. -/
theorem dapp_step_isSome (hserved : l.served (d.world.chain.length - 1)
      (logsFrom d.world.chain d.world.sys.job.fromBlock.toNat))
    (hchain : d.world.chain ≠ []) (hstep : (step cfg env d.world.sys l).isSome) :
    (d.step cfg text deployer (.sys env l)).isSome := by
  have hpos := List.length_pos_of_ne_nil hchain
  have hallows : RpcType.http.allows l = true := by
    cases l with
    | deliver data => exact hserved.elim
    | _ => rfl
  have hanswers : d.world.answers l = true := by
    cases l with
    | blockNumber c =>
      obtain rfl : c = d.world.chain.length - 1 := hserved
      exact decide_eq_true (by omega)
    | pastEvents evs => exact decide_eq_true hserved
    | _ => rfl
  obtain ⟨s', hs'⟩ := Option.isSome_iff_exists.mp hstep
  simp only [Dapp.step, World.step, if_pos hallows, if_pos hanswers, hs', Option.map_some,
    Option.isSome_some]

theorem dapp_goes (cfg : Config) (text : Address → String) (deployer : Address)
    (hchain : chain ≠ []) : Goes (Dapp.stepRefusing cfg text deployer) (ScanGoes cfg chain)
      (Dapp.Event.served chain) (fun d => d.world.sys.Quiet) := by
  rintro d ⟨hawaits, hasks, rfl⟩ hquiet
  obtain ⟨env, henv⟩ := exists_serves d.world.chain
  obtain ⟨l, hserved, hsome⟩ := enabled_of_not_quiet cfg env (d.world.chain.length - 1)
    (logsFrom d.world.chain d.world.sys.job.fromBlock.toNat) hawaits hquiet
  refine ⟨.sys env l, ⟨henv, own_of_served hserved (length_logsFrom_le _ _),
    fails_of_served hserved⟩, ?_⟩
  rw [dapp_refusing_of_asks hasks.asks]
  exact dapp_step_isSome hserved hchain hsome

/-- When nothing is in flight no step is served. -/
theorem dapp_stuck {e : Dapp.Event} (hquiet : d.world.sys.Quiet) (h : e.served chain) :
    d.stepRefusing cfg text deployer e = none := by
  cases e with
  | mine block => exact h.elim
  | sys env l =>
    cases hstep : d.stepRefusing cfg text deployer (.sys env l) with
    | none => rfl
    | some d' =>
      obtain ⟨_, _, _, _, hsys⟩ := dapp_sys (dapp_step_of_refusing hstep)
      rw [stuck_of_quiet hquiet h.2.1 h.2.2] at hsys
      cases hsys

/-- A scan that does not fail ends with its cursor at the tip it has read. -/
theorem atTip_step {n c : Nat} {s s' : Sys} (h : AtTip c s) (hown : l.own n)
    (hfails : l.fails = false) (htip : ∀ c', l = .blockNumber c' → c' = c)
    (hstep : step cfg env s l = some s') : AtTip c s' := by
  have hread {c' : Nat} (hat : s.job.currentBlock = some c') : some c' = some c := by
    rcases h with hold | hold | ⟨hold, _⟩
    · rw [hold] at hat
      cases hat
    · exact hat.symm.trans hold
    · rw [hold] at hat
      cases hat
  cases step_scan hstep with
  | beside job redis runs notes quiet history =>
    unfold AtTip
    rw [job, redis]
    exact h
  | returns r mem awaited c' evs e rest at_ job redis runs notes quiet history =>
    refine Or.inr (Or.inl ?_)
    rw [job]
    exact hread (by rw [at_]; rfl)
  | throws r mem awaited job redis runs history => cases hfails
  | crashes job redis runs history => exact hown.elim
  | starts at_ => exact hown.elim
  | tip c' at_ => exact Or.inr (Or.inl (congrArg some (htip c' rfl)))
  | cursor c' at_ => exact Or.inr (Or.inl (hread (by rw [at_]; rfl)))
  | fetches c' b evs at_ => exact Or.inr (Or.inl (hread (by rw [at_]; rfl)))
  | calls c' evs e rest at_ => exact Or.inr (Or.inl (hread (by rw [at_]; rfl)))
  | finishes c' evs at_ => exact Or.inr (Or.inl (hread (by rw [at_]; rfl)))
  | stores c' evs at_ => exact Or.inr (Or.inr ⟨rfl, hread (by rw [at_]; rfl)⟩)
  | fails at_ => cases hfails

/-- What a served step keeps: the chain and its calls, and the scan at the tip. -/
theorem served_run (hbs : run (Dapp.step cfg text deployer) d bs = some d')
    (hserved : ∀ e ∈ bs, e.served d.world.chain)
    (htip : AtTip (d.world.chain.length - 1) d.world.sys) :
    d'.calls = d.calls ∧ d'.world.chain = d.world.chain ∧
      AtTip (d.world.chain.length - 1) d'.world.sys := by
  let P (t : Dapp) : Prop := t.calls = d.calls ∧ t.world.chain = d.world.chain ∧
    AtTip (d.world.chain.length - 1) t.world.sys
  refine Lib.Machine.run_induction_mem (P := P) (fun t e t' hp hlabel hstep => ?_)
    ⟨rfl, rfl, htip⟩ hserved hbs
  obtain ⟨hcalls, hchain, hat⟩ := hp
  cases e with
  | mine block => exact hlabel.elim
  | sys env l =>
    obtain ⟨_, hown, hfails⟩ := hlabel
    obtain ⟨_, hanswers, hcalls', hchain', hsys⟩ := dapp_sys hstep
    refine ⟨hcalls'.trans hcalls, hchain'.trans hchain, atTip_step hat hown hfails ?_ hsys⟩
    rintro c rfl
    have hc : c + 1 = t.world.chain.length := of_decide_eq_true hanswers
    rw [← hchain]
    omega

/-- A served step loses no effect. -/
theorem keeps_of_served {e : Dapp.Event} (h : e.served chain) : d.KeepsEffects e := by
  cases e with
  | mine block => exact h.elim
  | sys env l =>
    obtain ⟨hserves, hown, hfails⟩ := h
    cases l with
    | effect e =>
      show e.kept env = true
      unfold Effect.kept
      split
      · next user amount _ =>
        obtain ⟨a, ha⟩ := Option.isSome_iff_exists.mp (hserves.columns
          (addUserCoin user.val e.tx.val.type amount).amount)
        obtain ⟨c, hc⟩ := Option.isSome_iff_exists.mp (hserves.columns
          (addUserCoin user.val e.tx.val.type amount).charge_amount)
        obtain ⟨w, hw⟩ := Option.isSome_iff_exists.mp (hserves.columns
          (addUserCoin user.val e.tx.val.type amount).draw_amount)
        exact Option.isSome_iff_exists.mpr ⟨_, stored_eq_some.mpr ⟨a, c, w, ha, hc, hw, rfl⟩⟩
      · rfl
    | effectFails e => cases hfails
    | crash => exact hown.elim
    | _ => trivial

theorem LeftAlone.dapp_runs (h : LeftAlone cfg text deployer d bs d') :
    run (Dapp.step cfg text deployer) d bs = some d' :=
  Lib.Machine.run_of_step (fun _ _ _ => dapp_step_of_refusing) h.runs

/-- A run that is under way, and then is left alone, has not been disturbed. -/
theorem Underway.undisturbed (h : Underway cfg text deployer db as d)
    (hbs : LeftAlone cfg text deployer d bs d') (hchain : d'.world.chain = d.world.chain)
    (hcalls : d'.calls = d.calls) (hquiet : d'.world.sys.Quiet) :
    Undisturbed cfg text deployer db (as ++ bs) d' := by
  refine ⟨Lib.Machine.run_append_eq_some.mpr ⟨d, h.runs, hbs.dapp_runs⟩, hcalls ▸ h.calls,
    fun env l hmem data hdata => ?_, Lib.Machine.along_append h.keeps fun t ht => ?_,
    fun e he => ?_⟩
  · rw [hchain] at hdata
    rcases List.mem_append.mp hmem with hold | hnew
    · exact h.receipts env l hold data hdata
    · exact Or.inl ((hbs.served _ hnew).1.receipts data hdata)
  · exact Lib.Machine.along_mono (fun t e hg => keeps_of_served hg.1)
      (Lib.Machine.along_and_mem hbs.served (Lib.Machine.along_trivial t bs))
  · rw [hquiet.effects] at he
    exact absurd he List.not_mem_nil

theorem awaits_dapp (hrun : run (Dapp.step cfg text deployer) (Dapp.start db) as = some d) :
    Awaits d.world.sys := by
  obtain ⟨ms, hms, _⟩ := dapp_moves_all hrun
  exact awaits_run hms

end Steps

/-- The transfer of the sample and a block above it are mined, and a scan begins. -/
def sampleBegun : List Dapp.Event :=
  [.mine [sampleExecuted], .mine [], .sys sampleEnv .jobStarts]

end OlsDapp.Handler
