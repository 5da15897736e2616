import OlsDapp.Handler.Backing
import OlsDapp.Handler.Calldata
import OlsDapp.Handler.Coverage
import OlsDapp.Handler.Polling
import OlsDapp.Token.EventLog

/-!
# The stored balances are backed by tokens

The contract, the chain its logs are on and the handler that scans them, as one system: blocks
are mined at any time, the handler steps, fails and crashes at any time. Without a subscription
every credit is the first of its key, and every key is one of the chain, so what a wallet is
credited is at most what `Transfer` events moved to its address.
-/

namespace OlsDapp.Handler

open Lib (Row Table)
open Lib.Machine (run Along)
open Token (Address)

section Definitions

/-- A call of the contract in a block, with the hash of its transaction. -/
structure Executed where
  hash : String
  msg : Token.Msg
  deriving DecidableEq

/-- The events of the calls that do not revert, each with the hash of its transaction. -/
def emitted : Token.Storage → List Executed → List (String × Token.Event)
  | _, [] => []
  | s, c :: cs =>
    match Token.call s c.msg with
    | some (s', es) => es.map (Prod.mk c.hash) ++ emitted s' cs
    | none => emitted s cs

/-- A `Transfer` event as web3 delivers it. -/
def transferLog (text : Address → String) (blockNumber logIndex : Nat) (hash : String) :
    Token.Event → Option TransferEvent
  | .transfer from_ to_ value =>
    some ⟨hash, logIndex, blockNumber, text from_, text to_, value.toNat⟩
  | _ => none

def blockLogs (text : Address → String) (blockNumber : Nat) (es : List (String × Token.Event)) :
    List TransferEvent :=
  es.zipIdx.filterMap fun x => transferLog text blockNumber x.2 x.1.1 x.1.2

/-- The values of the `Transfer` events to an address. -/
def deposits (a : Address) (es : List Token.Event) : List Nat :=
  es.filterMap fun
    | .transfer _ to_ value => if to_ = a then some value.toNat else none
    | _ => none

/-- All calls of the contract so far, and the handler on the chain of their logs. -/
structure Dapp where
  calls : List Executed
  world : World

namespace Dapp

inductive Event where
  | mine (block : List Executed)
  | sys (env : Env) (l : Label)

def start (db : Db) : Dapp := ⟨[], World.start [] db⟩

/-- The contract as `deployer` has deployed it, after all calls. -/
def storage (deployer : Address) (d : Dapp) : Token.Storage :=
  Token.run (Token.MyToken.deploy deployer) (d.calls.map Executed.msg)

def step (cfg : Config) (text : Address → String) (deployer : Address) (d : Dapp) :
    Event → Option Dapp
  | .mine block =>
    let logs := blockLogs text d.world.chain.length (emitted (d.storage deployer) block)
    some ⟨d.calls ++ block, { d.world with chain := d.world.chain ++ [logs] }⟩
  | .sys env l =>
    if RpcType.http.allows l then
      (d.world.step cfg (.sys env l)).map fun world => { d with world }
    else none

/-- The events of the contract so far. -/
def events (deployer : Address) (d : Dapp) : List Token.Event :=
  Token.EventLog.events
    (Token.EventLog.journal (Token.MyToken.deploy deployer) (d.calls.map Executed.msg))

end Dapp

/-- The logs a wallet was credited for. -/
def creditedLogs (u : Nat) (history : List Note) : List TransferEvent :=
  history.filterMap fun
    | .addUserCoin data user _ => if user = u then some data else none
    | _ => none

end Definitions

section Chain

variable {text : Address → String} {deployer a : Address} {ε : ℚ}

theorem emitted_append (s : Token.Storage) (cs cs' : List Executed) :
    emitted s (cs ++ cs') = emitted s cs ++ emitted (Token.run s (cs.map Executed.msg)) cs' := by
  induction cs generalizing s with
  | nil => rfl
  | cons c cs ih =>
    have hrun : Token.run s ((c :: cs).map Executed.msg) =
        Token.run (Token.exec s c.msg) (cs.map Executed.msg) := rfl
    rw [List.cons_append, hrun]
    cases hcall : Token.call s c.msg with
    | none =>
      have hexec : Token.exec s c.msg = s := by rw [Token.exec, hcall]
      rw [emitted, emitted, hcall, hexec]
      exact ih s
    | some r =>
      have hexec : Token.exec s c.msg = r.1 := by rw [Token.exec, hcall]
      rw [emitted, emitted, hcall, hexec]
      dsimp only
      rw [ih r.1, List.append_assoc]

theorem emitted_events (s : Token.Storage) (cs : List Executed) :
    (emitted s cs).map Prod.snd =
      Token.EventLog.events (Token.EventLog.journal s (cs.map Executed.msg)) := by
  induction cs generalizing s with
  | nil => rfl
  | cons c cs ih =>
    rw [List.map_cons]
    unfold emitted Token.EventLog.journal
    cases Token.call s c.msg with
    | none => exact ih s
    | some r =>
      dsimp only
      rw [List.map_append, ih r.1, List.map_map]
      show r.2.map id ++ _ = _
      rw [List.map_id]
      rfl

/-- What a log adds to the wallet of the address. -/
def logWorth (ε : ℚ) (address : String) (data : TransferEvent) : ℚ :=
  if data.to_ = address then fromWei data.value + ε else 0

def eventWorth (ε : ℚ) (a : Address) : Token.Event → ℚ
  | .transfer _ to_ value => if to_ = a then fromWei value.toNat + ε else 0
  | _ => 0

theorem logWorth_nonneg (hε : 0 ≤ ε) (address : String) (data : TransferEvent) :
    0 ≤ logWorth ε address data := by
  unfold logWorth
  split
  · have hwei := fromWei_nonneg data.value
    linarith
  · exact le_refl 0

/-- The logs of a block are worth what its events are. -/
theorem blockLogs_worth (hinj : Function.Injective text) (n : Nat)
    (es : List (String × Token.Event)) :
    ((blockLogs text n es).map (logWorth ε (text a))).sum =
      ((es.map Prod.snd).map (eventWorth ε a)).sum := by
  have hlog (x : (String × Token.Event) × Nat) : eventWorth ε a x.1.2 =
      ((transferLog text n x.2 x.1.1 x.1.2).map (logWorth ε (text a))).getD 0 := by
    cases x.1.2 with
    | transfer from_ to_ value =>
      show (if to_ = a then _ else _) = if text to_ = text a then _ else _
      simp only [hinj.eq_iff]
    | approval | burn | ownershipTransferred => rfl
  unfold blockLogs
  rw [← Lib.Tally.sum_filterMap es.zipIdx fun x _ => hlog x, List.map_map]
  conv_rhs => rw [← List.zipIdx_map_fst 0 es, List.map_map]
  rfl

theorem deposits_worth (es : List Token.Event) :
    (es.map (eventWorth ε a)).sum = ((deposits a es).map fun v => fromWei v + ε).sum := by
  unfold deposits
  refine Lib.Tally.sum_filterMap es fun e _ => ?_
  cases e with
  | transfer from_ to_ value =>
    unfold eventWorth
    dsimp only
    split <;> rfl
  | approval | burn | ownershipTransferred => rfl

end Chain

section Simulation

variable {cfg : Config} {text : Address → String} {deployer a : Address} {ε : ℚ} {d d' : Dapp}
  {as : List Dapp.Event} {db : Db}

theorem logsFrom_subset (chain : List (List TransferEvent)) (n : Nat) :
    Lib.Chain.logsFrom chain n ⊆ chain.flatten := by
  intro data hdata
  obtain ⟨block, hblock, hmem⟩ := List.mem_flatten.mp hdata
  exact List.mem_flatten.mpr ⟨block, List.mem_of_mem_drop hblock, hmem⟩

/-- The logs a scan is given are on the chain. -/
theorem logs_on_chain {w : World} {l : Label} (hl : RpcType.http.allows l = true)
    (hanswers : w.answers l = true) : l.logs ⊆ w.chain.flatten := by
  cases l with
  | deliver data => exact absurd hl Bool.false_ne_true
  | pastEvents evs =>
    have hevs : evs = Lib.Chain.logsFrom w.chain w.sys.job.fromBlock.toNat :=
      of_decide_eq_true hanswers
    show evs ⊆ _
    rw [hevs]
    exact logsFrom_subset _ _
  | _ => exact List.nil_subset _

/-- A step of the handler in the whole system. -/
theorem dapp_sys {env : Env} {l : Label} (h : d.step cfg text deployer (.sys env l) = some d') :
    RpcType.http.allows l = true ∧ d.world.answers l = true ∧ d'.calls = d.calls ∧
      d'.world.chain = d.world.chain ∧ Handler.step cfg env d.world.sys l = some d'.world.sys := by
  simp only [Dapp.step, Option.ite_none_right_eq_some, Option.map_eq_some_iff] at h
  obtain ⟨hl, world, hworld, rfl⟩ := h
  obtain ⟨hanswers, s', hs', ⟨_, rfl⟩ | ⟨_, rfl⟩⟩ := World.step_sys hworld
  · exact ⟨hl, hanswers, rfl, rfl, hs'⟩
  · exact ⟨hl, hanswers, rfl, rfl, hs'⟩

/-- The handler of a run of the whole system makes a run of its own, on logs of the chain. -/
theorem dapp_moves {G : Sys → Move → Prop}
    (hG : Along (Dapp.step cfg text deployer)
      (fun d e => ∀ env l, e = .sys env l → G d.world.sys ⟨env, l⟩) d as)
    (hrun : run (Dapp.step cfg text deployer) d as = some d') :
    d.world.chain.flatten ⊆ d'.world.chain.flatten ∧
      ∃ ms, run (next cfg) d.world.sys ms = some d'.world.sys ∧
        Along (next cfg) G d.world.sys ms ∧
          ∀ m ∈ ms, .sys m.env m.label ∈ as ∧ RpcType.http.allows m.label = true ∧
            m.label.logs ⊆ d'.world.chain.flatten := by
  induction as generalizing d with
  | nil =>
    cases hrun
    exact ⟨List.Subset.refl _, [], rfl, trivial, List.forall_mem_nil _⟩
  | cons e as ih =>
    obtain ⟨t, ht, hrest⟩ := Lib.Machine.run_cons_eq_some.mp hrun
    obtain ⟨hhead, htail⟩ := hG
    obtain ⟨hchain, ms, hms, halong, hall⟩ := ih (htail t ht) hrest
    cases e with
    | mine block =>
      obtain rfl := Option.some.inj ht
      refine ⟨List.Subset.trans ?_ hchain, ms, hms, halong, fun m hm => ?_⟩
      · intro data hdata
        exact List.mem_flatten.mpr ((List.mem_flatten.mp hdata).imp fun _ hb =>
          ⟨List.mem_append_left _ hb.1, hb.2⟩)
      · exact ⟨List.mem_cons_of_mem _ (hall m hm).1, (hall m hm).2⟩
    | sys env l =>
      obtain ⟨hl, hanswers, _, hsame, hstep⟩ := dapp_sys ht
      rw [hsame] at hchain
      refine ⟨hchain, ⟨env, l⟩ :: ms, Lib.Machine.run_cons_eq_some.mpr ⟨_, hstep, hms⟩, ?_, ?_⟩
      · refine ⟨hhead env l rfl, fun s' hs' => ?_⟩
        obtain rfl := Option.some.inj (hstep.symm.trans hs')
        exact halong
      · refine List.forall_mem_cons.mpr ⟨⟨List.mem_cons_self, hl, ?_⟩, fun m hm => ?_⟩
        · exact List.Subset.trans (logs_on_chain hl hanswers) hchain
        · exact ⟨List.mem_cons_of_mem _ (hall m hm).1, (hall m hm).2⟩

/-- The handler's part of a run of which nothing is asked. -/
theorem dapp_moves_all (hrun : run (Dapp.step cfg text deployer) d as = some d') :
    ∃ ms, run (next cfg) d.world.sys ms = some d'.world.sys ∧
      ∀ m ∈ ms, .sys m.env m.label ∈ as ∧ RpcType.http.allows m.label = true ∧
        m.label.logs ⊆ d'.world.chain.flatten := by
  obtain ⟨_, ms, hms, _, hall⟩ := dapp_moves (G := fun _ _ => True)
    (Lib.Machine.along_mono (fun _ _ _ _ _ _ => trivial) (Lib.Machine.along_trivial d as)) hrun
  exact ⟨ms, hms, hall⟩

/-- The logs of the chain are worth what the events of the contract are. -/
theorem chain_worth (hinj : Function.Injective text)
    (hrun : run (Dapp.step cfg text deployer) (Dapp.start db) as = some d) :
    (d.world.chain.flatten.map (logWorth ε (text a))).sum =
      ((deposits a (d.events deployer)).map fun v => fromWei v + ε).sum := by
  let P (d : Dapp) : Prop := (d.world.chain.flatten.map (logWorth ε (text a))).sum =
    (((emitted (Token.MyToken.deploy deployer) d.calls).map Prod.snd).map (eventWorth ε a)).sum
  have h : P d := by
    refine Lib.Machine.run_invariant (P := P) (fun d e d' hp hstep => ?_) rfl hrun
    cases e with
    | mine block =>
      obtain rfl := Option.some.inj hstep
      show ((d.world.chain ++ [_]).flatten.map _).sum = _
      rw [List.flatten_append, List.flatten_singleton, Lib.Tally.sum_map_append,
        blockLogs_worth hinj, show _ = _ from hp, emitted_append, List.map_append,
        Lib.Tally.sum_map_append]
      rfl
    | sys env l =>
      obtain ⟨_, _, hcalls, hchain, _⟩ := dapp_sys hstep
      show (d'.world.chain.flatten.map _).sum = _
      rw [hchain, hcalls]
      exact hp
  rw [show _ = _ from h, emitted_events, deposits_worth]
  rfl

end Simulation

section Credits

variable {D : TransferEvent → Prop} {receipts : Receipts} {db : Db} {ε : ℚ} {u : Nat}
  {history : List Note} {s : Sys}

/-- The database has no pending row, so amounts come from logs alone. -/
def NoPending (db : Db) : Prop := ∀ row ∈ db.transaction.rows, row.val.status ≠ .pending

theorem amounts_own (h : NoPending db) {data : TransferEvent} {amount : Amount}
    (hamount : data.Amounts db amount) : amount = .num (fromWei data.value) := by
  rcases hamount with heq | ⟨row, hrow, hpending, _⟩
  · exact heq
  · exact absurd hpending (h row hrow)

theorem called_eq (h : NoPending db) (hnotes : ∀ n ∈ history, n.Vouched D receipts db) :
    called ε u history = ((creditedLogs u history).map fun data => fromWei data.value + ε).sum := by
  unfold called creditedLogs
  refine Lib.Tally.sum_filterMap history fun n hn => ?_
  cases n with
  | addUserCoin data user amount =>
    obtain ⟨_, _, _, hamount⟩ := hnotes _ hn
    rw [amounts_own h hamount]
    show (if user = u then _ else _) = _
    rw [max_eq_left (fromWei_nonneg data.value)]
    dsimp only
    split <;> rfl
  | _ => rfl

theorem mem_creditedLogs {data : TransferEvent} (h : data ∈ creditedLogs u history) :
    ∃ amount, .addUserCoin data u amount ∈ history := by
  obtain ⟨n, hn, heq⟩ := List.mem_filterMap.mp h
  cases n with
  | addUserCoin data' user amount =>
    dsimp only at heq
    split at heq
    · next hid =>
      obtain rfl := Option.some.inj heq
      exact ⟨amount, hid ▸ hn⟩
    · cases heq
  | _ => cases heq

/-- No log is credited twice when no key is. -/
theorem creditedLogs_nodup (h : ∀ d, s.creditsOf d ≤ 1) : (creditedLogs u s.history).Nodup := by
  refine Lib.Tally.nodup_of_countP (fun d data => decide (data.SameKey d))
    (fun a => decide_eq_true ⟨rfl, rfl, rfl⟩) fun d => le_trans ?_ (h d)
  unfold creditedLogs Sys.creditsOf
  rw [List.countP_filterMap]
  apply List.countP_mono_left
  intro n _ hn
  cases n with
  | addUserCoin data user amount =>
    dsimp only at hn
    split at hn
    · exact hn
    · cases hn
  | _ => cases hn

/-- The credited logs of a wallet are worth at most the logs to its address on the chain. -/
theorem called_le_chain {chain : List TransferEvent} {user : Row UOlsWallet} {address : String}
    (hε : 0 ≤ ε) (hpending : NoPending db) (hnotes : ∀ n ∈ s.history,
      n.Vouched (· ∈ chain) receipts db) (hcredits : ∀ d, s.creditsOf d ≤ 1)
    (huser : user ∈ db.uOlsWallet.rows) (haddress : user.val.eth_address = some address) :
    called ε user.id s.history ≤ (chain.map (logWorth ε address)).sum := by
  have hlog {data : TransferEvent} (hdata : data ∈ creditedLogs user.id s.history) :
      data ∈ chain ∧ data.to_ = address := by
    obtain ⟨amount, hn⟩ := mem_creditedLogs hdata
    obtain ⟨⟨hchain, _⟩, _, howner, _⟩ := hnotes _ hn
    obtain ⟨row, hrow, hid⟩ := Option.map_eq_some_iff.mp howner
    obtain ⟨hmem, hto⟩ := Table.mem_of_findOne hrow
    obtain rfl := Table.eq_of_id_eq hmem huser hid
    have hsame := haddress.symm.trans (of_decide_eq_true hto)
    exact ⟨hchain, (Option.some.inj hsame).symm⟩
  have hworth : ((creditedLogs user.id s.history).map fun data => fromWei data.value + ε) =
      (creditedLogs user.id s.history).map (logWorth ε address) :=
    List.map_congr_left fun data hdata => (if_pos (hlog hdata).2).symm
  rw [called_eq hpending hnotes, hworth]
  exact Lib.Tally.sum_map_le_of_nodup (logWorth_nonneg hε address)
    (creditedLogs_nodup hcredits) fun data hdata => (hlog hdata).1

end Credits

/-- Over HTTP and on a chain that is not reorganised, in every run of the contract, the chain and
the handler with its failures and crashes: what a deposit column of a wallet holds is at most
what it held and what `Transfer` events of the contract moved to its address, up to the error of
the column for each of them. -/
theorem balances_backed (cfg : Config) (text : Address → String)
    (hinj : Function.Injective text) (deployer : Address) (db : Db) (hpending : NoPending db)
    (double : Amount → Option Amount) (ε : ℚ) (hcolumn : Column double ε)
    (as : List Dapp.Event) (hdouble : ∀ env l, .sys env l ∈ as → env.double = double) (d : Dapp)
    (hrun : run (Dapp.step cfg text deployer) (Dapp.start db) as = some d)
    (user : Row UOlsWallet) (huser : user ∈ db.uOlsWallet.rows) (a : Address)
    (haddress : user.val.eth_address = some (text a)) (b : Book) (x₀ : ℚ)
    (hstart : Holds double b x₀ user.val) :
    ∀ row ∈ d.world.sys.db.uOlsWallet.rows, row.id = user.id →
      Holds double b (x₀ + ((deposits a (d.events deployer)).map fun v => fromWei v + ε).sum)
        row.val := by
  obtain ⟨ms, hms, hall⟩ := dapp_moves_all hrun
  have hvouches : Vouches (· ∈ d.world.chain.flatten) (fun _ _ => True) db d.world.sys :=
    vouches_run (fun m hm => ⟨fun data hdata => (hall m hm).2.2 hdata, fun _ _ _ => trivial⟩) hms
  have hcredits (k : TransferEvent) : d.world.sys.creditsOf k ≤ 1 := by
    have hpolled := (polled_run (fun m hm => (hall m hm).2.1) hms k).oneStart
    have hbudget := hpolled.credits
    have hstarts := hpolled.starts
    omega
  have hcovered : Covered double ε b user.id x₀ d.world.sys := by
    refine covered_run hcolumn (fun m hm => hdouble _ _ (hall m hm).1) ?_ ?_ hms
    · exact fun row hrow hst => absurd hst (hpending row hrow)
    · intro row hrow hid
      rw [Table.eq_of_id_eq hrow huser hid]
      exact hstart
  have hbound : called ε user.id d.world.sys.history ≤
      ((deposits a (d.events deployer)).map fun v => fromWei v + ε).sum := by
    rw [← chain_worth hinj hrun]
    exact called_le_chain hcolumn.error hpending hvouches.notes hcredits huser haddress
  intro row hrow hid
  exact (hcovered.table row hrow hid).mono (by linarith)

section Samples

def sampleMember : UOlsWallet := ⟨some 1, some (addressText 0x11), .num 0, .num 0, .num 0⟩

/-- The wallet of a member with the address `0x11`. -/
def sampleMemberDb : Db := { sampleDb with uOlsWallet := Table.empty.insert sampleMember }

/-- The log of a transfer of one token from `0x10` to the member. -/
def sampleTransferLog : TransferEvent := ⟨"h", 0, 0, addressText 0x10, addressText 0x11, 10 ^ 18⟩

/-- A block with the transfer, and a scan that credits it. -/
def sampleDappRun : List Dapp.Event :=
  .mine [⟨"h", ⟨0x10, .transfer 0x11 (10 ^ 18)⟩⟩] ::
    (sampleScanTo 0 sampleTransferLog ++ sampleReads sampleTransferLog 1 ++
      sampleSaves sampleTransferLog 1 ⟨1, sampleMember⟩).map (.sys sampleEnv)

theorem balances_backed_one_token : ∃ d,
    run (Dapp.step sampleConfig addressText 0x10) (Dapp.start sampleMemberDb) sampleDappRun =
        some d ∧
      d.world.sys.db.uOlsWallet.rows.map (·.val.charge_amount) = [.num 1] ∧
        ∀ row ∈ d.world.sys.db.uOlsWallet.rows, row.id = 1 →
          Holds sampleEnv.double .charge_amount
            (0 + ((deposits 0x11 (d.events 0x10)).map fun v => fromWei v + 0).sum) row.val := by
  have h : (run (Dapp.step sampleConfig addressText 0x10) (Dapp.start sampleMemberDb)
      sampleDappRun).any (fun d => d.world.sys.db.uOlsWallet.rows.map (·.val.charge_amount) =
        [.num 1]) = true := by
    decide +kernel
  obtain ⟨d, hd, hcharge⟩ := (Option.any_eq_true _ _).mp h
  refine ⟨d, hd, of_decide_eq_true hcharge, ?_⟩
  refine balances_backed sampleConfig addressText addressText_injective 0x10 sampleMemberDb
    (fun _ h => absurd h List.not_mem_nil) sampleEnv.double 0 sampleColumn sampleDappRun ?_ d hd
    ⟨1, sampleMember⟩ (List.mem_singleton_self _) 0x11 rfl .charge_amount 0
    ⟨rfl, 0, rfl, le_refl 0, le_refl 0⟩
  intro env l hmem
  rcases List.mem_cons.mp hmem with hc | hmem
  · cases hc
  · obtain ⟨l', _, heq⟩ := List.mem_map.mp hmem
    cases heq
    rfl

end Samples

end OlsDapp.Handler
