import OlsDapp.Handler.Crash
import OlsDapp.Handler.Solvency

/-!
# The deposits of the chain arrive exactly once

The cursor says which blocks the scans have handed over, the settled row of a log that its effect
has been started, and the notes which effects have saved their wallet. Over HTTP, and as long as no
effect is lost on its way, the credits of a wallet for the blocks below the cursor are the deposits
to its address in them, none twice and none with another amount.
-/

namespace OlsDapp.Handler

open Lib (Row Table)
open Lib.Chain (block)
open Lib.Machine (run Along)
open Token (Address)

section Definitions

/-- The logs a wallet was saved for, with the amounts. -/
def credits (u : Nat) (history : List Note) : List (TransferEvent × Amount) :=
  history.filterMap fun
    | .credited data user amount => if user = u then some (data, amount) else none
    | _ => none

/-- The block of the log lies as far below the cursor as the scans reach back. -/
def Config.covers (cfg : Config) (cursor : Nat) (data : TransferEvent) : Bool :=
  cfg.firstBlock ≤ data.blockNumber ∧ data.blockNumber + cfg.blockOffset ≤ cursor

/-- The log moves tokens to the address and is not the manager's. -/
def Db.isDeposit (db : Db) (address : String) (data : TransferEvent) : Bool :=
  data.to_ = address ∧ db.managerAddress ≠ some data.from_

/-- No crash, failed await or refused save takes away an effect before its wallet is saved. -/
def Dapp.KeepsEffects (d : Dapp) : Dapp.Event → Prop
  | .mine _ => True
  | .sys env l => Spares (fun e => e.pc.uncredited) (fun e => e.kept env = true) d.world.sys l

instance (d : Dapp) : (e : Dapp.Event) → Decidable (d.KeepsEffects e)
  | .mine _ => isTrue trivial
  | .sys _ _ => inferInstanceAs (Decidable (Spares _ _ _ _))

/-- A run of the whole system in which no transaction fails and no effect is lost. -/
structure Undisturbed (cfg : Config) (text : Address → String) (deployer : Address) (db : Db)
    (as : List Dapp.Event) (d : Dapp) : Prop where
  runs : run (Dapp.step cfg text deployer) (Dapp.start db) as = some d
  /-- Every call of the contract is a transaction of its own. -/
  calls : (d.calls.map Executed.hash).Nodup
  receipts : ∀ env l, .sys env l ∈ as → ∀ data ∈ d.world.chain.flatten,
    (⟨env, l⟩ : Move).Gives data.transactionHash ⟨true⟩
  keeps : Along (Dapp.step cfg text deployer) Dapp.KeepsEffects (Dapp.start db) as
  done : ∀ e ∈ d.world.sys.effects, e.pc.uncredited = false

/-- No row of the table is a token transfer. -/
def NoTokenRows (db : Db) : Prop := ∀ row ∈ db.transaction.rows, row.val.type ≠ .ols

variable (d : TransferEvent)

/-- A wallet was saved for the log. -/
def Note.savedFor : Note → Bool
  | .credited data _ _ => data.SameKey d
  | _ => false

/-- The effect holds the wallet it saves for the log. -/
def Effect.charging (e : Effect) : Bool :=
  match e.pc with
  | .addUserCoin _ _ => e.data.SameKey d
  | _ => false

def Sys.savesOf (s : Sys) : Nat := s.history.countP (Note.savedFor d)

/-- Every save of a wallet was noted when the wallet was read. -/
def Charged (s : Sys) : Prop :=
  s.savesOf d + s.effects.countP (Effect.charging d) ≤ s.creditsOf d

end Definitions

section Charged

variable {cfg : Config} {env : Env} {d : TransferEvent} {s s' : Sys} {l : Label}

theorem charged_start (db : Db) (redis : Option Nat) : Charged d (Sys.start db redis) :=
  Nat.le_refl 0

/-- A step of an effect saves only what it or the effect has noted. -/
theorem Resumes.charged {db : Db} {e : Effect} {o : Outcome} (h : Resumes env db e o) :
    o.notes.countP (Note.savedFor d) +
        (o.next.map fun pc => { e with pc }).countP (Effect.charging d) ≤
      o.notes.countP (Note.creditsFor d) + if e.charging d then 1 else 0 := by
  cases h with
  | stops => exact Nat.zero_le _
  | routes manager pc at_ found routed =>
    rcases route_cases routed with rfl | rfl | rfl <;> exact Nat.zero_le _
  | charges user at_ confirmed found =>
    by_cases hk : e.data.SameKey d
    · simp [Effect.charging, Note.savedFor, Note.creditsFor, hk, at_]
    · simp [Effect.charging, Note.savedFor, Note.creditsFor, hk]
  | credits user amount stored at_ kept =>
    by_cases hk : e.data.SameKey d
    · simp [Effect.charging, Note.savedFor, hk, at_]
    · simp [Effect.charging, Note.savedFor, hk, at_]
  | deposits newTx row at_ kept => exact Nat.zero_le _
  | transfers user at_ confirmed found => exact Nat.zero_le _
  | draws user amount stored at_ kept => exact Nat.zero_le _
  | withdraws record at_ confirmed found => exact Nat.zero_le _
  | refuses record at_ confirmed found => exact Nat.zero_le _
  | looksUp record at_ => exact Nat.zero_le _
  | settles record at_ => exact Nat.zero_le _

/-- A step whose notes save no wallet and whose effects hold no new one. -/
theorem charged_frame (h : Charged d s) (notes : List Note)
    (hnotes : ∀ n ∈ notes, n.savedFor d = false)
    (heffects : s'.effects.countP (Effect.charging d) ≤ s.effects.countP (Effect.charging d))
    (hhistory : s'.history = notes ++ s.history) : Charged d s' := by
  have hsaves : notes.countP (Note.savedFor d) = 0 := Lib.InFlight.countP_eq_zero hnotes
  unfold Charged Sys.savesOf Sys.creditsOf at h ⊢
  rw [hhistory, List.countP_append, List.countP_append, hsaves]
  omega

theorem charged_step (h : Charged d s) (hstep : step cfg env s l = some s') : Charged d s' := by
  have hnil : ∀ n ∈ ([] : List Note), n.savedFor d = false := List.forall_mem_nil _
  cases step_change hstep with
  | arrives _ _ _ _ _ effects history =>
    exact charged_frame h [] hnil (by rw [effects]) history
  | scans notes scan _ _ effects history =>
    refine charged_frame h notes (fun n hn => ?_) (by rw [effects]) history
    obtain ⟨c, evs, rfl⟩ := scan n hn
    rfl
  | waits _ _ _ _ _ _ effects history => exact charged_frame h [] hnil (by rw [effects]) history
  | returns r _ _ notes scan _ _ effects history =>
    refine charged_frame h notes (fun n hn => ?_) (by rw [effects]) history
    rw [scan n hn]
    rfl
  | starts r _ save _ notes scan _ _ effects history =>
    refine charged_frame h (notes ++ [.processReceivedEthOrToken r.data (save.run s.db).2])
      (fun n hn => ?_) ?_ ?_
    · rcases List.mem_append.mp hn with hn | hn
      · rw [scan n hn]
        rfl
      · rw [List.mem_singleton.mp hn]
        rfl
    · rw [effects]
      exact Nat.le_refl _
    · rw [history, List.append_assoc, List.singleton_append]
  | runFails _ _ _ _ effects history => exact charged_frame h [] hnil (by rw [effects]) history
  | effect e mem _ _ effects history =>
    have hresume := (resumes env s.db e).charged (d := d)
    have hcount := Lib.InFlight.countP_resume (Effect.charging d)
      ((e.resume env s.db).next.map fun pc => { e with pc }) mem
    unfold Charged Sys.savesOf Sys.creditsOf at h ⊢
    rw [history, effects, List.countP_append, List.countP_append]
    omega
  | effectFails e _ _ _ effects history =>
    refine charged_frame h [] hnil ?_ history
    rw [effects]
    exact Lib.InFlight.countP_erase_le _
  | crash _ _ effects history =>
    refine charged_frame h [] hnil ?_ history
    rw [effects]
    exact Nat.zero_le _
  | storeTxhash _ _ _ _ _ _ _ effects history =>
    exact charged_frame h [] hnil (by rw [effects]) history

theorem charged_run {db : Db} {redis : Option Nat} {ms : List Move}
    (hrun : run (next cfg) (Sys.start db redis) ms = some s) (d : TransferEvent) : Charged d s :=
  Lib.Machine.run_invariant (P := Charged d) (fun _ _ _ hs hstep => charged_step hs hstep)
    (charged_start db redis) hrun

end Charged

section Chain

variable {cfg : Config} {text : Address → String} {deployer : Address} {d d' : Dapp}
  {as : List Dapp.Event} {db : Db}

/-- A call emits one event when it does not revert. -/
theorem emitted_hashes (s : Token.Storage) (cs : List Executed) :
    ((emitted s cs).map Prod.fst).Sublist (cs.map Executed.hash) := by
  induction cs generalizing s with
  | nil => exact List.Sublist.refl _
  | cons c cs ih =>
    unfold emitted
    cases hcall : Token.call s c.msg with
    | none => exact (ih s).cons _
    | some r =>
      obtain ⟨s', es⟩ := r
      have hone : ∃ e, es = [e] := by
        cases (Token.call_iff c.msg).mp hcall with
        | move mv => exact ⟨_, rfl⟩
        | grant x w => exact ⟨_, rfl⟩
        | own n => exact ⟨_, rfl⟩
      obtain ⟨e, rfl⟩ := hone
      exact (ih s').cons_cons _

theorem transferLog_hash {n i : Nat} {hash : String} {e : Token.Event} {data : TransferEvent}
    (h : transferLog text n i hash e = some data) :
    data.transactionHash = hash ∧ data.blockNumber = n := by
  cases e with
  | transfer from_ to_ value =>
    obtain rfl := Option.some.inj h
    exact ⟨rfl, rfl⟩
  | approval | burn | ownershipTransferred => cases h

theorem blockLogs_hashes (n : Nat) (es : List (String × Token.Event)) :
    ((blockLogs text n es).map (·.transactionHash)).Sublist (es.map Prod.fst) := by
  have hzip : es.map Prod.fst = es.zipIdx.map fun x => x.1.1 := by
    conv_lhs => rw [← List.zipIdx_map_fst 0 es, List.map_map]
    rfl
  unfold blockLogs
  rw [hzip]
  generalize es.zipIdx = xs
  induction xs with
  | nil => exact List.Sublist.refl _
  | cons x xs ih =>
    rw [List.filterMap_cons, List.map_cons]
    cases hlog : transferLog text n x.2 x.1.1 x.1.2 with
    | none => exact ih.cons _
    | some data =>
      dsimp only
      rw [List.map_cons, (transferLog_hash hlog).1]
      exact ih.cons_cons _

/-- The logs of the chain are of the calls, in their order and one of each call at most. -/
theorem chain_hashes (hrun : run (Dapp.step cfg text deployer) (Dapp.start db) as = some d) :
    (d.world.chain.flatten.map (·.transactionHash)).Sublist (d.calls.map Executed.hash) := by
  let P (d : Dapp) : Prop :=
    (d.world.chain.flatten.map (·.transactionHash)).Sublist (d.calls.map Executed.hash)
  refine Lib.Machine.run_invariant (P := P) (fun d e d' hp hstep => ?_) (List.Sublist.refl _) hrun
  cases e with
  | mine blk =>
    obtain rfl := Option.some.inj hstep
    show ((d.world.chain ++ [_]).flatten.map _).Sublist ((d.calls ++ blk).map _)
    rw [List.flatten_append, List.flatten_singleton, List.map_append, List.map_append]
    exact List.Sublist.append hp ((blockLogs_hashes _ _).trans (emitted_hashes _ _))
  | sys env l =>
    obtain ⟨_, _, hcalls, hchain, _⟩ := dapp_sys hstep
    show (d'.world.chain.flatten.map _).Sublist (d'.calls.map _)
    rw [hcalls, hchain]
    exact hp

theorem mem_blockLogs (text : Address → String) (n : Nat) {es : List (String × Token.Event)}
    {hash : String} {from_ to_ : Address} {value : Token.Uint256}
    (h : (hash, .transfer from_ to_ value) ∈ es) :
    ∃ i, ⟨hash, i, n, text from_, text to_, value.toNat⟩ ∈ blockLogs text n es := by
  obtain ⟨i, hi⟩ := List.mem_iff_getElem?.mp h
  exact ⟨i, List.mem_filterMap.mpr ⟨((hash, .transfer from_ to_ value), i),
    List.mem_zipIdx_iff_getElem?.mpr hi, rfl⟩⟩

/-- Every `Transfer` event of the contract is a log of the chain. -/
theorem log_of_emitted (hrun : run (Dapp.step cfg text deployer) (Dapp.start db) as = some d)
    {hash : String} {from_ to_ : Address} {value : Token.Uint256}
    (h : (hash, .transfer from_ to_ value) ∈ emitted (Token.MyToken.deploy deployer) d.calls) :
    ∃ data ∈ d.world.chain.flatten, data.transactionHash = hash ∧ data.from_ = text from_ ∧
      data.to_ = text to_ ∧ data.value = value.toNat := by
  let Found (chain : List (List TransferEvent)) : Prop :=
    ∃ data ∈ chain.flatten, data.transactionHash = hash ∧ data.from_ = text from_ ∧
      data.to_ = text to_ ∧ data.value = value.toNat
  let P (d : Dapp) : Prop :=
    (hash, .transfer from_ to_ value) ∈ emitted (Token.MyToken.deploy deployer) d.calls →
      Found d.world.chain
  have hall : P d := by
    refine Lib.Machine.run_invariant (P := P) (fun d e d' hp hstep => ?_)
      (fun h => absurd h List.not_mem_nil) hrun
    cases e with
    | mine blk =>
      obtain rfl := Option.some.inj hstep
      intro hmem
      show Found (d.world.chain ++ [_])
      rw [emitted_append] at hmem
      rcases List.mem_append.mp hmem with hold | hnew
      · obtain ⟨data, hdata, heq⟩ := hp hold
        refine ⟨data, ?_, heq⟩
        rw [List.flatten_append]
        exact List.mem_append_left _ hdata
      · obtain ⟨i, hi⟩ := mem_blockLogs text d.world.chain.length hnew
        refine ⟨⟨hash, i, d.world.chain.length, text from_, text to_, value.toNat⟩, ?_, rfl, rfl,
          rfl, rfl⟩
        rw [List.flatten_append, List.flatten_singleton]
        exact List.mem_append_right _ hi
    | sys env l =>
      obtain ⟨_, _, hcalls, hchain, _⟩ := dapp_sys hstep
      show _ → Found d'.world.chain
      rw [hcalls, hchain]
      exact hp
  exact hall h

/-- The world of a step is a step of the world. -/
theorem dapp_world {e : Dapp.Event} (h : d.step cfg text deployer e = some d') :
    ∃ a, d.world.step cfg a = some d'.world := by
  cases e with
  | mine blk =>
    obtain rfl := Option.some.inj h
    exact ⟨.grow _, rfl⟩
  | sys env l =>
    simp only [Dapp.step, Option.ite_none_right_eq_some, Option.map_eq_some_iff] at h
    obtain ⟨_, world, hworld, rfl⟩ := h
    exact ⟨.sys env l, hworld⟩

/-- A log stands in the block of its number. -/
def Numbered (d : Dapp) : Prop :=
  ∀ blk ∈ d.world.chain.zipIdx, ∀ data ∈ blk.1, data.blockNumber = blk.2

theorem numbered_run (hrun : run (Dapp.step cfg text deployer) (Dapp.start db) as = some d) :
    Numbered d := by
  refine Lib.Machine.run_invariant (P := Numbered) (fun d e d' hp hstep => ?_)
    (fun _ h => absurd h List.not_mem_nil) hrun
  cases e with
  | mine blk =>
    obtain rfl := Option.some.inj hstep
    intro x hx data hdata
    rw [List.zipIdx_append] at hx
    rcases List.mem_append.mp hx with hx | hx
    · exact hp x hx data hdata
    · obtain rfl := List.mem_singleton.mp hx
      obtain ⟨y, _, hy⟩ := List.mem_filterMap.mp hdata
      rw [(transferLog_hash hy).2, Nat.zero_add]
  | sys env l =>
    obtain ⟨_, _, _, hchain, _⟩ := dapp_sys hstep
    unfold Numbered
    rw [hchain]
    exact hp

/-- A log of the chain is found in the block of its number. -/
theorem mem_block (h : Numbered d) {data : TransferEvent} (hdata : data ∈ d.world.chain.flatten) :
    data ∈ block d.world.chain data.blockNumber := by
  obtain ⟨blk, hblk, hmem⟩ := List.mem_flatten.mp hdata
  obtain ⟨b, hb⟩ := List.mem_iff_getElem?.mp hblk
  have hnumber := h (blk, b) (List.mem_zipIdx_iff_getElem?.mpr hb) data hmem
  unfold block
  rw [hnumber, hb]
  exact hmem

end Chain

section Credits

variable {cfg : Config} {db : Db} {s : Sys} {u : Nat}

theorem mem_credits {x : TransferEvent × Amount} {history : List Note} :
    x ∈ credits u history ↔ .credited x.1 u x.2 ∈ history := by
  unfold credits
  rw [List.mem_filterMap]
  constructor
  · rintro ⟨n, hn, heq⟩
    cases n with
    | credited data user amount =>
      dsimp only at heq
      split at heq
      · next hid =>
        obtain rfl := Option.some.inj heq
        exact hid ▸ hn
      · cases heq
    | _ => cases heq
  · intro hn
    exact ⟨_, hn, if_pos rfl⟩

/-- A log that is saved once has one credit. -/
theorem credits_nodup (h : ∀ d, s.savesOf d ≤ 1) : (credits u s.history).Nodup := by
  refine Lib.Tally.nodup_of_countP (fun x y => decide (y.1.SameKey x.1))
    (fun x => decide_eq_true ⟨rfl, rfl, rfl⟩) fun x => le_trans ?_ (h x.1)
  unfold credits Sys.savesOf
  rw [List.countP_filterMap]
  apply List.countP_mono_left
  intro n _ hn
  cases n with
  | credited data user amount =>
    dsimp only at hn
    split at hn
    · exact hn
    · cases hn
  | _ => cases hn

/-- An effect of the log that is kept is one of those that are kept. -/
theorem uninterrupted_of_spares {e : TransferEvent} {env : Env} {l : Label}
    (h : Spares (fun e' => e'.pc.uncredited) (fun e' => e'.kept env = true) s l) :
    Uninterrupted e u s ⟨env, l⟩ := by
  have hdue {e' : Effect} (hfree : e'.pc.uncredited = false) : e'.due e = false := by
    unfold Effect.due
    rw [hfree, Bool.and_false]
  right
  cases l with
  | effect e' => exact fun _ => h
  | effectFails e' => exact hdue h
  | crash => exact fun e' he' => hdue (h e' he')
  | _ => trivial

end Credits

section Delivery

variable {cfg : Config} {text : Address → String} {deployer : Address} {d : Dapp}
  {as : List Dapp.Event} {db : Db} {s : Sys} {u cursor : Nat} {address : String}
  {data : TransferEvent} {ms : List Move}

/-- A wallet has one address. -/
theorem owner_address {address' : String} (h : db.owner address = some u)
    (h' : db.owner address' = some u) : address = address' := by
  obtain ⟨row, hrow, hid⟩ := Option.map_eq_some_iff.mp h
  obtain ⟨row', hrow', hid'⟩ := Option.map_eq_some_iff.mp h'
  obtain ⟨hmem, haddress⟩ := Table.mem_of_findOne hrow
  obtain ⟨hmem', haddress'⟩ := Table.mem_of_findOne hrow'
  obtain rfl := Table.eq_of_id_eq hmem hmem' (hid.trans hid'.symm)
  exact Option.some.inj ((of_decide_eq_true haddress).symm.trans (of_decide_eq_true haddress'))

/-- Logs of one transaction are one log when every call is a transaction of its own. -/
theorem log_of_hash (hrun : run (Dapp.step cfg text deployer) (Dapp.start db) as = some d)
    (hcalls : (d.calls.map Executed.hash).Nodup) {data' : TransferEvent}
    (hdata : data ∈ d.world.chain.flatten) (hdata' : data' ∈ d.world.chain.flatten)
    (hhash : data'.transactionHash = data.transactionHash) : data' = data := by
  have hnodup := hcalls.sublist (chain_hashes hrun)
  exact List.inj_on_of_nodup_map hnodup hdata' hdata hhash

theorem NoTokenRows.no_match (h : NoTokenRows db) {row : Row Transaction}
    (hrow : row ∈ db.transaction.rows) : data.matches row.val = false := by
  rw [← Bool.not_eq_true]
  intro hm
  exact h row hrow (matches_iff.mp hm).2.1

/-- A credit is a deposit of the chain with its own value. -/
theorem deposit_of_credit {D : TransferEvent → Prop} {receipts : Receipts}
    (hnew : NoTokenRows db) (h : Vouches D receipts db s) (howner : db.owner address = some u)
    {amount : Amount} (hcredit : .credited data u amount ∈ s.history) :
    D data ∧ db.isDeposit address data = true ∧ amount = .num (fromWei data.value) := by
  obtain ⟨⟨hD, _⟩, ⟨_, hsender⟩, hto, hamount⟩ := h.notes _ hcredit
  refine ⟨hD, decide_eq_true ⟨owner_address hto howner, hsender⟩, ?_⟩
  rcases hamount with hown | ⟨row, hrow, _, hm, _⟩
  · exact hown
  · rw [hnew.no_match hrow] at hm
    cases hm

theorem depositTo_of_isDeposit (hmanager : db.managerAddress ≠ none)
    (howner : db.owner address = some u) (h : db.isDeposit address data = true) :
    ∃ user, user.id = u ∧ DepositTo db data user := by
  obtain ⟨hto, hsender⟩ := of_decide_eq_true h
  obtain ⟨user, huser, hid⟩ := Option.map_eq_some_iff.mp howner
  obtain ⟨manager', hmanager'⟩ := Option.ne_none_iff_exists'.mp hmanager
  obtain ⟨manager, hfound, haddress⟩ := Option.map_eq_some_iff.mp hmanager'
  refine ⟨user, hid, ⟨manager, hfound, fun hc => hsender ?_⟩, hto ▸ huser⟩
  rw [hmanager', hc, haddress]

/-- A deposit that was handed over is credited with its own value once no effect is due. -/
theorem credited_of_handled (hnew : NoTokenRows db) {user : Row UOlsWallet}
    (hdep : DepositTo db data user)
    (hms : ∀ m ∈ ms, m.Gives data.transactionHash ⟨true⟩ ∧
      ∀ data' ∈ m.label.logs, OnlyLog data data')
    (hrun : run (next cfg) (Sys.start db none) ms = some s)
    (hkeeps : Along (next cfg) (Uninterrupted data user.id) (Sys.start db none) ms)
    (hhandled : .handled data ∈ s.history) (hdone : ∀ e ∈ s.effects, e.pc.uncredited = false) :
    ∃ data', data'.SameKey data ∧
      .credited data' user.id (.num (fromWei data.value)) ∈ s.history := by
  have hstart : Restores data user.id db (Sys.start db none) := by
    refine ⟨sound_start _ db none, everywhere_start none fun row hrow hm => ?_,
      addressed_start db none, fun _ h => absurd h List.not_mem_nil, fun h => ?_⟩
    · rw [hnew.no_match hrow] at hm
      cases hm
    · refine absurd h (settled_start none fun row hrow hm => ?_)
      rw [hnew.no_match hrow] at hm
      cases hm
  have hrestores : Restores data user.id db s := by
    refine Lib.Machine.run_induction (fun s m s' hs hg hstep => ?_) hstart
      (Lib.Machine.along_and_mem hms hkeeps) hrun
    obtain ⟨⟨hreceipt, hlogs⟩, hkeeps⟩ := hg
    exact restores_step hdep hreceipt hlogs hs hkeeps hstep
  rcases hrestores.owed (.handled data ⟨rfl, rfl, rfl⟩ hhandled) with hcredited | ⟨e', he', hdue⟩
  · obtain ⟨n, hn, hcredit⟩ := List.any_eq_true.mp hcredited
    cases n with
    | credited data' user' amount =>
      simp only [Note.creditedTo, decide_eq_true_eq] at hcredit
      obtain ⟨hkey, _, rfl, rfl⟩ := hcredit
      exact ⟨data', hkey, hn⟩
    | _ => cases hcredit
  · unfold Effect.due at hdue
    rw [hdone e' he', Bool.and_false] at hdue
    cases hdue

theorem covers_run (hrun : run (Dapp.step cfg text deployer) (Dapp.start db) as = some d) :
    Covers cfg d.world := by
  refine Lib.Machine.run_invariant (P := fun d : Dapp => Covers cfg d.world)
    (fun d e d' hp hstep => ?_) (covers_start db) hrun
  obtain ⟨a, ha⟩ := dapp_world hstep
  exact covers_step hp ha

theorem Undisturbed.moves (h : Undisturbed cfg text deployer db as d) :
    ∃ ms, run (next cfg) (Sys.start db none) ms = some d.world.sys ∧
      Along (next cfg) (fun s m =>
        Spares (fun e => e.pc.uncredited) (fun e => e.kept m.env = true) s m.label)
        (Sys.start db none) ms ∧
      ∀ m ∈ ms, .sys m.env m.label ∈ as ∧ RpcType.http.allows m.label = true ∧
        m.label.logs ⊆ d.world.chain.flatten := by
  obtain ⟨_, ms, hms, halong, hall⟩ := dapp_moves
    (G := fun s m => Spares (fun e => e.pc.uncredited) (fun e => e.kept m.env = true) s m.label)
    (Lib.Machine.along_mono (fun _ _ hkeeps _ _ he => by subst he; exact hkeeps) h.keeps) h.runs
  exact ⟨ms, hms, halong, hall⟩

theorem Undisturbed.chain_nodup (h : Undisturbed cfg text deployer db as d) :
    d.world.chain.flatten.Nodup :=
  (h.calls.sublist (chain_hashes h.runs)).of_map _

/-- A wallet is saved for a log at most once. -/
theorem Undisturbed.saves_le_one (h : Undisturbed cfg text deployer db as d) (k : TransferEvent) :
    d.world.sys.savesOf k ≤ 1 := by
  obtain ⟨ms, hms, _, hall⟩ := h.moves
  have hcharged := charged_run hms k
  have hpolled := (polled_run (fun m hm => (hall m hm).2.1) hms k).oneStart
  have hbudget := hpolled.credits
  have hstarts := hpolled.starts
  unfold Charged at hcharged
  omega

theorem Undisturbed.vouches (h : Undisturbed cfg text deployer db as d) :
    Vouches (· ∈ d.world.chain.flatten) (fun _ _ => True) db d.world.sys := by
  obtain ⟨ms, hms, _, hall⟩ := h.moves
  refine vouches_run (fun m hm => ⟨fun data hdata => ?_, fun _ _ _ => trivial⟩) hms
  exact (hall m hm).2.2 hdata

/-- The credits for what the cursor covers are the deposits there, with their own values. -/
theorem Undisturbed.credited_iff (h : Undisturbed cfg text deployer db as d)
    (hnew : NoTokenRows db) (hmanager : db.managerAddress ≠ none)
    (hcursor : d.world.sys.redis = some cursor) (howner : db.owner address = some u)
    (hcovers : cfg.covers cursor data = true) (amount : Amount) :
    .credited data u amount ∈ d.world.sys.history ↔ data ∈ d.world.chain.flatten ∧
      db.isDeposit address data = true ∧ amount = .num (fromWei data.value) := by
  obtain ⟨ms, hms, halong, hall⟩ := h.moves
  constructor
  · exact deposit_of_credit hnew h.vouches howner
  · rintro ⟨hdata, hdeposit, rfl⟩
    obtain ⟨user, rfl, hdep⟩ := depositTo_of_isDeposit hmanager howner hdeposit
    obtain ⟨hfirst, hbelow⟩ := of_decide_eq_true hcovers
    have hblock := mem_block (numbered_run h.runs) hdata
    have hhandled := ((covers_run h.runs).cursor cursor hcursor).2 _ hfirst hbelow _ hblock
    have honly {data' : TransferEvent} (hmem : data' ∈ d.world.chain.flatten)
        (hkey : data'.SameKey data) : data' = data := log_of_hash h.runs h.calls hdata hmem hkey.1
    have hcredited := credited_of_handled hnew hdep (fun m hm => ⟨?_, fun data' hd hkey => ?_⟩) hms
      (Lib.Machine.along_mono (fun _ _ h => uninterrupted_of_spares h) halong) hhandled h.done
    · obtain ⟨data', hkey, hcredit⟩ := hcredited
      obtain rfl := honly (deposit_of_credit hnew h.vouches howner hcredit).1 hkey
      exact hcredit
    · exact h.receipts m.env m.label (hall m hm).1 data hdata
    · rw [honly ((hall m hm).2.2 hd) hkey]
      exact ⟨rfl, rfl⟩

/-- As lists, each credit once. -/
theorem Undisturbed.credits_perm (h : Undisturbed cfg text deployer db as d)
    (hnew : NoTokenRows db) (hmanager : db.managerAddress ≠ none)
    (hcursor : d.world.sys.redis = some cursor) (howner : db.owner address = some u) :
    ((credits u d.world.sys.history).filter fun x => cfg.covers cursor x.1).Perm
      ((d.world.chain.flatten.filter fun data =>
        cfg.covers cursor data && db.isDeposit address data).map
          fun data => (data, .num (fromWei data.value))) := by
  have hpairs : Function.Injective fun data : TransferEvent =>
      (data, Amount.num (fromWei data.value)) := fun _ _ h => congrArg Prod.fst h
  apply (List.perm_ext_iff_of_nodup ((credits_nodup h.saves_le_one).filter _)
    ((h.chain_nodup.filter _).map hpairs)).mpr
  rintro ⟨data, amount⟩
  rw [List.mem_filter, mem_credits, List.mem_map]
  constructor
  · rintro ⟨hcredit, hcovers⟩
    dsimp only at hcredit hcovers
    obtain ⟨hdata, hdeposit, rfl⟩ :=
      (h.credited_iff hnew hmanager hcursor howner hcovers amount).mp hcredit
    refine ⟨data, List.mem_filter.mpr ⟨hdata, ?_⟩, rfl⟩
    rw [hcovers, hdeposit, Bool.and_self]
  · rintro ⟨data', hmem, heq⟩
    obtain ⟨rfl, rfl⟩ := Prod.mk.inj heq
    obtain ⟨hdata, hboth⟩ := List.mem_filter.mp hmem
    obtain ⟨hcovers, hdeposit⟩ := (Bool.and_eq_true _ _).mp hboth
    have hiff := h.credited_iff hnew hmanager hcursor howner hcovers (.num (fromWei data'.value))
    exact ⟨hiff.mpr ⟨hdata, hdeposit, rfl⟩, hcovers⟩

end Delivery

section Samples

/-- A transfer of one token from `0x10` to the member. -/
def sampleExecuted : Executed := ⟨"h", ⟨0x10, .transfer 0x11 (10 ^ 18)⟩⟩

/-- The transfer has a block above it, and the scan of both stores its cursor. -/
def sampleDelivered : List Dapp.Event :=
  [.mine [sampleExecuted], .mine []] ++
    (sampleScanTo 1 sampleTransferLog ++ [Label.redisSet] ++ sampleReads sampleTransferLog 1 ++
      sampleSaves sampleTransferLog 1 ⟨1, sampleMember⟩).map (.sys sampleEnv)

theorem sampleDelivered_undisturbed : ∃ d,
    Undisturbed sampleConfig addressText 0x10 sampleMemberDb sampleDelivered d ∧
      d.world.sys.redis = some 1 ∧ d.calls = [sampleExecuted] ∧
        d.world.chain.flatten = [sampleTransferLog] ∧
          credits 1 d.world.sys.history = [(sampleTransferLog, .num 1)] := by
  have h : (run (Dapp.step sampleConfig addressText 0x10) (Dapp.start sampleMemberDb)
      sampleDelivered).any (fun d => (∀ e ∈ d.world.sys.effects, e.pc.uncredited = false) ∧
        d.world.sys.redis = some 1 ∧ d.calls = [sampleExecuted] ∧
        d.world.chain.flatten = [sampleTransferLog] ∧
        credits 1 d.world.sys.history = [(sampleTransferLog, .num 1)]) = true := by
    decide +kernel
  have hkeeps : Along (Dapp.step sampleConfig addressText 0x10) Dapp.KeepsEffects
      (Dapp.start sampleMemberDb) sampleDelivered := by
    decide +kernel
  obtain ⟨d, hd, hp⟩ := (Option.any_eq_true _ _).mp h
  obtain ⟨hdone, hcursor, hcalls, hchain, hcredits⟩ := of_decide_eq_true hp
  refine ⟨d, ⟨hd, ?_, ?_, hkeeps, hdone⟩, hcursor, hcalls, hchain, hcredits⟩
  · rw [hcalls]
    exact List.nodup_singleton _
  · intro env l hmem data _
    rcases List.mem_append.mp hmem with hc | hmem
    · simp only [List.mem_cons, List.not_mem_nil, reduceCtorEq, or_self] at hc
    · obtain ⟨l', _, heq⟩ := List.mem_map.mp hmem
      cases heq
      exact Or.inl rfl

end Samples

end OlsDapp.Handler
