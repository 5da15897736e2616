import OlsDapp.Client.Guards
import OlsDapp.Handler.Delivery
import OlsDapp.Token.Commute
import OlsDapp.Token.Success

/-!
# From a send to the wallet it pays

The methods write amounts in ether, the contract moves words and the handler divides a log by
10^18 again. A guard reads the payer's balance before the transaction is mined, and only a call
that takes from the payer can undo what it has read. A transfer that is mined reaches the wallet
of its receiver with the amount of the input.
-/

namespace OlsDapp.Client

open Lib.Machine (run)
open Token (Address Uint256)
open Web3

section Definitions

/-- The call of the contract that the data of a transaction is, where `read` is the address a text
names. `src/contracts/MyToken.sol` has no `transferPreSigned`. -/
def Method.call (read : String → Option Address) : Method → Option Token.Call
  | .transfer to_ value => do
    let receiver ← read to_
    if 0 ≤ value ∧ value < 2 ^ 256 then some (.transfer receiver (BitVec.ofInt 256 value)) else none
  | .transferPreSigned _ _ _ _ _ => none

/-- What a guard resolves to where `parseFloat` is the double a decimal is read as. -/
def Prepared.checkRead (parseFloat : ℚ → ℚ) (b : Balances) (p : Prepared) : Option Bool :=
  match p.guard with
  | .sufficientBalance => sufficientBalance b p.input
  | .sufficientTokenBalance =>
    some (decide (parseFloat p.input.amount ≤ parseFloat (getTokenBalanceOf b p.input.from_)))

/-- No amount that is not covered is read as the balance. -/
def Tells (parseFloat : ℚ → ℚ) (amount balance : ℚ) : Prop :=
  parseFloat amount = parseFloat balance → amount ≤ balance

/-- The message is a call that takes tokens from the account when it does not revert. -/
def TakesFrom (payer : Address) (m : Token.Msg) : Prop := ∃ mv, m.move? = some mv ∧ mv.src = payer

end Definitions

section Amounts

variable {w : Web3} {c : SendCall} {p : Prepared} {read : String → Option Address}

/-- Every transfer of tokens is of the amount of the input. -/
theorem transfer_value (h : c.prepare w = some p) {to_ : String} {value : Int}
    (hdata : p.params.data = some (.transfer to_ value)) :
    toWei p.input.amount ether = some value := by
  cases c with
  | sendTransactionByMnemonic input mnemonic salt =>
    simp only [SendCall.prepare, sendTransactionByMnemonic, Option.bind_eq_bind,
      Option.bind_eq_some_iff, Option.pure_def, Option.some.injEq] at h
    obtain ⟨_, _, _, _, rfl⟩ := h
    cases hdata
  | sendWithdrawalByMnemonic input mnemonic salt =>
    simp only [SendCall.prepare, sendWithdrawalByMnemonic, Option.bind_eq_bind,
      Option.bind_eq_some_iff, Option.pure_def, Option.some.injEq] at h
    obtain ⟨value', hvalue, data, hencodes, rfl⟩ := h
    obtain rfl := encodeABI_eq_some hencodes
    obtain ⟨rfl, rfl⟩ := Method.transfer.inj (Option.some.inj hdata)
    exact hvalue
  | sendTokenByMnemonic input mnemonic salt =>
    obtain ⟨_, hneed⟩ := sendTokenByMnemonic_need h
    rw [TxParams.tokenNeed, hdata] at hneed
    exact hneed
  | sendTokenByPrivateKey input privateKey =>
    obtain ⟨_, hneed⟩ := sendTokenByPrivateKey_need h
    rw [TxParams.tokenNeed, hdata] at hneed
    exact hneed
  | sendTokenWithNoEth input mnemonic salt =>
    simp only [SendCall.prepare, sendTokenWithNoEth, Option.bind_eq_bind,
      Option.bind_eq_some_iff, Option.pure_def, Option.some.injEq] at h
    obtain ⟨_, _, _, _, _, _, _, _, _, _, _, _, data, hencodes, rfl⟩ := h
    obtain rfl := encodeABI_eq_some hencodes
    cases hdata

/-- What the contract is called with, and that its value is the amount. -/
theorem call_transfer {to_ : String} {value : Int} {call : Token.Call}
    (h : (Method.transfer to_ value).call read = some call) :
    ∃ receiver v, read to_ = some receiver ∧ call = .transfer receiver v ∧
      (v.toNat : Int) = value := by
  simp only [Method.call, Option.bind_eq_bind, Option.bind_eq_some_iff] at h
  obtain ⟨receiver, hread, hcall⟩ := h
  split at hcall
  · next hrange =>
    obtain ⟨hnonneg, hlt⟩ := hrange
    refine ⟨receiver, _, hread, (Option.some.inj hcall).symm, ?_⟩
    rw [BitVec.toNat_ofInt]
    omega
  · cases hcall

/-- The value of the log is the amount again. -/
theorem fromWei_value {amount : ℚ} {value : Int} (h : toWei amount ether = some value) {v : Nat}
    (hv : (v : Int) = value) : Handler.fromWei v = amount := by
  have hamount := toWei_eq_some.mp h
  have hpos : (ether : ℚ) ≠ 0 := by
    have hnat : ether ≠ 0 := by decide
    exact_mod_cast hnat
  have hcast : (v : ℚ) = value := by exact_mod_cast hv
  show (v : ℚ) / (ether : ℚ) = amount
  rw [hcast, ← hamount, mul_div_assoc, div_self hpos, mul_one]

/-- What is shown in a unit is the same number of wei again. -/
theorem toWei_fromWei {unit : Nat} (hunit : 0 < unit) (wei : Nat) :
    toWei (fromWei wei unit) unit = some (wei : Int) := by
  have hne : (unit : ℚ) ≠ 0 := by exact_mod_cast hunit.ne'
  rw [toWei_eq_some, fromWei, div_mul_cancel₀ (wei : ℚ) hne]
  exact (Int.cast_natCast wei).symm

theorem getCurrentGasPrice_eq {price : Nat} (h : w.getGasPrice = some price) :
    w.getCurrentGasPrice = some (fromWei price gwei) := by
  rw [getCurrentGasPrice, h]
  rfl

end Amounts

section Reading

variable {parseFloat : ℚ → ℚ} {b : Balances} {p : Prepared}

theorem checkRead_id : p.checkRead id b = p.check b := by
  unfold Prepared.checkRead Prepared.check
  cases p.guard <;> rfl

theorem reads_le_iff (hmono : Monotone parseFloat) {x y : ℚ} :
    parseFloat x ≤ parseFloat y ↔ x ≤ y ∨ parseFloat x = parseFloat y := by
  constructor
  · intro hle
    rcases lt_or_eq_of_le hle with hlt | heq
    · exact Or.inl (hmono.reflect_lt hlt).le
    · exact Or.inr heq
  · rintro (hle | heq)
    · exact hmono hle
    · exact heq.le

/-- Reading keeps the order, so the guard refuses nothing that is covered, and lets through what
is not only where the two are read as one number. -/
theorem checkRead_iff (hmono : Monotone parseFloat) (hguard : p.guard = .sufficientTokenBalance) :
    p.checkRead parseFloat b = some true ↔ p.check b = some true ∨
      parseFloat p.input.amount = parseFloat (getTokenBalanceOf b p.input.from_) := by
  simp only [Prepared.checkRead, Prepared.check, hguard, sufficientTokenBalance, Option.some.injEq,
    decide_eq_true_iff]
  exact reads_le_iff hmono

theorem check_of_tells (hmono : Monotone parseFloat) (hguard : p.guard = .sufficientTokenBalance)
    (htells : Tells parseFloat p.input.amount (getTokenBalanceOf b p.input.from_))
    (h : p.checkRead parseFloat b = some true) : p.check b = some true := by
  rcases (checkRead_iff hmono hguard).mp h with hcheck | hsame
  · exact hcheck
  · rw [Prepared.check, hguard]
    exact congrArg some (decide_eq_true (htells hsame))

end Reading

section Rely

variable {payer : Address} {s : Token.Storage} {m : Token.Msg} {msgs : List Token.Msg}

/-- A call that does not take from the account leaves it what it has. -/
theorem exec_balance_ge (h : ¬ TakesFrom payer m) :
    (s.balances payer).toNat ≤ ((Token.exec s m).balances payer).toNat := by
  rcases Token.exec_cases s m with ⟨_, hsame⟩ | ⟨es, _, he⟩
  · rw [hsame]
  · generalize Token.exec s m = s' at he
    cases he with
    | move mv hm ok =>
      have hle := Token.Commute.le_applyMove_balance ok fun hc => h ⟨mv, hm, hc.symm⟩
      exact BitVec.le_def.mp hle
    | grant x w hg => exact Nat.le_refl _
    | own n hc ho hn => exact Nat.le_refl _

theorem run_balance_ge (h : ∀ m ∈ msgs, ¬ TakesFrom payer m) :
    (s.balances payer).toNat ≤ ((Token.run s msgs).balances payer).toNat := by
  induction msgs generalizing s with
  | nil => exact Nat.le_refl _
  | cons m msgs ih =>
    obtain ⟨hm, hrest⟩ := List.forall_mem_cons.mp h
    have hrun : Token.run s (m :: msgs) = Token.run (Token.exec s m) msgs := rfl
    rw [hrun]
    exact Nat.le_trans (exec_balance_ge hm) (ih hrest)

theorem reachable_run (h : Token.Reachable s) : Token.Reachable (Token.run s msgs) := by
  obtain ⟨deployer, before, hd, rfl⟩ := h
  exact ⟨deployer, before ++ msgs, hd, (Token.Supply.run_append _ _ _).symm⟩

theorem event_of_transfer {receiver : Address} {v : Uint256}
    (h : (Token.call s ⟨payer, .transfer receiver v⟩).isSome) :
    ∃ s', Token.call s ⟨payer, .transfer receiver v⟩ =
      some (s', [.transfer payer receiver v]) := by
  obtain ⟨⟨s', es⟩, hcall⟩ := Option.isSome_iff_exists.mp h
  cases (Token.call_iff _).mp hcall with
  | move mv hm ok =>
    obtain rfl := Option.some.inj hm
    exact ⟨_, hcall⟩
  | grant x w hg => cases hg
  | own n hc => cases hc

/-- A transfer to somebody goes through exactly if the account has what it sends. -/
theorem transfer_covered_iff (h : Token.Reachable s) {receiver : Address} {v : Uint256}
    (hreceiver : receiver ≠ 0) :
    (Token.call s ⟨payer, .transfer receiver v⟩).isSome ↔ v ≤ s.balances payer := by
  rw [Token.Success.isSome_iff_requires (Token.Success.reachable_conserved h) rfl]
  constructor
  · intro hrequires
    exact hrequires.funds
  · intro hfunds
    refine ⟨hfunds, fun x hx => absurd hx nofun, fun d hd => ?_, fun hd => absurd hd nofun⟩
    rw [← Option.some.inj hd]
    exact hreceiver

theorem call_transfer_eq (h : Token.Reachable s) {receiver : Address} {v : Uint256}
    (hfunds : v ≤ s.balances payer) (hreceiver : receiver ≠ 0) :
    ∃ s', Token.call s ⟨payer, .transfer receiver v⟩ =
      some (s', [.transfer payer receiver v]) :=
  event_of_transfer ((transfer_covered_iff h hreceiver).mpr hfunds)

end Rely

/-- A token transfer whose guard has passed succeeds when it is mined, and moves the amount of the
input, whatever other calls are mined before it: unless one of them takes from the payer, the
transfer is to the zero address, or an amount that is not covered was read as the balance. -/
theorem guarded_transfer_succeeds (w : Web3) (c : SendCall) (p : Prepared)
    (h : c.prepare w = some p) (hguard : p.guard = .sufficientTokenBalance)
    (read : String → Option Address) (to_ : String) (value : Int)
    (hdata : p.params.data = some (.transfer to_ value)) (call : Token.Call)
    (hcall : (Method.transfer to_ value).call read = some call) (b : Balances)
    (s : Token.Storage) (hs : Token.Reachable s) (payer : Address)
    (hreads : b.balanceOf p.input.from_ = (s.balances payer).toNat) (parseFloat : ℚ → ℚ)
    (hmono : Monotone parseFloat)
    (htells : Tells parseFloat p.input.amount (getTokenBalanceOf b p.input.from_))
    (hcheck : p.checkRead parseFloat b = some true) (msgs : List Token.Msg)
    (hothers : ∀ m ∈ msgs, ¬ TakesFrom payer m) :
    ∃ receiver v, read to_ = some receiver ∧ Handler.fromWei v.toNat = p.input.amount ∧
      (receiver ≠ 0 → ∃ s', Token.call (Token.run s msgs) ⟨payer, call⟩ =
        some (s', [.transfer payer receiver v])) := by
  have hvalue := transfer_value h hdata
  obtain ⟨receiver, v, hread, rfl, hv⟩ := call_transfer hcall
  refine ⟨receiver, v, hread, fromWei_value hvalue hv, fun hne => ?_⟩
  have hcovered := check_of_tells hmono hguard htells hcheck
  rw [Prepared.check, hguard] at hcovered
  have hasked := (sufficientTokenBalance_iff hvalue).mp hcovered
  have hkept := run_balance_ge (s := s) hothers
  apply call_transfer_eq (reachable_run hs) _ hne
  rw [BitVec.le_def]
  omega

section Arrival

/-- The event of a call is among those of all calls. -/
theorem mem_emitted (hash : String) (after : List Handler.Executed) {s s' : Token.Storage}
    {before : List Handler.Executed} {m : Token.Msg} {e : Token.Event}
    (h : Token.call (Token.run s (before.map Handler.Executed.msg)) m = some (s', [e])) :
    (hash, e) ∈ Handler.emitted s (before ++ ⟨hash, m⟩ :: after) := by
  rw [Handler.emitted_append]
  apply List.mem_append_right
  rw [Handler.emitted, h]
  exact List.mem_cons_self

/-- A mined transfer that does not revert, in a run that is not disturbed: once the cursor covers
its block, the wallet of its receiver has been credited for it exactly once, with its value. -/
theorem credited_once (cfg : Handler.Config) (text : Address → String) (deployer : Address)
    (db : Handler.Db) (hnew : Handler.NoTokenRows db) (hmanager : db.managerAddress ≠ none)
    (as : List Handler.Dapp.Event) (d : Handler.Dapp)
    (hd : Handler.Undisturbed cfg text deployer db as d) (payer receiver : Address)
    (v : Uint256) (hash : String) (before after : List Handler.Executed)
    (hmined : d.calls = before ++ ⟨hash, payer, .transfer receiver v⟩ :: after)
    (hsucceeds : (Token.call (Token.run (Token.MyToken.deploy deployer)
      (before.map Handler.Executed.msg)) ⟨payer, .transfer receiver v⟩).isSome)
    (u : Nat) (howner : db.owner (text receiver) = some u)
    (hsender : db.managerAddress ≠ some (text payer)) (cursor : Nat)
    (hcursor : d.world.sys.redis = some cursor)
    (hcovers : ∀ data ∈ d.world.chain.flatten, data.transactionHash = hash →
      cfg.covers cursor data = true) :
    ∃ data, (Handler.credits u d.world.sys.history).filter
        (fun x => x.1.transactionHash = hash) = [(data, .num (Handler.fromWei v.toNat))] := by
  obtain ⟨s', hevent⟩ := event_of_transfer hsucceeds
  have hemitted := mem_emitted hash after hevent
  rw [← hmined] at hemitted
  obtain ⟨data, hdata, rfl, hfrom, hto, hvalue⟩ := Handler.log_of_emitted hd.runs hemitted
  have hdeposit : db.isDeposit (text receiver) data = true := by
    apply decide_eq_true
    rw [hfrom]
    exact ⟨hto, hsender⟩
  have hcredit := (hd.credited_iff hnew hmanager hcursor howner (hcovers data hdata rfl)
    (.num (Handler.fromWei data.value))).mpr ⟨hdata, hdeposit, rfl⟩
  refine ⟨data, List.perm_singleton.mp ?_⟩
  apply (List.perm_ext_iff_of_nodup ((Handler.credits_nodup hd.saves_le_one).filter _)
    (List.nodup_singleton _)).mpr
  rintro ⟨data', amount⟩
  rw [List.mem_filter, Handler.mem_credits, List.mem_singleton, decide_eq_true_eq]
  constructor
  · rintro ⟨hother, hhash⟩
    dsimp only at hother hhash
    obtain ⟨hdata', _, rfl⟩ := Handler.deposit_of_credit hnew hd.vouches howner hother
    obtain rfl := Handler.log_of_hash hd.runs hd.calls hdata hdata' hhash
    rw [hvalue]
  · intro heq
    obtain ⟨rfl, rfl⟩ := Prod.mk.inj heq
    rw [hvalue] at hcredit
    exact ⟨hcredit, rfl⟩

end Arrival

section Samples

def sampleToken : Prepared :=
  ⟨sampleInput, .sufficientTokenBalance, "您的代币量不足",
    ⟨0, none, "0xt", 60000, some (10 ^ 9), some (.transfer "0xb" (10 ^ 18))⟩, "k"⟩

theorem prepare_sampleToken :
    (SendCall.sendTokenByMnemonic sampleInput "k" "s").prepare sampleWeb3 = some sampleToken := by
  have hprice : sampleWeb3.getCurrentGasPrice = some 1 := by decide +kernel
  simp only [SendCall.prepare, sendTokenByMnemonic, sampleInput, toWei_one, hprice,
    Option.bind_eq_bind, Option.bind_some, Option.pure_def]
  rfl

/-- The recipient of the sample is the member. -/
def sampleRead (text : String) : Option Address := if text = "0xb" then some 0x11 else none

theorem call_sampleToken :
    (Method.transfer "0xb" (10 ^ 18)).call sampleRead = some (.transfer 0x11 (10 ^ 18)) := by
  decide +kernel

/-- The payer grants an allowance before its transfer is mined. -/
theorem guarded_transfer_succeeds_granted :
    ∃ s', Token.call (Token.run (Token.MyToken.deploy 0x10) [⟨0x10, .approve 0x12 5⟩])
      ⟨0x10, .transfer 0x11 (10 ^ 18)⟩ = some (s', [.transfer 0x10 0x11 (10 ^ 18)]) := by
  have hcheck : sampleToken.checkRead id
      ⟨fun _ => 0, fun _ => Token.MyToken.INITIAL_SUPPLY.toNat⟩ = some true := by
    decide +kernel
  have hothers : ∀ m ∈ [⟨0x10, .approve 0x12 5⟩], ¬ TakesFrom 0x10 m := by
    intro m hm hc
    obtain ⟨mv, hmv, _⟩ := hc
    rw [List.mem_singleton.mp hm] at hmv
    cases hmv
  obtain ⟨receiver, v, hread, _, hcall⟩ := guarded_transfer_succeeds sampleWeb3
    (.sendTokenByMnemonic sampleInput "k" "s") sampleToken prepare_sampleToken rfl sampleRead
    "0xb" (10 ^ 18) rfl (.transfer 0x11 (10 ^ 18)) call_sampleToken
    ⟨fun _ => 0, fun _ => Token.MyToken.INITIAL_SUPPLY.toNat⟩ (Token.MyToken.deploy 0x10)
    ⟨0x10, [], by decide, rfl⟩ 0x10 rfl id monotone_id (fun hsame => hsame.le) hcheck
    [⟨0x10, .approve 0x12 5⟩] hothers
  obtain rfl := Option.some.inj hread
  obtain ⟨s', hs'⟩ := hcall (by decide)
  exact event_of_transfer (Option.isSome_iff_exists.mpr ⟨_, hs'⟩)

end Samples

end OlsDapp.Client
