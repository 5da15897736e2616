import OlsDapp.Client.Payment

/-!
# `controllers/wallet.controller.ts`: from a request to the wallet it pays

Both routes that send tokens build an input, await `sendTokenByMnemonic` and answer with its hash;
what it rejects with goes to the error handler. A request is answered once, by the check when it
fails and else by the first report of the transaction, so an answer with a hash says that the check
has passed. It was about the address the route names, which is the signer's where the mnemonic and
the salt of the manager are of its address.
-/

namespace OlsDapp.Controllers

open Lib.Machine (run run_cons_eq_some)
open Client Web3
open Token (Address Uint256)

section Definitions

/-- The classes of `exceptions.ts`, and whatever else is thrown. -/
inductive ErrorClass where
  | invalidPassword
  | userExists
  | userNotFound
  | tokenNotFound
  | userNotActivated
  | referralDoesNotExist
  | referralIsNotActivated
  | inviteIsNotAllowed
  | authenticatorError
  | kycAlreadyVerifiedError
  | kycFailedError
  | kycPendingError
  | notCorrectVerificationCode
  | verificationIsNotFound
  | insufficientEthBalance
  | exceedMaxWithdrawAmount
  | maxVerificationsAttemptsReached
  | incorrectMnemonic
  | userActivated
  | kycShuftiProInvalidSignature
  | other
  deriving DecidableEq

/-- The `switch` of `error.handler.ts`. -/
def ErrorClass.status : ErrorClass → Nat
  | .kycFailedError | .kycAlreadyVerifiedError | .kycPendingError | .insufficientEthBalance
  | .authenticatorError => 400
  | .invalidPassword | .userNotActivated | .userActivated => 403
  | .verificationIsNotFound | .userNotFound => 404
  | .userExists | .notCorrectVerificationCode | .referralDoesNotExist | .inviteIsNotAllowed
  | .maxVerificationsAttemptsReached | .incorrectMnemonic | .referralIsNotActivated => 422
  | _ => 500

inductive Body where
  | sent (retCode : Nat) (transactionHash status type : String)
  | error (message : String) (status : Nat)
  deriving DecidableEq

structure Response where
  statusCode : Nat
  body : Body
  deriving DecidableEq

/-- `res.json`, which no caller gives an HTTP status before. -/
def json (body : Body) : Response := ⟨200, body⟩

def responseErrorWithObject (message : String) (status : Nat) : Response :=
  json (.error message status)

/-- `error.handler.ts`, with what `i18next.t` makes of a message. -/
def handle (translate : String → String) (constructor_ : ErrorClass) (message : String) :
    Response :=
  responseErrorWithObject (translate message) constructor_.status

def TRANSACTION_STATUS_PENDING : String := "pending"

def TRANSACTION_TYPE_TOKEN_PURCHASE : String := "token_purchase"

def sentResponse (transactionHash : String) : Response :=
  json (.sent 1 transactionHash TRANSACTION_STATUS_PENDING TRANSACTION_TYPE_TOKEN_PURCHASE)

structure Account where
  address : String
  privateKey : String
  deriving DecidableEq

def getAccountByMnemonicAndSalt (w : Web3) (mnemonic salt : String) : Account :=
  let privateKey := w.getPrivateKeyByMnemonicAndSalt mnemonic salt
  ⟨w.accountAddress privateKey, privateKey⟩

/-- The columns of `s_manager_wallet` the route reads. -/
structure ManagerWallet where
  eth_address : String
  mnemonic : String
  salt : String
  deriving DecidableEq

/-- The requests that send tokens; the manager is what `findOne({id: 1})` gives. -/
inductive Request where
  | sendtokenbymnemonic (mnemonic salt : String) (sendAmount : ℚ) (recvAddress : String)
  | sendtokenfromadmin (manager : Option ManagerWallet) (sendAmount : ℚ) (recvAddress : String)
  deriving DecidableEq

namespace Request

def sendAmount : Request → ℚ
  | .sendtokenbymnemonic _ _ sendAmount _ => sendAmount
  | .sendtokenfromadmin _ sendAmount _ => sendAmount

def recvAddress : Request → String
  | .sendtokenbymnemonic _ _ _ recvAddress => recvAddress
  | .sendtokenfromadmin _ _ recvAddress => recvAddress

variable (w : Web3) (defaultTransferGas : Nat)

/-- The call a route awaits; `none` when it throws before. -/
def send : Request → Option SendCall
  | .sendtokenbymnemonic mnemonic salt sendAmount recvAddress => do
    let account := getAccountByMnemonicAndSalt w mnemonic salt
    let gasPrice ← w.getCurrentGasPrice
    let input : TransactionInput :=
      { from_ := account.address, amount := sendAmount, to_ := recvAddress,
        gas := defaultTransferGas, gasPrice }
    return .sendTokenByMnemonic input mnemonic salt
  | .sendtokenfromadmin manager sendAmount recvAddress => do
    let manager ← manager
    let gasPrice ← w.getCurrentGasPrice
    let input : TransactionInput :=
      { from_ := manager.eth_address, amount := sendAmount, to_ := recvAddress,
        gas := defaultTransferGas, gasPrice }
    return .sendTokenByMnemonic input manager.mnemonic manager.salt

def prepare (r : Request) : Option Prepared := (r.send w defaultTransferGas).bind (·.prepare w)

/-- The manager's mnemonic and salt are of its address. -/
def Consistent (read : String → Address) : Request → Prop
  | .sendtokenbymnemonic _ _ _ _ => True
  | .sendtokenfromadmin manager _ _ => ∀ m ∈ manager, read m.eth_address =
      read (getAccountByMnemonicAndSalt w m.mnemonic m.salt).address

/-- What the promise of the send makes of the request; `none` as long as it is not settled. -/
def answer (translate : String → String) (f : Flow) : Option Response :=
  f.settled.map fun
    | .ok transactionHash => sentResponse transactionHash
    | .error message => handle translate .other message

/-- What has been answered after the events of the send; `none` outside for what cannot happen. -/
def respond (translate : String → String) (thrown : String) (r : Request) (es : List Event) :
    Option (Option Response) :=
  match r.prepare w defaultTransferGas with
  | some p => (run (step p) .start es).map (answer translate)
  | none => if es = [] then some (some (handle translate .other thrown)) else none

end Request

/-- `transferFee` of the client, in gwei, gas and ether. -/
structure FeeQuote where
  retCode : Nat
  gasPrice : ℚ
  gas : Nat
  expectedTxFee : ℚ
  deriving DecidableEq

def transferFee (w : Web3) (defaultTransferGas : Nat) : Option FeeQuote := do
  let gasPrice ← w.getCurrentGasPrice
  let price ← toWei gasPrice gwei
  return ⟨1, gasPrice, defaultTransferGas, fromWei (defaultTransferGas * price.toNat) ether⟩

/-- What the route signs: a call of the token contract, at the node's price. -/
structure Signs (w : Web3) (r : Request) (p : Prepared) : Prop where
  guard : p.guard = .sufficientTokenBalance
  contract : p.params.to_ = w.tokenAddress
  ether : p.params.value = 0
  gas : p.params.gas = 60000
  gasPrice : ∃ price gasPrice, w.getCurrentGasPrice = some price ∧
    toWei price gwei = some gasPrice ∧ p.params.gasPrice = some gasPrice
  amount : p.input.amount = r.sendAmount
  data : ∃ value, toWei r.sendAmount Web3.ether = some value ∧
    p.params.data = some (.transfer r.recvAddress value)
  message : p.message = "您的代币量不足"

/-- The balances the node gives, by the accounts that texts name. -/
def holding (read : String → Address) (balances : Address → Nat) : Balances :=
  ⟨fun _ => 0, fun address => balances (read address)⟩

end Definitions

section Answers

theorem ether_pos : (0 : ℚ) < (Web3.ether : ℚ) := by
  have hnat : 0 < Web3.ether := by decide
  exact_mod_cast hnat

variable {w : Web3} {gas : Nat} {p : Prepared} {f : Flow} {es : List Event} {r : Request}

/-- The promise is settled by the failed check, and else by the first report. -/
theorem settled_eq (h : run (step p) .start es = some f) : f.settled =
    if .checkResolved false ∈ es then some (.error p.message)
    else es.findSome? Event.outcome := by
  cases es with
  | nil =>
    obtain rfl := Option.some.inj h
    rfl
  | cons e es =>
    obtain ⟨t, ht, hrest⟩ := run_cons_eq_some.mp h
    rcases step_checking rfl ht with ⟨ok, rfl, rfl⟩ | ⟨err, rfl, rfl⟩
    · cases ok with
      | true =>
        obtain ⟨_, hchecks, hcase⟩ := run_signing rfl rfl hrest
        have hno : Event.checkResolved false ∉ Event.checkResolved true :: es :=
          List.not_mem_cons_of_ne_of_not_mem nofun (hchecks false)
        rw [if_neg hno, List.findSome?_cons]
        rcases hcase with ⟨_, hsettled, hnone⟩ | ⟨_, hsettled⟩
        · exact hsettled.trans hnone.symm
        · exact hsettled
      | false =>
        obtain ⟨_, _, hcase⟩ := run_signing rfl rfl hrest
        rw [if_pos List.mem_cons_self]
        rcases hcase with ⟨_, hsettled, _⟩ | ⟨_, hsettled⟩
        · exact hsettled
        · exact hsettled
    · obtain ⟨rfl, rfl⟩ := run_stuck rfl hrest
      rfl

theorem answer_sent {translate : String → String} {hash : String}
    (h : Request.answer translate f = some (sentResponse hash)) : f.settled = some (.ok hash) := by
  obtain ⟨settled, hsettled, heq⟩ := Option.map_eq_some_iff.mp h
  cases settled with
  | ok hash' =>
    rw [hsettled]
    simp only [sentResponse, json, Response.mk.injEq, Body.sent.injEq, true_and, and_true] at heq
    rw [heq]
  | error message => cases heq

theorem prepare_signs (h : r.prepare w gas = some p) : Signs w r p := by
  obtain ⟨c, hc, hp⟩ := Option.bind_eq_some_iff.mp h
  cases r with
  | sendtokenbymnemonic mnemonic salt sendAmount recvAddress =>
    simp only [Request.send, Option.bind_eq_bind, Option.bind_eq_some_iff, Option.pure_def,
      Option.some.injEq] at hc
    obtain ⟨_, _, rfl⟩ := hc
    simp only [SendCall.prepare, sendTokenByMnemonic, Option.bind_eq_bind, Option.bind_eq_some_iff,
      Option.pure_def, Option.some.injEq] at hp
    obtain ⟨price, hprice, gasPrice, hgasPrice, value, hvalue, data, hencodes, rfl⟩ := hp
    obtain rfl := encodeABI_eq_some hencodes
    exact ⟨rfl, rfl, rfl, rfl, ⟨price, gasPrice, hprice, hgasPrice, rfl⟩, rfl, ⟨value, hvalue, rfl⟩,
      rfl⟩
  | sendtokenfromadmin manager sendAmount recvAddress =>
    simp only [Request.send, Option.bind_eq_bind, Option.bind_eq_some_iff, Option.pure_def,
      Option.some.injEq] at hc
    obtain ⟨m, rfl, _, _, rfl⟩ := hc
    simp only [SendCall.prepare, sendTokenByMnemonic, Option.bind_eq_bind, Option.bind_eq_some_iff,
      Option.pure_def, Option.some.injEq] at hp
    obtain ⟨price, hprice, gasPrice, hgasPrice, value, hvalue, data, hencodes, rfl⟩ := hp
    obtain rfl := encodeABI_eq_some hencodes
    exact ⟨rfl, rfl, rfl, rfl, ⟨price, gasPrice, hprice, hgasPrice, rfl⟩, rfl, ⟨value, hvalue, rfl⟩,
      rfl⟩

/-- The guard is asked about the account that signs exactly where the request is consistent. -/
theorem asked_iff {read : String → Address} (h : r.prepare w gas = some p) :
    read p.input.from_ = read (w.accountAddress p.key) ↔ r.Consistent w read := by
  obtain ⟨c, hc, hp⟩ := Option.bind_eq_some_iff.mp h
  cases r with
  | sendtokenbymnemonic mnemonic salt sendAmount recvAddress =>
    simp only [Request.send, Option.bind_eq_bind, Option.bind_eq_some_iff, Option.pure_def,
      Option.some.injEq] at hc
    obtain ⟨_, _, rfl⟩ := hc
    simp only [SendCall.prepare, sendTokenByMnemonic, Option.bind_eq_bind, Option.bind_eq_some_iff,
      Option.pure_def, Option.some.injEq] at hp
    obtain ⟨_, _, _, _, _, _, _, _, rfl⟩ := hp
    exact iff_of_true rfl trivial
  | sendtokenfromadmin manager sendAmount recvAddress =>
    simp only [Request.send, Option.bind_eq_bind, Option.bind_eq_some_iff, Option.pure_def,
      Option.some.injEq] at hc
    obtain ⟨m, rfl, _, _, rfl⟩ := hc
    simp only [SendCall.prepare, sendTokenByMnemonic, Option.bind_eq_bind, Option.bind_eq_some_iff,
      Option.pure_def, Option.some.injEq] at hp
    obtain ⟨_, _, _, _, _, _, _, _, rfl⟩ := hp
    constructor
    · intro hsame m' hm'
      obtain rfl := Option.some.inj hm'
      exact hsame
    · intro hall
      exact hall m rfl

theorem respond_prepared {translate : String → String} {thrown : String}
    {res : Option Response} (hp : r.prepare w gas = some p)
    (h : r.respond w gas translate thrown es = some res) :
    ∃ f, run (step p) .start es = some f ∧ res = Request.answer translate f := by
  rw [Request.respond, hp] at h
  obtain ⟨f, hf, rfl⟩ := Option.map_eq_some_iff.mp h
  exact ⟨f, hf, rfl⟩

/-- The guard asks for what the signed call takes, of the account the route names. -/
theorem check_iff (h : r.prepare w gas = some p) : ∃ value : Int,
    r.sendAmount * Web3.ether = value ∧ p.params.data = some (.transfer r.recvAddress value) ∧
      p.params.tokenNeed = value ∧
        ∀ b, p.check b = some true ↔ value ≤ b.balanceOf p.input.from_ := by
  have hsigns := prepare_signs h
  obtain ⟨value, hvalue, hdata⟩ := hsigns.data
  refine ⟨value, toWei_eq_some.mp hvalue, hdata, ?_, fun b => ?_⟩
  · rw [TxParams.tokenNeed, hdata]
  · rw [← hsigns.amount] at hvalue
    rw [Prepared.check, hsigns.guard]
    exact sufficientTokenBalance_iff hvalue

/-- On doubles, the guard compares the amount with the balance of the address the route names. -/
theorem checkRead_holding (h : r.prepare w gas = some p) (read : String → Address)
    (parseFloat : ℚ → ℚ) (balances : Address → Nat) :
    p.checkRead parseFloat (holding read balances) = some true ↔ parseFloat r.sendAmount ≤
      parseFloat (fromWei (balances (read p.input.from_)) Web3.ether) := by
  have hsigns := prepare_signs h
  rw [Prepared.checkRead, hsigns.guard, hsigns.amount]
  exact Option.some_inj.trans decide_eq_true_iff

/-- No report comes before a check that has not failed. -/
theorem checked_of_report {report : Except String String} (h : run (step p) .start es = some f)
    (hno : .checkResolved false ∉ es) (hfirst : es.findSome? Event.outcome = some report) :
    .checkResolved true ∈ es := by
  cases es with
  | nil => cases hfirst
  | cons e es =>
    obtain ⟨t, ht, hrest⟩ := run_cons_eq_some.mp h
    rcases step_checking rfl ht with ⟨ok, rfl, rfl⟩ | ⟨err, rfl, rfl⟩
    · cases ok with
      | true => exact List.mem_cons_self
      | false => exact absurd List.mem_cons_self hno
    · obtain ⟨rfl, rfl⟩ := run_stuck rfl hrest
      cases hfirst

/-- A request that is answered with a hash has passed its check. -/
theorem checked_of_sent {translate : String → String} {thrown hash : String}
    (h : r.respond w gas translate thrown es = some (some (sentResponse hash))) :
    ∃ p, r.prepare w gas = some p ∧ .checkResolved true ∈ es := by
  cases hp : r.prepare w gas with
  | none =>
    rw [Request.respond, hp] at h
    obtain ⟨_, hres⟩ := Option.ite_none_right_eq_some.mp h
    cases hres
  | some p =>
    obtain ⟨f, hf, hres⟩ := respond_prepared hp h
    have hok := answer_sent hres.symm
    rw [settled_eq hf] at hok
    split at hok
    · cases hok
    · next hno => exact ⟨p, rfl, checked_of_report hf hno hok⟩

/-- Of a request whose check has passed, the call that is signed moves the amount of the request,
and its payer had it when the node was asked. -/
theorem pays_of_checked {read : String → Address} {balances : Address → Uint256}
    {parseFloat : ℚ → ℚ} (hmono : Monotone parseFloat) (hp : r.prepare w gas = some p)
    (hconsistent : r.Consistent w read) (hamount : 0 ≤ r.sendAmount)
    (htells : Tells parseFloat r.sendAmount
      (fromWei (balances (read (w.accountAddress p.key))).toNat Web3.ether))
    (hcheck : p.checkRead parseFloat (holding read fun a => (balances a).toNat) = some true) :
    ∃ v : Uint256, Handler.fromWei v.toNat = r.sendAmount ∧
      p.params.data.bind (Method.call fun text => some (read text)) =
        some (.transfer (read r.recvAddress) v) ∧
          v ≤ balances (read (w.accountAddress p.key)) := by
  have hsigns := prepare_signs hp
  obtain ⟨value, hvalue, hdata, _, hasked⟩ := check_iff hp
  rw [← hsigns.amount, ← (asked_iff hp).mpr hconsistent] at htells
  have hcovered : p.check (holding read fun a => (balances a).toNat) = some true :=
    check_of_tells hmono hsigns.guard htells hcheck
  have hfunds : value ≤ (balances (read p.input.from_)).toNat := (hasked _).mp hcovered
  rw [(asked_iff hp).mpr hconsistent] at hfunds
  have hnonneg : 0 ≤ value := by
    have hscaled := mul_nonneg hamount (Nat.cast_nonneg (α := ℚ) Web3.ether)
    rw [hvalue] at hscaled
    exact_mod_cast hscaled
  have hlt := (balances (read (w.accountAddress p.key))).isLt
  have hcall : (Method.transfer r.recvAddress value).call (fun text => some (read text)) =
      some (.transfer (read r.recvAddress) (BitVec.ofInt 256 value)) := by
    simp only [Method.call, Option.bind_eq_bind, Option.bind_some]
    exact if_pos ⟨hnonneg, by omega⟩
  obtain ⟨_, v, _, hv, htoNat⟩ := call_transfer hcall
  obtain ⟨_, rfl⟩ := Token.Call.transfer.inj hv
  refine ⟨_, fromWei_value (toWei_eq_some.mpr hvalue) htoNat, ?_, ?_⟩
  · rw [hdata]
    exact hcall
  · rw [BitVec.le_def]
    omega

end Answers

section Samples

/-- One token, by a mnemonic that is its own key and address. -/
def sampleRequest : Request := .sendtokenbymnemonic "k" "s" 1 "0xb"

def sampleSend : Prepared :=
  ⟨⟨"k", "0xb", 1, 100000, 1⟩, .sufficientTokenBalance, "您的代币量不足",
    ⟨0, none, "0xt", 60000, some (10 ^ 9), some (.transfer "0xb" (10 ^ 18))⟩, "k"⟩

theorem prepare_sampleRequest : sampleRequest.prepare sampleWeb3 100000 = some sampleSend := by
  have hprice : sampleWeb3.getCurrentGasPrice = some 1 := by decide +kernel
  simp only [Request.prepare, Request.send, sampleRequest, SendCall.prepare, sendTokenByMnemonic,
    toWei_one, hprice, Option.bind_eq_bind, Option.bind_some, Option.pure_def]
  rfl

/-- The manager of another address. -/
def sampleAdminRequest : Request := .sendtokenfromadmin (some ⟨"m", "k", "s"⟩) 1 "0xb"

theorem prepare_sampleAdminRequest : sampleAdminRequest.prepare sampleWeb3 100000 =
    some { sampleSend with input := ⟨"m", "0xb", 1, 100000, 1⟩ } := by
  have hprice : sampleWeb3.getCurrentGasPrice = some 1 := by decide +kernel
  simp only [Request.prepare, Request.send, sampleAdminRequest, SendCall.prepare,
    sendTokenByMnemonic, toWei_one, hprice, Option.bind_eq_bind, Option.bind_some, Option.pure_def]
  rfl

def sampleNames (text : String) : Address :=
  if text = "k" then 0x10 else if text = "0xb" then 0x11 else 0x12

/-- The check passes and the hash is reported. -/
def sampleReports : List Event := [.checkResolved true, .signResolved "raw", .transactionHash "h"]

theorem respond_sampleReports : sampleRequest.respond sampleWeb3 100000 id "" sampleReports =
    some (some (sentResponse "h")) := by
  rw [Request.respond, prepare_sampleRequest]
  rfl

theorem checked_sampleReports (p : Prepared) (ok : Bool)
    (hp : sampleRequest.prepare sampleWeb3 100000 = some p)
    (hok : .checkResolved ok ∈ sampleReports) :
    p.checkRead id (holding sampleNames fun a => ((Token.MyToken.deploy 0x10).balances a).toNat) =
      some ok := by
  obtain rfl := Option.some.inj (prepare_sampleRequest.symm.trans hp)
  obtain rfl : ok = true := by
    simpa [sampleReports] using hok
  decide +kernel

end Samples

/-- What a request is answered, for every order of events: the hash exactly when its preparation
did not throw, the check did not fail and the transaction first reported its hash; anything else
that is answered is an error with HTTP status 200 and 500 in its body. -/
theorem request_answer (w : Web3) (gas : Nat) (translate : String → String) (thrown : String)
    (r : Request) (es : List Event) (res : Option Response)
    (h : r.respond w gas translate thrown es = some res) :
    (∀ hash, res = some (sentResponse hash) ↔ (r.prepare w gas).isSome ∧
      .checkResolved false ∉ es ∧ es.findSome? Event.outcome = some (.ok hash)) ∧
    ∀ response ∈ res, (∃ hash, response = sentResponse hash) ∨
      ∃ message, response = ⟨200, .error (translate message) 500⟩ := by
  cases hp : r.prepare w gas with
  | none =>
    rw [Request.respond, hp] at h
    obtain ⟨_, hres⟩ := Option.ite_none_right_eq_some.mp h
    obtain rfl := Option.some.inj hres
    refine ⟨fun hash => iff_of_false (fun hc => ?_) fun hc => absurd hc.1 Bool.false_ne_true,
      fun response hmem => Or.inr ⟨thrown, ?_⟩⟩
    · cases hc
    · exact (Option.some.inj hmem).symm
  | some p =>
    obtain ⟨f, hf, rfl⟩ := respond_prepared hp h
    have hsettled := settled_eq hf
    constructor
    · intro hash
      constructor
      · intro hsent
        have hok := answer_sent hsent
        rw [hsettled] at hok
        split at hok
        · cases hok
        · next hno => exact ⟨rfl, hno, hok⟩
      · rintro ⟨_, hno, hfirst⟩
        rw [if_neg hno, hfirst] at hsettled
        rw [Request.answer, hsettled]
        rfl
    · intro response hmem
      obtain ⟨settled, _, rfl⟩ := Option.map_eq_some_iff.mp hmem
      cases settled with
      | ok hash => exact Or.inl ⟨hash, rfl⟩
      | error message => exact Or.inr ⟨message, rfl⟩

/-- The check fails, and the hash that is reported after it is not answered. -/
theorem request_answer_refused : ∃ res, sampleRequest.respond sampleWeb3 100000 id ""
    [.checkResolved false, .signResolved "raw", .transactionHash "h"] = some res ∧
      ∀ hash, res ≠ some (sentResponse hash) := by
  have h : sampleRequest.respond sampleWeb3 100000 id ""
      [.checkResolved false, .signResolved "raw", .transactionHash "h"] =
        some (some ⟨200, .error "您的代币量不足" 500⟩) := by
    rw [Request.respond, prepare_sampleRequest]
    rfl
  refine ⟨_, h, fun hash hsent => ?_⟩
  obtain ⟨hiff, _⟩ := request_answer sampleWeb3 100000 id "" sampleRequest _ _ h
  exact ((hiff hash).mp hsent).2.1 List.mem_cons_self

/-- The check of the route's guard speaks for the account that signs, whatever all balances are,
exactly when the request is consistent or the amount is read as nothing. -/
theorem guard_sees_payer_iff (w : Web3) (gas : Nat) (r : Request) (p : Prepared)
    (h : r.prepare w gas = some p) (read : String → Address) (parseFloat : ℚ → ℚ)
    (hmono : Monotone parseFloat) :
    (∀ balances : Address → Nat, p.checkRead parseFloat (holding read balances) = some true ↔
      parseFloat r.sendAmount ≤
        parseFloat (fromWei (balances (read (w.accountAddress p.key))) Web3.ether)) ↔
    r.Consistent w read ∨ parseFloat r.sendAmount ≤ parseFloat 0 := by
  have hasked := checkRead_holding h read parseFloat
  have hzero : fromWei 0 Web3.ether = 0 := zero_div _
  constructor
  · intro hall
    by_contra hne
    obtain ⟨hinconsistent, hpositive⟩ := not_or.mp hne
    have hdiffer : read (w.accountAddress p.key) ≠ read p.input.from_ :=
      fun hsame => hinconsistent ((asked_iff h).mp hsame.symm)
    obtain ⟨value, hvalue, _⟩ := check_iff h
    have hamount : r.sendAmount ≤ fromWei value.toNat Web3.ether := by
      rw [fromWei, le_div_iff₀ ether_pos, hvalue]
      exact_mod_cast Int.self_le_toNat value
    -- only the address that is asked about holds the amount
    have hcase := hall (Function.update (fun _ => 0) (read p.input.from_) value.toNat)
    rw [hasked, Function.update_self, Function.update_of_ne hdiffer, hzero] at hcase
    exact hpositive (hcase.mp (hmono hamount))
  · intro hor balances
    rw [hasked]
    rcases hor with hconsistent | hnone
    · rw [(asked_iff h).mpr hconsistent]
    · have hall (wei : Nat) : parseFloat r.sendAmount ≤ parseFloat (fromWei wei Web3.ether) := by
        refine hnone.trans (hmono ?_)
        exact div_nonneg (Nat.cast_nonneg wei) ether_pos.le
      exact iff_of_true (hall _) (hall _)

/-- Where the manager's row is not consistent some balances deceive the guard. -/
theorem guard_sees_payer_iff_deceived :
    ¬ ∀ balances : Address → Nat,
      Prepared.checkRead id (holding sampleNames balances)
          { sampleSend with input := ⟨"m", "0xb", 1, 100000, 1⟩ } = some true ↔
        1 ≤ fromWei (balances (sampleNames "k")) Web3.ether := by
  intro hall
  have hor := (guard_sees_payer_iff sampleWeb3 100000 sampleAdminRequest _
    prepare_sampleAdminRequest sampleNames id monotone_id).mp hall
  rcases hor with hconsistent | hnone
  · exact absurd (hconsistent _ rfl) (by decide)
  · exact absurd hnone (by decide +kernel)

/-- A request that is answered with a hash pays: whatever calls are mined between the node's answer
to its check and its transaction, unless one of them takes from the signer, the transaction moves
the amount of the request from the signer to the receiver it names. -/
theorem answered_request_pays (w : Web3) (gas : Nat) (translate : String → String)
    (thrown : String) (r : Request) (es : List Event) (hash : String)
    (h : r.respond w gas translate thrown es = some (some (sentResponse hash)))
    (read : String → Address) (hconsistent : r.Consistent w read) (hamount : 0 ≤ r.sendAmount)
    (hreceiver : read r.recvAddress ≠ 0) (s : Token.Storage) (hs : Token.Reachable s)
    (parseFloat : ℚ → ℚ) (hmono : Monotone parseFloat)
    (htells : ∀ p, r.prepare w gas = some p → Tells parseFloat r.sendAmount
      (fromWei (s.balances (read (w.accountAddress p.key))).toNat Web3.ether))
    (hchecked : ∀ p ok, r.prepare w gas = some p → .checkResolved ok ∈ es →
      p.checkRead parseFloat (holding read fun a => (s.balances a).toNat) = some ok) :
    ∃ p v, r.prepare w gas = some p ∧ Handler.fromWei v.toNat = r.sendAmount ∧
      p.params.data.bind (Method.call fun text => some (read text)) =
        some (.transfer (read r.recvAddress) v) ∧
      ∀ msgs, (∀ m ∈ msgs, ¬ TakesFrom (read (w.accountAddress p.key)) m) →
        ∃ s', Token.call (Token.run s msgs)
            ⟨read (w.accountAddress p.key), .transfer (read r.recvAddress) v⟩ =
          some (s', [.transfer (read (w.accountAddress p.key)) (read r.recvAddress) v]) := by
  obtain ⟨p, hp, hpassed⟩ := checked_of_sent h
  obtain ⟨v, hv, hcall, hfunds⟩ := pays_of_checked hmono hp hconsistent hamount (htells p hp)
    (hchecked p true hp hpassed)
  refine ⟨p, v, hp, hv, hcall, fun msgs hothers => ?_⟩
  have hkept := run_balance_ge (s := s) hothers
  apply call_transfer_eq (reachable_run hs) _ hreceiver
  rw [BitVec.le_def] at hfunds ⊢
  omega

/-- The signer grants an allowance before its transaction is mined. -/
theorem answered_request_pays_granted : ∃ v s',
    Token.call (Token.run (Token.MyToken.deploy 0x10) [⟨0x10, .approve 0x12 5⟩])
        ⟨0x10, .transfer 0x11 v⟩ = some (s', [.transfer 0x10 0x11 v]) ∧
      Handler.fromWei v.toNat = 1 := by
  obtain ⟨p, v, hp, hv, _, hpays⟩ := answered_request_pays sampleWeb3 100000 id "" sampleRequest
    sampleReports "h" respond_sampleReports sampleNames trivial (by decide +kernel)
    (by decide +kernel) (Token.MyToken.deploy 0x10) ⟨0x10, [], by decide, rfl⟩ id monotone_id
    (fun _ _ hsame => hsame.le) checked_sampleReports
  obtain rfl := Option.some.inj (prepare_sampleRequest.symm.trans hp)
  have hothers : ∀ m ∈ [⟨0x10, .approve 0x12 5⟩], ¬ TakesFrom 0x10 m := by
    intro m hm hc
    obtain ⟨mv, hmv, _⟩ := hc
    rw [List.mem_singleton.mp hm] at hmv
    cases hmv
  obtain ⟨s', hs'⟩ := hpays [⟨0x10, .approve 0x12 5⟩] hothers
  exact ⟨v, s', hs', hv⟩

/-- The fee `transferTxFee` quotes is the configured gas at the node's price, to the wei, and
covers the ether a token transfer takes exactly when that gas is at least the 60000 it is signed
with, or the price is zero. -/
theorem quoted_fee_covers_iff (w : Web3) (gas : Nat) (r : Request) (p : Prepared)
    (h : r.prepare w gas = some p) (price : Nat) (hprice : w.getGasPrice = some price)
    (q : FeeQuote) (hq : transferFee w gas = some q) :
    q.expectedTxFee * Web3.ether = gas * price ∧
      ((p.params.ethNeed price : ℚ) ≤ q.expectedTxFee * Web3.ether ↔ 60000 ≤ gas ∨ price = 0) := by
  have hcurrent := getCurrentGasPrice_eq hprice
  have hgwei := toWei_fromWei (by decide : 0 < gwei) price
  have hsigns := prepare_signs h
  obtain ⟨asked, gasPrice, hasked, hgasPrice, hsigned⟩ := hsigns.gasPrice
  obtain rfl := Option.some.inj (hcurrent.symm.trans hasked)
  obtain rfl := Option.some.inj (hgwei.symm.trans hgasPrice)
  have hneed : p.params.ethNeed price = ((60000 * price : Nat) : Int) := by
    rw [TxParams.ethNeed, hsigns.ether, hsigns.gas, hsigned, Option.getD_some]
    omega
  simp only [transferFee, hcurrent, hgwei, Option.bind_eq_bind, Option.bind_some, Option.pure_def,
    Option.some.injEq] at hq
  have hfee : q.expectedTxFee * Web3.ether = ((gas * price : Nat) : ℚ) := by
    rw [← hq]
    exact div_mul_cancel₀ _ ether_pos.ne'
  refine ⟨hfee.trans (Nat.cast_mul gas price), ?_⟩
  rw [hfee, hneed]
  have hnat : (((60000 * price : Nat) : Int) : ℚ) ≤ ((gas * price : Nat) : ℚ) ↔
      60000 * price ≤ gas * price := by
    exact_mod_cast Iff.rfl
  rw [hnat]
  constructor
  · intro hle
    rcases Nat.eq_zero_or_pos price with hzero | hpos
    · exact Or.inr hzero
    · exact Or.inl (Nat.le_of_mul_le_mul_right hle hpos)
  · rintro (hgas | rfl)
    · exact Nat.mul_le_mul_right price hgas
    · exact Nat.le_refl _

/-- The default gas covers it. -/
theorem quoted_fee_covers_iff_default : ∃ q, transferFee sampleWeb3 100000 = some q ∧
    (sampleSend.params.ethNeed (10 ^ 9) : ℚ) ≤ q.expectedTxFee * Web3.ether := by
  have h : (transferFee sampleWeb3 100000).isSome = true := by decide +kernel
  obtain ⟨q, hq⟩ := Option.isSome_iff_exists.mp h
  obtain ⟨_, hiff⟩ := quoted_fee_covers_iff sampleWeb3 100000 sampleRequest sampleSend
    prepare_sampleRequest (10 ^ 9) rfl q hq
  exact ⟨q, hq, hiff.mpr (Or.inl (by decide))⟩

end OlsDapp.Controllers
