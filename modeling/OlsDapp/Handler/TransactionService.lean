import OlsDapp.Handler.Calldata
import OlsDapp.Handler.System
import OlsDapp.Token.Effect
import Mathlib.Tactic.FieldSimp

/-!
# `services/transaction.service.ts`: the recorder that reads calldata

`createAndSaveTransaction` takes sender, receiver and amount from the calldata of a transaction,
`processTokenTransfer` from the `Transfer` log the mined transaction carries. Only `transfer` is
decoded, so a `transferFrom` leaves a row the log does not find; a selector outside the ABI
throws, and so does a receiver of fewer than twenty bytes. A number of 10^21 or more is decoded to
a text with an exponent, which `BN` does not read. A pending row has no block number for its column.
-/

namespace OlsDapp.Handler

open Lib (Byte Row Table fromBigEndian)
open Token (Address Uint256)

section Definitions

/-- A transaction as web3 returns it; an address is held apart from the case of its text. -/
structure TxData where
  hash : String
  from_ : Address
  to_ : Option Address
  input : List Byte
  value : Nat
  deriving DecidableEq

structure TransactionService where
  abi : TokenAbi
  /-- `config.contracts.token.address` -/
  tokenAddress : Address
  /-- `none` is an exception. -/
  toChecksumAddress : String → Option String
  /-- The text of an address with its checksum, as logs have it. -/
  checksumAddress : Address → String
  /-- The number that `new BN(text)` is. -/
  newBN : String → Nat
  checksum_address : ∀ address,
    toChecksumAddress (addressText address) = some (checksumAddress address)
  checksum_refuses : ∀ digits : List Char, digits.length ≠ 40 →
    toChecksumAddress (String.ofList ('0' :: 'x' :: digits)) = none
  checksum_inj : Function.Injective checksumAddress
  checksum_ne : ∀ address, checksumAddress address ≠ ""
  newBN_digits : ∀ n < 10 ^ 21, newBN (bigNumberText n) = n
  /-- The letter, the sign and the point of an exponent are taken for digits. -/
  newBN_exponent : ∀ n s, 10 ^ 21 ≤ n → n < 2 ^ 256 → newBN (bigNumberText n) ≠ n * 256 ^ s

structure FromToTokenAmount where
  from_ : String
  to_ : String
  tokenAmount : Amount
  deriving DecidableEq

namespace TransactionService

variable (svc : TransactionService)

def getTxTypeByData (txData : TxData) : TxType :=
  if txData.to_ = some svc.tokenAddress then .ols else .eth

/-- `none` is an exception. -/
def getFromToTokenAmountByTxDataAndType (txData : TxData) (type : TxType) :
    Option FromToTokenAmount := do
  let from_ ← svc.toChecksumAddress (addressText txData.from_)
  if type = .ols then
    -- `decodedData.name` of `undefined` throws
    let decodedData ← svc.abi.decodeMethod txData.input
    if decodedData.name = "transfer" then
      match decodedData.params with
      | to_ :: value :: _ =>
        let to_ ← svc.toChecksumAddress to_
        return ⟨from_, to_, .num (fromWei (svc.newBN value))⟩
      | _ => none
    else return ⟨from_, "", .nan⟩
  else
    match txData.to_ with
    | some to_ =>
      let to_ ← svc.toChecksumAddress (addressText to_)
      return ⟨from_, to_, .nan⟩
    | none => return ⟨from_, "", .nan⟩

end TransactionService

/-- A transaction entity before its insert; without a block there is no number to set. -/
structure TransactionEntity where
  transactionHash : String
  timestamp : Nat
  blockNumber : Option Nat
  from_ : String
  to_ : String
  ethAmount : Amount
  tokenAmount : Amount
  status : TxStatus
  type : TxType
  deriving DecidableEq

def TransactionEntity.row (env : Env) (entity : TransactionEntity) : Option Transaction := do
  let blockNumber ← env.column entity.blockNumber none 0
  return { transactionHash := entity.transactionHash
           timestamp := entity.timestamp
           blockNumber
           from_ := entity.from_
           to_ := entity.to_
           ethAmount := entity.ethAmount
           tokenAmount := entity.tokenAmount
           status := entity.status
           type := entity.type }

namespace TransactionService

variable (svc : TransactionService)

/-- `none` when the promise is rejected. -/
def createAndSaveTransaction (env : Env) (db : Db) (transactionData : TxData) (status : TxStatus)
    (blockData : Option Block) : Option Db := do
  let type := svc.getTxTypeByData transactionData
  let data ← svc.getFromToTokenAmountByTxDataAndType transactionData type
  let txToSave : TransactionEntity :=
    { transactionHash := transactionData.hash
      from_ := data.from_
      type
      to_ := data.to_
      ethAmount := .num (fromWei transactionData.value)
      tokenAmount := data.tokenAmount
      status
      timestamp := (blockData.map (·.timestamp)).getD env.now
      blockNumber := blockData.map (·.number) }
  let row ← txToSave.row env
  return { db with transaction := db.transaction.insert row }

/-- What the contract makes of the transaction; none of its functions is payable. -/
def mined (s : Token.Storage) (txData : TxData) : Token.Outcome := do
  Token.require (txData.value = 0)
  let c ← svc.abi.dispatch txData.input
  Token.call s ⟨txData.from_, c⟩

/-- The log is a `Transfer` of the mined transaction, as web3 delivers it. -/
def Emits (s : Token.Storage) (txData : TxData) (log : TransferEvent) : Prop :=
  ∃ s' es from_ to_ value, svc.mined s txData = some (s', es) ∧
    Token.Event.transfer from_ to_ value ∈ es ∧ log.transactionHash = txData.hash ∧
      log.from_ = svc.checksumAddress from_ ∧ log.to_ = svc.checksumAddress to_ ∧
        log.value = value.toNat

/-- The pending row is saved, and every log of the transaction finds it by its key, with its
amount: delivered on a table without an earlier row of that key, it moves this row on. -/
structure Agree (env : Env) (s : Token.Storage) (db : Db) (txData : TxData)
    (row : Transaction) : Prop where
  saved : svc.createAndSaveTransaction env db txData .pending none =
    some { db with transaction := db.transaction.insert row }
  pending : row.status = .pending
  found : ∀ log, svc.Emits s txData log →
    log.matches row = true ∧ row.tokenAmount = .num (fromWei log.value)
  moved : ∀ log, svc.Emits s txData log → db.transaction.findOne log.matches = none →
    ∀ receipt, env.getTransactionReceipt log.transactionHash = some receipt →
      let db' := { db with transaction := db.transaction.insert row }
      let tx : Row Transaction :=
        ⟨db.transaction.nextId, row.updated (transformedTxData env log receipt)⟩
      processTokenTransfer env db' log =
        ({ db' with transaction := db'.transaction.save tx }, some tx)

/-- What the recorder needs of the database, the calldata and the contract to read a transaction
as its log has it. -/
structure Readable (env : Env) (s : Token.Storage) (txData : TxData) : Prop where
  lenient : env.strict = false
  selector : txData.input.take 4 ∈ svc.abi.methodIDs
  /-- Twenty bytes behind the selector of `transfer` are an address to `toChecksumAddress`. -/
  address : svc.abi.functionOf (txData.input.take 4) = some .transfer → 24 ≤ txData.input.length
  transferFrom : ∀ from_ to_ value,
    svc.abi.dispatch txData.input = some (.transferFrom from_ to_ value) →
      svc.mined s txData = none
  /-- The receiver's word is there, and so is the amount's, unless it is zero all the same. -/
  transfer : ∀ to_ value, svc.abi.dispatch txData.input = some (.transfer to_ value) →
    svc.mined s txData ≠ none →
      36 ≤ txData.input.length ∧ value.toNat < 10 ^ 21 ∧
        (68 ≤ txData.input.length ∨ value = 0)

end TransactionService

end Definitions

namespace TransactionService

variable {svc : TransactionService} {env : Env} {s : Token.Storage} {db db' : Db}
  {txData : TxData} {log : TransferEvent}

section Recorder

theorem getTxTypeByData_token (h : txData.to_ = some svc.tokenAddress) :
    svc.getTxTypeByData txData = .ols := if_pos h

theorem dispatch_eq_some {c : Token.Call} : svc.abi.dispatch txData.input = some c ↔
    ∃ f, svc.abi.functionOf (txData.input.take 4) = some f ∧ f.call txData.input = c := by
  rw [TokenAbi.dispatch, Option.map_eq_some_iff]

theorem dispatch_transfer {to_ : Address} {value : Uint256}
    (h : svc.abi.dispatch txData.input = some (.transfer to_ value)) :
    svc.abi.functionOf (txData.input.take 4) = some .transfer ∧
      (calldataWord txData.input 0).setWidth 160 = to_ ∧ calldataWord txData.input 1 = value := by
  obtain ⟨f, hf, hcall⟩ := dispatch_eq_some.mp h
  cases f with
  | transfer =>
    cases hcall
    exact ⟨hf, rfl, rfl⟩
  | transferFrom | approve | increaseApproval | decreaseApproval | burn | burnFrom
  | transferOwnership => cases hcall

/-- What the recorder makes of a `transfer`: the texts of what there is of its two words. -/
theorem reads_transfer (h : svc.abi.functionOf (txData.input.take 4) = some .transfer) :
    svc.getFromToTokenAmountByTxDataAndType txData .ols =
      (svc.toChecksumAddress (SolidityType.address.format (wordBytes txData.input 0))).map
        fun to_ => ⟨svc.checksumAddress txData.from_, to_, .num (fromWei
          (svc.newBN (bigNumberText (fromBigEndian (wordBytes txData.input 1)))))⟩ := by
  rw [getFromToTokenAmountByTxDataAndType, svc.checksum_address, svc.abi.decodes _ _ h]
  exact (Option.map_eq_bind ..).symm

/-- Of any other function nothing but the sender is read. -/
theorem reads_other {decodedData : DecodedData}
    (h : svc.abi.decodeMethod txData.input = some decodedData)
    (hname : decodedData.name ≠ "transfer") :
    svc.getFromToTokenAmountByTxDataAndType txData .ols =
      some ⟨svc.checksumAddress txData.from_, "", .nan⟩ := by
  rw [getFromToTokenAmountByTxDataAndType, svc.checksum_address, h]
  exact if_neg hname

theorem reads_transferFrom {from_ to_ : Address} {value : Uint256}
    (h : svc.abi.dispatch txData.input = some (.transferFrom from_ to_ value)) :
    svc.getFromToTokenAmountByTxDataAndType txData .ols =
      some ⟨svc.checksumAddress txData.from_, "", .nan⟩ := by
  obtain ⟨f, hf, hcall⟩ := dispatch_eq_some.mp h
  cases f with
  | transferFrom =>
    have hname : "transferFrom" ≠ "transfer" := by decide
    exact reads_other (svc.abi.decodes _ _ hf) hname
  | transfer | approve | increaseApproval | decreaseApproval | burn | burnFrom
  | transferOwnership => cases hcall

/-- The receiver's text is refused exactly when fewer than twenty bytes of it are there. -/
theorem checksum_format (svc : TransactionService) (bytes : List Byte) :
    svc.toChecksumAddress (SolidityType.address.format bytes) =
      if 20 ≤ bytes.length then some (svc.checksumAddress (BitVec.ofNat 160 (fromBigEndian bytes)))
      else none := by
  split
  · next h => rw [format_long h, svc.checksum_address]
  · next h => exact svc.checksum_refuses _ (format_short (Nat.lt_of_not_le h))

/-- The calldata is read exactly when its selector is in the ABI and a `transfer` has twenty bytes
of its receiver. -/
theorem reads_iff : (∃ data, svc.getFromToTokenAmountByTxDataAndType txData .ols = some data) ↔
    txData.input.take 4 ∈ svc.abi.methodIDs ∧
      (svc.abi.functionOf (txData.input.take 4) = some .transfer → 24 ≤ txData.input.length) := by
  have hundefined := svc.abi.undefined_iff txData.input
  cases hdecode : svc.abi.decodeMethod txData.input with
  | none =>
    have hout := hundefined.mp hdecode
    refine iff_of_false (fun hgiven => ?_) fun hgiven => hout hgiven.1
    obtain ⟨data, hdata⟩ := hgiven
    rw [getFromToTokenAmountByTxDataAndType, svc.checksum_address, hdecode] at hdata
    cases hdata
  | some decodedData =>
    have hin : txData.input.take 4 ∈ svc.abi.methodIDs := by
      by_contra hout
      rw [hundefined.mpr hout] at hdecode
      cases hdecode
    by_cases hname : decodedData.name = "transfer"
    · have hfunction := svc.abi.transfer_named _ _ hdecode hname
      have hlength := length_wordBytes txData.input 0
      rw [reads_transfer hfunction, checksum_format]
      split
      · next h => exact iff_of_true ⟨_, rfl⟩ ⟨hin, fun _ => by omega⟩
      · next h =>
        refine iff_of_false (fun ⟨_, hnone⟩ => by cases hnone) fun ⟨_, hlong⟩ => h ?_
        have hlong := hlong hfunction
        omega
    · refine iff_of_true ⟨_, reads_other hdecode hname⟩ ⟨hin, fun hfunction => ?_⟩
      rw [svc.abi.decodes _ _ hfunction] at hdecode
      obtain rfl := Option.some.inj hdecode
      exact absurd rfl hname

/-- The row of a token transaction whose block is not known, where MySQL fills the column in. -/
def pendingRow (env : Env) (txData : TxData) (data : FromToTokenAmount) : Transaction :=
  ⟨txData.hash, env.now, 0, data.from_, data.to_, .num (fromWei txData.value), data.tokenAmount,
    .pending, .ols⟩

theorem createAndSaveTransaction_iff (h : txData.to_ = some svc.tokenAddress) :
    svc.createAndSaveTransaction env db txData .pending none = some db' ↔
      env.strict = false ∧ ∃ data, svc.getFromToTokenAmountByTxDataAndType txData .ols = some data ∧
        { db with transaction := db.transaction.insert (pendingRow env txData data) } = db' := by
  have hcolumn : env.column (none : Option Nat) none 0 =
      if env.strict then none else some 0 := rfl
  simp only [createAndSaveTransaction, getTxTypeByData_token h, TransactionEntity.row,
    Option.map_none, Option.getD_none, hcolumn, Option.bind_eq_bind, Option.bind_eq_some_iff,
    Option.pure_def, Option.some.injEq]
  cases env.strict with
  | true => simp only [↓reduceIte, reduceCtorEq, false_and, exists_false, and_false]
  | false =>
    constructor
    · intro hgiven
      obtain ⟨data, hdata, _, ⟨blockNumber, hzero, rfl⟩, rfl⟩ := hgiven
      obtain rfl := Option.some.inj hzero
      exact ⟨rfl, data, hdata, rfl⟩
    · intro hgiven
      obtain ⟨_, data, hdata, rfl⟩ := hgiven
      exact ⟨data, hdata, _, ⟨0, rfl, rfl⟩, rfl⟩

end Recorder

section Logs

/-- Only the two transfer functions emit `Transfer`, one log each. -/
theorem transfer_mem_iff {m : Token.Msg} {s' : Token.Storage} {es : List Token.Event}
    (h : Token.call s m = some (s', es)) {from_ to_ : Address} {value : Uint256}
    (hmem : Token.Event.transfer from_ to_ value ∈ es) :
    (m.call = .transfer to_ value ∧ from_ = m.sender) ∨ m.call = .transferFrom from_ to_ value := by
  obtain ⟨sender, c⟩ := m
  cases Token.call_iff _ |>.mp h with
  | move mv hm ok =>
    have hevent := List.mem_singleton.mp hmem
    cases c with
    | transfer t v =>
      cases hm
      cases hevent
      exact Or.inl ⟨rfl, rfl⟩
    | transferFrom f t v =>
      cases hm
      cases hevent
      exact Or.inr rfl
    | burn | burnFrom =>
      cases hm
      cases hevent
    | approve | increaseApproval | decreaseApproval | transferOwnership => cases hm
  | grant x w hg => cases List.mem_singleton.mp hmem
  | own n hc ho hn => cases List.mem_singleton.mp hmem

theorem mined_eq_some {r : Token.Storage × List Token.Event} :
    svc.mined s txData = some r ↔ txData.value = 0 ∧
      ∃ c, svc.abi.dispatch txData.input = some c ∧ Token.call s ⟨txData.from_, c⟩ = some r := by
  simp only [mined, Option.bind_eq_bind, Option.bind_eq_some_iff, Token.require_eq_some,
    exists_and_left, exists_const]

/-- A call of the calldata that does not revert is mined. -/
theorem mined_of_call {c : Token.Call} (hvalue : txData.value = 0)
    (h : svc.abi.dispatch txData.input = some c) (hcall : (Token.call s ⟨txData.from_, c⟩).isSome) :
    svc.mined s txData ≠ none := by
  obtain ⟨r, hr⟩ := Option.isSome_iff_exists.mp hcall
  rw [mined_eq_some.mpr ⟨hvalue, c, h, hr⟩]
  exact Option.some_ne_none r

theorem emits_cases (h : svc.Emits s txData log) : svc.mined s txData ≠ none ∧
    log.transactionHash = txData.hash ∧
      ((∃ to_ value, svc.abi.dispatch txData.input = some (.transfer to_ value) ∧
          log.from_ = svc.checksumAddress txData.from_ ∧
            log.to_ = svc.checksumAddress to_ ∧ log.value = value.toNat) ∨
        ∃ from_ to_ value,
          svc.abi.dispatch txData.input = some (.transferFrom from_ to_ value)) := by
  obtain ⟨s', es, from_, to_, value, hmined, hmem, hhash, hfrom, hto, hvalue⟩ := h
  obtain ⟨_, c, hdispatch, hcall⟩ := mined_eq_some.mp hmined
  refine ⟨by rw [hmined]; exact Option.some_ne_none _, hhash, ?_⟩
  rcases transfer_mem_iff hcall hmem with ⟨rfl, rfl⟩ | rfl
  · exact Or.inl ⟨to_, value, hdispatch, hfrom, hto, hvalue⟩
  · exact Or.inr ⟨from_, to_, value, hdispatch⟩

/-- A `transferFrom` that goes through has a log, whatever its place in the block. -/
theorem transferFrom_emits {from_ to_ : Address} {value : Uint256}
    (h : svc.abi.dispatch txData.input = some (.transferFrom from_ to_ value))
    (hmined : svc.mined s txData ≠ none) :
    svc.Emits s txData ⟨txData.hash, 0, 0, svc.checksumAddress from_, svc.checksumAddress to_,
      value.toNat⟩ := by
  obtain ⟨⟨s', es⟩, hsome⟩ := Option.ne_none_iff_exists'.mp hmined
  obtain ⟨_, c, hdispatch, hcall⟩ := mined_eq_some.mp hsome
  obtain rfl := Option.some.inj (h.symm.trans hdispatch)
  obtain ⟨_, _, rfl⟩ := (Token.transferFrom_iff _ _ _ _).mp hcall
  exact ⟨s', _, from_, to_, value, hsome, List.mem_singleton_self _, rfl, rfl, rfl, rfl⟩

/-- So does a `transfer`, and its receiver is not the zero address. -/
theorem transfer_emits {to_ : Address} {value : Uint256}
    (h : svc.abi.dispatch txData.input = some (.transfer to_ value))
    (hmined : svc.mined s txData ≠ none) : to_ ≠ 0 ∧
      svc.Emits s txData ⟨txData.hash, 0, 0, svc.checksumAddress txData.from_,
        svc.checksumAddress to_, value.toNat⟩ := by
  obtain ⟨⟨s', es⟩, hsome⟩ := Option.ne_none_iff_exists'.mp hmined
  obtain ⟨_, c, hdispatch, hcall⟩ := mined_eq_some.mp hsome
  obtain rfl := Option.some.inj (h.symm.trans hdispatch)
  obtain ⟨hmovable, _, rfl⟩ := (Token.transfer_iff _ _ _).mp hcall
  exact ⟨(hmovable.target to_ rfl).1, s', _, txData.from_, to_, value, hsome,
    List.mem_singleton_self _, rfl, rfl, rfl, rfl⟩

end Logs

section Words

theorem fromWei_inj {a b : Nat} (h : fromWei a = fromWei b) : a = b := by
  simp only [fromWei] at h
  field_simp at h
  exact_mod_cast h

variable {input : List Byte}

/-- The recorder reads the contract's receiver, not the zero address, from a complete word only. -/
theorem receiver_iff (h : (calldataWord input 0).setWidth 160 ≠ (0 : Address)) :
    BitVec.ofNat 160 (fromBigEndian (wordBytes input 0)) = (calldataWord input 0).setWidth 160 ↔
      36 ≤ input.length := by
  have hlength := length_wordBytes input 0
  constructor
  · intro heq
    rcases receiver_eq heq with hword | hzero
    · omega
    · exact absurd hzero h
  · intro hlong
    exact receiver_complete (by omega)

/-- The recorder reads the contract's amount when `BigNumber` writes it without an exponent and its
word is complete, or all zeros. -/
theorem amount_iff (svc : TransactionService) (input : List Byte) :
    svc.newBN (bigNumberText (fromBigEndian (wordBytes input 1))) = (calldataWord input 1).toNat ↔
      (calldataWord input 1).toNat < 10 ^ 21 ∧
        (68 ≤ input.length ∨ calldataWord input 1 = 0) := by
  have hlength := length_wordBytes input 1
  have hword := calldataWord_toNat input 1
  have hlt : fromBigEndian (wordBytes input 1) < 2 ^ 256 := by
    have hbytes := Lib.fromBigEndian_lt (wordBytes input 1)
    have hle : 256 ^ (wordBytes input 1).length ≤ 256 ^ 32 :=
      Nat.pow_le_pow_right (by decide) (by omega)
    exact hbytes.trans_le hle
  have hzero : calldataWord input 1 = 0 ↔ (calldataWord input 1).toNat = 0 :=
    (BitVec.toNat_inj (y := 0)).symm
  rw [hzero]
  by_cases hsmall : fromBigEndian (wordBytes input 1) < 10 ^ 21
  · rw [svc.newBN_digits _ hsmall]
    constructor
    · intro heq
      refine ⟨heq ▸ hsmall, ?_⟩
      rcases Nat.eq_zero_or_pos (fromBigEndian (wordBytes input 1)) with hnone | hpos
      · exact Or.inr (heq ▸ hnone)
      · left
        by_contra hshort
        have hshift : 256 ^ 1 ≤ 256 ^ (32 - (wordBytes input 1).length) :=
          Nat.pow_le_pow_right (by decide) (by omega)
        have hmul := Nat.mul_le_mul_left (fromBigEndian (wordBytes input 1)) hshift
        omega
    · rintro ⟨_, hlong | hnone⟩
      · rw [hword, show 32 - (wordBytes input 1).length = 0 by omega, pow_zero, Nat.mul_one]
      · rw [hnone] at hword ⊢
        exact (Nat.mul_eq_zero.mp hword.symm).resolve_right (Nat.pow_pos (by decide)).ne'
  · refine iff_of_false ?_ fun ⟨hvalue, _⟩ => hsmall ?_
    · rw [hword]
      exact svc.newBN_exponent _ _ (Nat.le_of_not_lt hsmall) hlt
    · refine Nat.lt_of_le_of_lt ?_ hvalue
      rw [hword]
      exact Nat.le_mul_of_pos_right _ (Nat.pow_pos (by decide))

end Words

section Agreement

/-- A log that finds the new pending row moves it and inserts nothing. -/
theorem processTokenTransfer_pending {row : Transaction} {receipt : Receipt}
    (hnone : db.transaction.findOne log.matches = none) (hmatches : log.matches row = true)
    (hpending : row.status = .pending)
    (hreceipt : env.getTransactionReceipt log.transactionHash = some receipt) :
    let db' := { db with transaction := db.transaction.insert row }
    let tx : Row Transaction :=
      ⟨db.transaction.nextId, row.updated (transformedTxData env log receipt)⟩
    processTokenTransfer env db' log =
      ({ db' with transaction := db'.transaction.save tx }, some tx) := by
  have hfound : (db.transaction.insert row).findOne log.matches =
      some ⟨db.transaction.nextId, row⟩ := by
    rw [Table.findOne_insert, hnone, if_pos hmatches, Option.none_or]
  simp only [processTokenTransfer, hfound, hreceipt, saveOf, hpending, ↓reduceIte]
  rfl

/-- The row of a `transferFrom` names no receiver: a log that finds it is not the transfer's. -/
theorem transferFrom_not_found {data : FromToTokenAmount} {from_ to_ : Address} {value : Uint256}
    (h : svc.abi.dispatch txData.input = some (.transferFrom from_ to_ value))
    (hdata : svc.getFromToTokenAmountByTxDataAndType txData .ols = some data)
    (hmatches : log.matches (pendingRow env txData data) = true) (address : Address) :
    log.to_ ≠ svc.checksumAddress address := by
  obtain rfl := Option.some.inj (hdata.symm.trans (reads_transferFrom h))
  intro hto
  have hempty : "" = log.to_ := (matches_iff.mp hmatches).2.2.2
  exact svc.checksum_ne address (hempty.trans hto).symm

theorem not_agree_of_transferFrom {row : Transaction} {from_ to_ : Address} {value : Uint256}
    (h : txData.to_ = some svc.tokenAddress)
    (hdispatch : svc.abi.dispatch txData.input = some (.transferFrom from_ to_ value))
    (hmined : svc.mined s txData ≠ none) : ¬ svc.Agree env s db txData row := by
  intro hagree
  obtain ⟨_, data, hdata, hdb⟩ := (createAndSaveTransaction_iff h).mp hagree.saved
  have hrow : pendingRow env txData data = row := Table.insert_inj (congrArg Db.transaction hdb)
  have hmatches := (hagree.found _ (transferFrom_emits hdispatch hmined)).1
  rw [← hrow] at hmatches
  exact transferFrom_not_found hdispatch hdata hmatches to_ rfl

/-- The row of a `transfer` is the one its log looks for, with its amount, exactly when both words
were read as the contract reads them. -/
theorem transfer_found_iff {data : FromToTokenAmount} {to_ : Address} {value : Uint256}
    (hdispatch : svc.abi.dispatch txData.input = some (.transfer to_ value)) (hto : to_ ≠ 0)
    (hdata : svc.getFromToTokenAmountByTxDataAndType txData .ols = some data)
    (hhash : log.transactionHash = txData.hash)
    (hfrom : log.from_ = svc.checksumAddress txData.from_)
    (hlog : log.to_ = svc.checksumAddress to_) (hvalue : log.value = value.toNat) :
    (log.matches (pendingRow env txData data) = true ∧
        (pendingRow env txData data).tokenAmount = .num (fromWei log.value)) ↔
      36 ≤ txData.input.length ∧ value.toNat < 10 ^ 21 ∧
        (68 ≤ txData.input.length ∨ value = 0) := by
  obtain ⟨hfunction, rfl, rfl⟩ := dispatch_transfer hdispatch
  rw [reads_transfer hfunction, checksum_format, Option.map_eq_some_iff] at hdata
  obtain ⟨text, htext, rfl⟩ := hdata
  obtain ⟨_, hsome⟩ := Option.ite_none_right_eq_some.mp htext
  obtain rfl := Option.some.inj hsome
  have hreceiver : (svc.checksumAddress (BitVec.ofNat 160
      (fromBigEndian (wordBytes txData.input 0))) = log.to_) ↔ 36 ≤ txData.input.length := by
    rw [hlog, ← receiver_iff hto]
    exact ⟨fun h => svc.checksum_inj h, congrArg _⟩
  have hamount : (Amount.num (fromWei
      (svc.newBN (bigNumberText (fromBigEndian (wordBytes txData.input 1))))) =
        .num (fromWei log.value)) ↔ (calldataWord txData.input 1).toNat < 10 ^ 21 ∧
          (68 ≤ txData.input.length ∨ calldataWord txData.input 1 = 0) := by
    rw [hvalue, Amount.num.injEq]
    exact ⟨fun h => (amount_iff svc txData.input).mp (fromWei_inj h),
      fun h => congrArg fromWei ((amount_iff svc txData.input).mpr h)⟩
  rw [matches_iff]
  simp only [pendingRow, hhash, hfrom, hreceiver, hamount, true_and]

theorem readable_of_agree {row : Transaction} (h : txData.to_ = some svc.tokenAddress)
    (hagree : svc.Agree env s db txData row) : svc.Readable env s txData := by
  obtain ⟨hstrict, data, hdata, hdb⟩ := (createAndSaveTransaction_iff h).mp hagree.saved
  have hrow : pendingRow env txData data = row := Table.insert_inj (congrArg Db.transaction hdb)
  obtain ⟨hselector, haddress⟩ := reads_iff.mp ⟨data, hdata⟩
  refine ⟨hstrict, hselector, haddress, ?_, ?_⟩
  · intro from_ to_ value hdispatch
    by_contra hmined
    exact not_agree_of_transferFrom h hdispatch hmined hagree
  · intro to_ value hdispatch hmined
    obtain ⟨hto, hemits⟩ := transfer_emits hdispatch hmined
    have hfound := hagree.found _ hemits
    rw [← hrow] at hfound
    exact (transfer_found_iff hdispatch hto hdata rfl rfl rfl rfl).mp hfound

/-- Every log of a readable transaction finds its row and its amount. -/
theorem found_of_readable {data : FromToTokenAmount} (hreadable : svc.Readable env s txData)
    (hdata : svc.getFromToTokenAmountByTxDataAndType txData .ols = some data)
    (hlog : svc.Emits s txData log) : log.matches (pendingRow env txData data) = true ∧
      (pendingRow env txData data).tokenAmount = .num (fromWei log.value) := by
  obtain ⟨hmined, hhash, hcase⟩ := emits_cases hlog
  rcases hcase with ⟨to_, value, hdispatch, hfrom, hto, hvalue⟩ | ⟨from_, to_, value, hdispatch⟩
  · obtain ⟨hne, _⟩ := transfer_emits hdispatch hmined
    exact (transfer_found_iff hdispatch hne hdata hhash hfrom hto hvalue).mpr
      (hreadable.transfer to_ value hdispatch hmined)
  · exact absurd (hreadable.transferFrom from_ to_ value hdispatch) hmined

end Agreement

end TransactionService

/-- The two recorders agree on a transaction to the token contract exactly when MySQL fills in
the missing block number, the selector is one of the ABI, a `transfer` has an address behind it,
and the transaction, if it goes through, is no `transferFrom`, and as a `transfer` has its words
complete and an amount below 10^21 units. -/
theorem recorders_agree_iff (svc : TransactionService) (env : Env) (s : Token.Storage) (db : Db)
    (txData : TxData) (h : txData.to_ = some svc.tokenAddress) :
    (∃ row, svc.Agree env s db txData row) ↔ svc.Readable env s txData := by
  constructor
  · intro hgiven
    obtain ⟨row, hagree⟩ := hgiven
    exact TransactionService.readable_of_agree h hagree
  · intro hreadable
    obtain ⟨data, hdata⟩ :=
      TransactionService.reads_iff.mpr ⟨hreadable.selector, hreadable.address⟩
    refine ⟨TransactionService.pendingRow env txData data, ?_, rfl, ?_, ?_⟩
    · exact (TransactionService.createAndSaveTransaction_iff h).mpr
        ⟨hreadable.lenient, data, hdata, rfl⟩
    · intro log hlog
      exact TransactionService.found_of_readable hreadable hdata hlog
    · intro log hlog hnone receipt hreceipt
      have hfound := TransactionService.found_of_readable hreadable hdata hlog
      exact TransactionService.processTokenTransfer_pending hnone hfound.1 rfl hreceipt

section Samples

def sampleFunctionOf (selector : List Byte) : Option AbiFunction :=
  if selector = [0xa9, 0x05, 0x9c, 0xbb] then some .transfer
  else if selector = [0x23, 0xb8, 0x72, 0xdd] then some .transferFrom
  else none

/-- `transfer` and `transferFrom` of the ABI, under their selectors. -/
def sampleAbi : TokenAbi where
  methodIDs := [[0xa9, 0x05, 0x9c, 0xbb], [0x23, 0xb8, 0x72, 0xdd]]
  decodeMethod := fun input => (sampleFunctionOf (input.take 4)).map fun f =>
    ⟨f.name, decodeParams f.types input⟩
  functionOf := sampleFunctionOf
  undefined_iff := by
    intro input
    rw [Option.map_eq_none_iff, List.mem_cons, List.mem_singleton, sampleFunctionOf]
    split
    · next h => exact iff_of_false (Option.some_ne_none _) (not_not_intro (Or.inl h))
    · next hne =>
      split
      · next h => exact iff_of_false (Option.some_ne_none _) (not_not_intro (Or.inr h))
      · next hne' => exact iff_of_true rfl (not_or.mpr ⟨hne, hne'⟩)
  decodes := by
    intro input f h
    rw [h]
    rfl
  transfer_named := by
    intro input decodedData h hname
    obtain ⟨f, hf, rfl⟩ := Option.map_eq_some_iff.mp h
    cases f with
    | transfer => exact hf
    | transferFrom | approve | increaseApproval | decreaseApproval | burn | burnFrom
    | transferOwnership => simp [AbiFunction.name] at hname

/-- Addresses whose digits have no case are their own checksum text. -/
def sampleChecksum (text : String) : Option String :=
  if text.toList.length = 42 then some text else none

/-- `BN` reads a text character by character. -/
def sampleBN (text : String) : Nat := (Lib.Numeral.read text.toList).toNat

theorem sampleChecksum_address (address : Address) :
    sampleChecksum (addressText address) = some (addressText address) := by
  have hlength : (addressText address).toList.length = 42 := by
    rw [addressText, String.toList_ofList, List.length_cons, List.length_cons, length_hexDigits,
      Lib.length_bigEndian]
  exact if_pos hlength

theorem sampleChecksum_refuses (digits : List Char) (h : digits.length ≠ 40) :
    sampleChecksum (String.ofList ('0' :: 'x' :: digits)) = none := by
  apply if_neg
  rw [String.toList_ofList, List.length_cons, List.length_cons]
  omega

theorem addressText_ne (address : Address) : addressText address ≠ "" := by
  intro h
  have hlist := String.ofList_injective (h.trans String.ofList_nil.symm)
  cases hlist

theorem sampleBN_digits (n : Nat) (h : n < 10 ^ 21) : sampleBN (bigNumberText n) = n := by
  rw [sampleBN, bigNumberText, String.toList_ofList, Lib.Numeral.read_write h]
  rfl

theorem sampleBN_exponent (n s : Nat) (hlow : 10 ^ 21 ≤ n) (hhigh : n < 2 ^ 256) :
    sampleBN (bigNumberText n) ≠ n * 256 ^ s := by
  intro heq
  have hne := Lib.Numeral.read_write_ne hlow hhigh s
  have hpos : 0 < n * 256 ^ s := Nat.mul_pos (by omega) (Nat.pow_pos (by decide))
  rw [sampleBN, bigNumberText, String.toList_ofList] at heq
  omega

def sampleService : TransactionService where
  abi := sampleAbi
  tokenAddress := 0x70
  toChecksumAddress := sampleChecksum
  checksumAddress := addressText
  newBN := sampleBN
  checksum_address := sampleChecksum_address
  checksum_refuses := sampleChecksum_refuses
  checksum_inj := addressText_injective
  checksum_ne := addressText_ne
  newBN_digits := sampleBN_digits
  newBN_exponent := sampleBN_exponent

def sampleTxData (from_ : Address) (input : List Byte) : TxData :=
  ⟨"h", from_, some 0x70, input, 0⟩

/-- `transfer(0x11, value)` -/
def transferInputOf (value : Nat) : List Byte :=
  [0xa9, 0x05, 0x9c, 0xbb] ++ Lib.bigEndian 0x11 32 ++ Lib.bigEndian value 32

/-- `transfer(0x11, 5)` -/
def transferInput : List Byte := transferInputOf 5

/-- `transferFrom(0x10, 0x11, 5)` -/
def transferFromInput : List Byte :=
  [0x23, 0xb8, 0x72, 0xdd] ++ Lib.bigEndian 0x10 32 ++ Lib.bigEndian 0x11 32 ++ Lib.bigEndian 5 32

/-- Deployed by 0x10, who has approved 5 units for 0x12. -/
def sampleStorage : Token.Storage := (Token.MyToken.deploy 0x10).setAllowed 0x10 0x12 5

def lenientEnv : Env := { sampleEnv with strict := false }

theorem recorders_agree_transfer : ∃ row, sampleService.Agree lenientEnv sampleStorage sampleDb
    (sampleTxData 0x10 transferInput) row := by
  apply (recorders_agree_iff sampleService lenientEnv sampleStorage sampleDb
    (sampleTxData 0x10 transferInput) rfl).mpr
  have htransfer : sampleService.abi.dispatch transferInput = some (.transfer 0x11 5) := by
    decide +kernel
  refine ⟨rfl, List.mem_cons_self, fun _ => by decide, ?_, ?_⟩
  · intro from_ to_ value h
    cases htransfer.symm.trans h
  · intro to_ value h _
    cases htransfer.symm.trans h
    exact ⟨by decide, by decide, Or.inl (by decide)⟩

theorem dispatch_transferFromInput :
    sampleService.abi.dispatch transferFromInput = some (.transferFrom 0x10 0x11 5) := by
  decide +kernel

theorem transferFrom_mined :
    sampleService.mined sampleStorage (sampleTxData 0x12 transferFromInput) ≠ none := by
  refine TransactionService.mined_of_call rfl dispatch_transferFromInput ?_
  decide +kernel

/-- A thousand tokens. -/
def largeInput : List Byte := transferInputOf (10 ^ 21)

theorem dispatch_largeInput :
    sampleService.abi.dispatch largeInput = some (.transfer 0x11 (BitVec.ofNat 256 (10 ^ 21))) := by
  decide +kernel

theorem largeInput_mined :
    sampleService.mined sampleStorage (sampleTxData 0x10 largeInput) ≠ none := by
  refine TransactionService.mined_of_call rfl dispatch_largeInput ?_
  decide +kernel

/-- A `transferFrom` leaves a row its log does not find; without calldata the recorder throws, and
without arguments too; in strict mode no pending row is stored; and the amount of a transfer of
10^21 units is read as 23521. -/
theorem recorders_disagree :
    (∀ row, ¬ sampleService.Agree lenientEnv sampleStorage sampleDb
      (sampleTxData 0x12 transferFromInput) row) ∧
    sampleService.createAndSaveTransaction lenientEnv sampleDb (sampleTxData 0x10 []) .pending
      none = none ∧
    sampleService.createAndSaveTransaction lenientEnv sampleDb
      (sampleTxData 0x10 (transferInput.take 4)) .pending none = none ∧
    sampleService.createAndSaveTransaction sampleEnv sampleDb (sampleTxData 0x10 transferInput)
      .pending none = none ∧
    sampleService.newBN (bigNumberText (10 ^ 21)) = 23521 ∧
    ∀ row, ¬ sampleService.Agree lenientEnv sampleStorage sampleDb
      (sampleTxData 0x10 largeInput) row := by
  refine ⟨fun row => ?_, by decide +kernel, by decide +kernel, ?_, by decide +kernel,
    fun row h => ?_⟩
  · exact TransactionService.not_agree_of_transferFrom rfl dispatch_transferFromInput
      transferFrom_mined
  · refine Option.eq_none_iff_forall_ne_some.mpr fun db' h => ?_
    obtain ⟨hstrict, _⟩ := (TransactionService.createAndSaveTransaction_iff rfl).mp h
    cases hstrict
  · have hreadable := TransactionService.readable_of_agree rfl h
    have hsmall := (hreadable.transfer 0x11 _ dispatch_largeInput largeInput_mined).2.1
    exact absurd hsmall (by decide)

end Samples

end OlsDapp.Handler
