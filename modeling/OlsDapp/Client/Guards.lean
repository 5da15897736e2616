import OlsDapp.Client.Presigned
import Mathlib.Algebra.Order.Field.Rat
import Mathlib.Tactic.Linarith

/-!
# The balance guards against the transactions signed

`sufficientBalance` and `sufficientTokenBalance` read the input; the transaction is built from it
in another function. They ask for the same amount in three of the five methods. A withdrawal
asks for the token amount in ETH and the input's gas, where its transaction takes 200000 gas at
the node's price; a pre-signed transfer does not ask for its fee.
-/

namespace OlsDapp.Client

open Web3

/-- The balances the guards read, in wei and in units of the token. -/
structure Balances where
  getBalance : String → Nat
  balanceOf : String → Nat

section Definitions

/-- What `sufficientBalance` adds up; `none` when `toWei` throws, which rejects the promise. -/
def TransactionInput.total (input : TransactionInput) : Option Int := do
  let gasPrice ← toWei input.gasPrice gwei
  let txFee := (input.gas : Int) * gasPrice
  let amount ← toWei input.amount ether
  return amount + txFee

def sufficientBalance (b : Balances) (input : TransactionInput) : Option Bool := do
  let total ← input.total
  return decide (total ≤ b.getBalance input.from_)

def getTokenBalanceOf (b : Balances) (address : String) : ℚ := fromWei (b.balanceOf address) ether

def sufficientTokenBalance (b : Balances) (input : TransactionInput) : Option Bool :=
  some (decide (input.amount ≤ getTokenBalanceOf b input.from_))

/-- What the guard of a call resolves to; `none` when it rejects. -/
def Prepared.check (b : Balances) (p : Prepared) : Option Bool :=
  match p.guard with
  | .sufficientBalance => sufficientBalance b p.input
  | .sufficientTokenBalance => sufficientTokenBalance b p.input

/-- The ETH a transaction takes when the node's gas price is `price`. -/
def TxParams.ethNeed (price : Nat) (params : TxParams) : Int :=
  params.value + params.gas * params.gasPrice.getD price

/-- The tokens a signed call takes from its payer. -/
def TxParams.tokenNeed (params : TxParams) : Int :=
  match params.data with
  | some (.transfer _ value) => value
  | some (.transferPreSigned _ _ value fee _) => value + fee
  | none => 0

/-- What the transaction takes of the balance its guard is about, and that balance. -/
def Prepared.need (price : Nat) (p : Prepared) : Int :=
  match p.guard with
  | .sufficientBalance => p.params.ethNeed price
  | .sufficientTokenBalance => p.params.tokenNeed

def Prepared.balance (b : Balances) (p : Prepared) : Nat :=
  match p.guard with
  | .sufficientBalance => b.getBalance p.input.from_
  | .sufficientTokenBalance => b.balanceOf p.input.from_

/-- The guard lets through exactly what the balance covers. -/
def Agrees (b : Balances) (price : Nat) (p : Prepared) : Prop :=
  p.check b = some true ↔ p.need price ≤ p.balance b

/-- The balance covers both amounts or none of them. -/
def NotBetween {α : Type} [LinearOrder α] (asked need balance : α) : Prop :=
  balance < min asked need ∨ max asked need ≤ balance

/-- Where the guard of the call asks for another amount than the transaction takes, the balance
does not lie between the two. -/
def SendCall.Covered (b : Balances) (price : Nat) : SendCall → Prop
  | .sendWithdrawalByMnemonic i _ _ =>
    if (i.gasPrice * gwei).den = 1 then
      NotBetween (i.amount * ether + i.gas * (i.gasPrice * gwei)) (200000 * price : ℚ)
        (b.getBalance i.from_)
    else b.getBalance i.from_ < 200000 * price
  | .sendTokenWithNoEth i _ _ =>
    NotBetween (i.amount * ether) ((i.amount + transferFee) * ether) (b.balanceOf i.from_ : ℚ)
  | _ => True

end Definitions

section Amounts

theorem toWei_eq_some {x : ℚ} {unit : Nat} {n : Int} :
    toWei x unit = some n ↔ x * unit = n := by
  unfold toWei
  dsimp only
  split
  · next h =>
    rw [Option.some.injEq]
    have hnum := Rat.coe_int_num_of_den_eq_one h
    constructor
    · rintro rfl
      exact hnum.symm
    · intro hn
      rw [hn]
      exact Rat.num_intCast n
  · next h =>
    refine iff_of_false (fun hnone => Option.some_ne_none n hnone.symm) fun hn => h ?_
    rw [hn]
    exact Rat.den_intCast n

/-- Comparing decimals is comparing wei. -/
theorem le_fromWei_iff {x : ℚ} {value : Int} (h : toWei x ether = some value) (wei : Nat) :
    x ≤ fromWei wei ether ↔ value ≤ wei := by
  have hpos : (0 : ℚ) < (ether : ℚ) := by
    have hnat : 0 < ether := by decide
    exact_mod_cast hnat
  rw [fromWei, le_div_iff₀ hpos, toWei_eq_some.mp h]
  exact_mod_cast Iff.rfl

theorem total_eq_some {input : TransactionInput} {value gasPrice : Int}
    (hvalue : toWei input.amount ether = some value)
    (hgasPrice : toWei input.gasPrice gwei = some gasPrice) :
    input.total = some (value + input.gas * gasPrice) := by
  rw [TransactionInput.total, hgasPrice, hvalue]
  rfl

theorem total_eq_none {input : TransactionInput} (h : toWei input.gasPrice gwei = none) :
    input.total = none := by
  rw [TransactionInput.total, h]
  rfl

theorem sufficientBalance_iff {b : Balances} {input : TransactionInput} {asked : Int}
    (h : input.total = some asked) :
    sufficientBalance b input = some true ↔ asked ≤ b.getBalance input.from_ := by
  simp only [sufficientBalance, h, Option.bind_eq_bind, Option.bind_some, Option.pure_def,
    Option.some.injEq, decide_eq_true_iff]

theorem sufficientBalance_none {b : Balances} {input : TransactionInput}
    (h : input.total = none) : sufficientBalance b input = none := by
  rw [sufficientBalance, h]
  rfl

theorem sufficientTokenBalance_iff {b : Balances} {input : TransactionInput} {value : Int}
    (h : toWei input.amount ether = some value) :
    sufficientTokenBalance b input = some true ↔ value ≤ b.balanceOf input.from_ := by
  rw [sufficientTokenBalance, Option.some.injEq, decide_eq_true_iff, getTokenBalanceOf,
    le_fromWei_iff h]

theorem toWei_eq_none {x : ℚ} {unit : Nat} (h : (x * unit).den ≠ 1) : toWei x unit = none := by
  rw [toWei]
  exact if_neg h

/-- Two thresholds agree on a balance that is not between them. -/
theorem agree_iff_notBetween {α : Type} [LinearOrder α] (asked need balance : α) :
    (asked ≤ balance ↔ need ≤ balance) ↔ NotBetween asked need balance := by
  rw [NotBetween, lt_min_iff, max_le_iff, ← not_le, ← not_le]
  tauto

end Amounts

section Methods

variable {w : Web3} {input : TransactionInput} {mnemonic salt privateKey : String} {p : Prepared}

theorem sendTransactionByMnemonic_total
    (h : sendTransactionByMnemonic w input mnemonic salt = some p) :
    p.guard = .sufficientBalance ∧ p.input = input ∧
      ∀ price, input.total = some (p.params.ethNeed price) := by
  simp only [sendTransactionByMnemonic, Option.bind_eq_bind, Option.bind_eq_some_iff,
    Option.pure_def, Option.some.injEq] at h
  obtain ⟨value, hvalue, gasPrice, hgasPrice, rfl⟩ := h
  exact ⟨rfl, rfl, fun price => total_eq_some hvalue hgasPrice⟩

theorem sendWithdrawalByMnemonic_need
    (h : sendWithdrawalByMnemonic w input mnemonic salt = some p) :
    p.guard = .sufficientBalance ∧ p.input = input ∧ (∃ value, toWei input.amount ether = some value) ∧
      ∀ price : Nat, p.params.ethNeed price = 200000 * price := by
  simp only [sendWithdrawalByMnemonic, Option.bind_eq_bind, Option.bind_eq_some_iff,
    Option.pure_def, Option.some.injEq] at h
  obtain ⟨value, hvalue, data, _, rfl⟩ := h
  refine ⟨rfl, rfl, ⟨value, hvalue⟩, fun price => ?_⟩
  show (0 : Int) + 200000 * price = 200000 * price
  exact Int.zero_add _

theorem sendTokenByMnemonic_need
    (h : sendTokenByMnemonic w input mnemonic salt = some p) :
    p.guard = .sufficientTokenBalance ∧ toWei p.input.amount ether = some p.params.tokenNeed := by
  simp only [sendTokenByMnemonic, Option.bind_eq_bind, Option.bind_eq_some_iff,
    Option.pure_def, Option.some.injEq] at h
  obtain ⟨price, _, gasPrice, _, value, hvalue, data, hdata, rfl⟩ := h
  obtain rfl := encodeABI_eq_some hdata
  exact ⟨rfl, hvalue⟩

theorem sendTokenByPrivateKey_need
    (h : sendTokenByPrivateKey w input privateKey = some p) :
    p.guard = .sufficientTokenBalance ∧ toWei p.input.amount ether = some p.params.tokenNeed := by
  simp only [sendTokenByPrivateKey, Option.bind_eq_bind, Option.bind_eq_some_iff,
    Option.pure_def, Option.some.injEq] at h
  obtain ⟨gasPrice, _, value, hvalue, data, hdata, rfl⟩ := h
  obtain rfl := encodeABI_eq_some hdata
  exact ⟨rfl, hvalue⟩

/-- The fee is in the signed call and not in the guard. -/
theorem sendTokenWithNoEth_need (h : sendTokenWithNoEth w input mnemonic salt = some p) :
    p.guard = .sufficientTokenBalance ∧ p.input = input ∧
      ∃ value, toWei input.amount ether = some value ∧
        p.params.tokenNeed = value + 10 * 10 ^ 18 := by
  simp only [sendTokenWithNoEth, toWei_transferFee, Option.bind_eq_bind,
    Option.bind_eq_some_iff, Option.pure_def, Option.some.injEq] at h
  obtain ⟨manager, _, value, hvalue, fee, rfl, sig, _, price, _, gas, _, data, hdata, rfl⟩ := h
  obtain rfl := encodeABI_eq_some hdata
  exact ⟨rfl, rfl, value, hvalue, rfl⟩

end Methods

section Agreement

variable {b : Balances} {price : Nat} {p : Prepared}

theorem agrees_eth (hguard : p.guard = .sufficientBalance) : Agrees b price p ↔
    (sufficientBalance b p.input = some true ↔
      p.params.ethNeed price ≤ b.getBalance p.input.from_) := by
  rw [Agrees, Prepared.check, Prepared.need, Prepared.balance, hguard]

theorem agrees_token (hguard : p.guard = .sufficientTokenBalance) : Agrees b price p ↔
    (sufficientTokenBalance b p.input = some true ↔
      p.params.tokenNeed ≤ b.balanceOf p.input.from_) := by
  rw [Agrees, Prepared.check, Prepared.need, Prepared.balance, hguard]

/-- A guard about the amount the signed call takes agrees with it on every balance. -/
theorem agrees_of_tokenNeed (hguard : p.guard = .sufficientTokenBalance)
    (hneed : toWei p.input.amount ether = some p.params.tokenNeed) : Agrees b price p := by
  rw [agrees_token hguard, sufficientTokenBalance_iff hneed]

end Agreement

/-- For every call that gets to its guard, all balances and every gas price: the guard agrees
with the transaction signed exactly when the balance does not lie between what the guard asks
for and what the transaction takes, which in three of the methods are the same. -/
theorem guard_agrees_iff (w : Web3) (c : SendCall) (p : Prepared) (h : c.prepare w = some p)
    (b : Balances) (price : Nat) : Agrees b price p ↔ c.Covered b price := by
  cases c with
  | sendTransactionByMnemonic input mnemonic salt =>
    obtain ⟨hguard, rfl, htotal⟩ := sendTransactionByMnemonic_total h
    show _ ↔ True
    rw [agrees_eth hguard, sufficientBalance_iff (htotal price)]
    exact iff_of_true Iff.rfl trivial
  | sendWithdrawalByMnemonic input mnemonic salt =>
    obtain ⟨hguard, rfl, ⟨value, hvalue⟩, hneed⟩ := sendWithdrawalByMnemonic_need h
    rw [agrees_eth hguard, hneed, SendCall.Covered]
    split
    · next hden =>
      have hgas := toWei_eq_some.mp (if_pos hden : toWei p.input.gasPrice gwei = some _)
      have htotal := total_eq_some hvalue (toWei_eq_some.mpr hgas)
      rw [sufficientBalance_iff htotal, ← agree_iff_notBetween, toWei_eq_some.mp hvalue, hgas]
      exact_mod_cast Iff.rfl
    · next hden =>
      rw [sufficientBalance_none (total_eq_none (toWei_eq_none hden))]
      constructor
      · intro hagrees
        exact not_le.mp fun hle => Option.some_ne_none true (hagrees.mpr (by omega)).symm
      · intro hlt
        exact iff_of_false (Option.some_ne_none true ∘ Eq.symm) (by omega)
  | sendTokenByMnemonic input mnemonic salt =>
    obtain ⟨hguard, hneed⟩ := sendTokenByMnemonic_need h
    exact iff_of_true (agrees_of_tokenNeed hguard hneed) trivial
  | sendTokenByPrivateKey input privateKey =>
    obtain ⟨hguard, hneed⟩ := sendTokenByPrivateKey_need h
    exact iff_of_true (agrees_of_tokenNeed hguard hneed) trivial
  | sendTokenWithNoEth input mnemonic salt =>
    obtain ⟨hguard, rfl, value, hvalue, hneed⟩ := sendTokenWithNoEth_need h
    have hasked := toWei_eq_some.mp hvalue
    have htaken : (p.input.amount + transferFee) * ether = ((value + 10 * 10 ^ 18 : Int) : ℚ) := by
      rw [add_mul, hasked, toWei_eq_some.mp toWei_transferFee]
      push_cast
      rfl
    rw [agrees_token hguard, hneed, sufficientTokenBalance_iff hvalue, SendCall.Covered,
      ← agree_iff_notBetween, hasked, htaken]
    exact_mod_cast Iff.rfl

section Samples

def sampleWithdrawal : Prepared :=
  ⟨sampleInput, .sufficientBalance, "您的以太坊量不足",
    ⟨0, none, "0xt", 200000, none, some (.transfer "0xb" (10 ^ 18))⟩, "k"⟩

theorem prepare_sampleWithdrawal :
    (SendCall.sendWithdrawalByMnemonic sampleInput "k" "s").prepare sampleWeb3 =
      some sampleWithdrawal := by
  simp only [SendCall.prepare, sendWithdrawalByMnemonic, sampleInput, toWei_one,
    Option.bind_eq_bind, Option.bind_some, Option.pure_def]
  rfl

def sampleNoEth : Prepared :=
  ⟨sampleInput, .sufficientTokenBalance, "您的代币量不足",
    ⟨0, none, "0xt", 600000, some (10 ^ 9),
      some (.transferPreSigned "0xs" "0xb" (10 ^ 18) (10 * 10 ^ 18) transferNonce)⟩, "0xm"⟩

theorem prepare_sampleNoEth :
    (SendCall.sendTokenWithNoEth sampleInput "k" "s").prepare sampleWeb3 = some sampleNoEth := by
  have hprice : sampleWeb3.getCurrentGasPrice = some 1 := by decide +kernel
  have hmanager : sampleWeb3.manager = some ⟨"0xm"⟩ := rfl
  simp only [SendCall.prepare, sendTokenWithNoEth, sampleInput, toWei_one, toWei_transferFee,
    hprice, hmanager, Option.bind_eq_bind, Option.bind_some, Option.pure_def]
  rfl

/-- The amount and the fee are there. -/
theorem guard_agrees_eleven : Agrees ⟨fun _ => 0, fun _ => 11 * 10 ^ 18⟩ (10 ^ 9) sampleNoEth := by
  apply (guard_agrees_iff sampleWeb3 (.sendTokenWithNoEth sampleInput "k" "s") sampleNoEth
    prepare_sampleNoEth _ _).mpr
  show NotBetween _ _ _
  exact Or.inr (by decide +kernel)

/-- A tenth of an ETH pays for a withdrawal of one token and is refused; one token does not
pay for a transfer of one token with its fee and is let through. -/
theorem guard_disagrees :
    ((SendCall.sendWithdrawalByMnemonic sampleInput "k" "s").prepare sampleWeb3 =
        some sampleWithdrawal ∧
      ¬ Agrees ⟨fun _ => 10 ^ 17, fun _ => 10 ^ 18⟩ (10 ^ 9) sampleWithdrawal) ∧
    (SendCall.sendTokenWithNoEth sampleInput "k" "s").prepare sampleWeb3 = some sampleNoEth ∧
      ¬ Agrees ⟨fun _ => 10 ^ 17, fun _ => 10 ^ 18⟩ (10 ^ 9) sampleNoEth := by
  have htotal : sampleWithdrawal.input.total = some (10 ^ 18 + 21000 * 10 ^ 9) :=
    total_eq_some (toWei_one ether) (toWei_one gwei)
  have hvalue : toWei sampleNoEth.input.amount ether = some (10 ^ 18) := toWei_one ether
  refine ⟨⟨prepare_sampleWithdrawal, fun hagrees => ?_⟩, prepare_sampleNoEth, fun hagrees => ?_⟩
  · rw [agrees_eth rfl, sufficientBalance_iff htotal] at hagrees
    exact absurd (hagrees.mpr (by decide)) (by decide)
  · rw [agrees_token rfl, sufficientTokenBalance_iff hvalue] at hagrees
    exact absurd (hagrees.mp (by decide)) (by decide)

end Samples

end OlsDapp.Client
