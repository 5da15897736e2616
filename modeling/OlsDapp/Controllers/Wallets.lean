import OlsDapp.Controllers.WalletController

/-!
# `services/wallet.service.ts` and `/moneyInfo`: what a new wallet can send

A wallet is created with the mnemonic and the salt of its address, and `moneyInfo` shows the tokens
of an address. What it shows is the largest amount the contract moves from the wallet, and sending
all of it leaves the account what has come in since.
-/

namespace OlsDapp.Controllers

open Client Web3
open Token (Address Uint256)

section Definitions

structure Wallet where
  ticker : String
  address : String
  balance : String
  mnemonic : String
  privateKey : String
  salt : String
  deriving DecidableEq

/-- `createWallet`, with what `generateMnemonic` and `genSaltSync` have drawn. -/
def createWallet (w : Web3) (mnemonic salt : String) : Wallet :=
  let account := getAccountByMnemonicAndSalt w mnemonic salt
  { ticker := "ETH"
    address := account.address
    balance := "0"
    mnemonic := mnemonic
    privateKey := account.privateKey
    salt := salt }

structure MoneyInfo where
  ethBalance : ℚ
  tokenBalance : ℚ
  deriving DecidableEq

def getEthBalance (b : Balances) (address : String) : ℚ :=
  fromWei (b.getBalance address) Web3.ether

def getMoneyInfo (b : Balances) (eth_address : String) : MoneyInfo :=
  ⟨getEthBalance b eth_address, getTokenBalanceOf b eth_address⟩

/-- The request that sends from the wallet. -/
def Wallet.sends (wallet : Wallet) (sendAmount : ℚ) (recvAddress : String) : Request :=
  .sendtokenbymnemonic wallet.mnemonic wallet.salt sendAmount recvAddress

end Definitions

section Sending

variable {w : Web3} {gas : Nat} {p : Prepared} {mnemonic salt recvAddress : String}

/-- The wallet's address is the one the guard is asked about and the one that signs. -/
theorem wallet_signs {amount : ℚ}
    (h : ((createWallet w mnemonic salt).sends amount recvAddress).prepare w gas = some p) :
    p.input.from_ = (createWallet w mnemonic salt).address ∧
      w.accountAddress p.key = (createWallet w mnemonic salt).address := by
  obtain ⟨c, hc, hp⟩ := Option.bind_eq_some_iff.mp h
  simp only [Wallet.sends, Request.send, Option.bind_eq_bind, Option.bind_eq_some_iff,
    Option.pure_def, Option.some.injEq] at hc
  obtain ⟨_, _, rfl⟩ := hc
  simp only [SendCall.prepare, sendTokenByMnemonic, Option.bind_eq_bind, Option.bind_eq_some_iff,
    Option.pure_def, Option.some.injEq] at hp
  obtain ⟨_, _, _, _, _, _, _, _, rfl⟩ := hp
  exact ⟨rfl, rfl⟩

/-- A number of wei, shown in tokens, is sent as that number. -/
theorem prepare_wei (gas : Nat) (wallet : Wallet) {price : Nat}
    (hprice : w.getGasPrice = some price) (wei : Nat)
    (hencodes : w.encodes (.transfer recvAddress wei) = true) :
    ∃ p, (wallet.sends (fromWei wei Web3.ether) recvAddress).prepare w gas = some p ∧
      p.params.data = some (.transfer recvAddress wei) := by
  have hether := toWei_fromWei (by decide : 0 < Web3.ether) wei
  have hgwei := toWei_fromWei (by decide : 0 < gwei) price
  have hdata : w.encodeABI (.transfer recvAddress wei) = some (.transfer recvAddress wei) :=
    if_pos hencodes
  simp only [Request.prepare, Wallet.sends, Request.send, getCurrentGasPrice_eq hprice,
    SendCall.prepare, sendTokenByMnemonic, hether, hgwei, hdata, Option.bind_eq_bind,
    Option.bind_some, Option.pure_def, Option.some.injEq, exists_eq_left']

theorem call_toNat {read : String → Address} {v : Uint256} :
    (Method.transfer recvAddress v.toNat).call (fun text => some (read text)) =
      some (.transfer (read recvAddress) v) := by
  have hlt : (v.toNat : Int) < 2 ^ 256 := by exact_mod_cast v.isLt
  have hword : BitVec.ofInt 256 (v.toNat : Int) = v := by
    rw [BitVec.ofInt_natCast, BitVec.ofNat_toNat, BitVec.setWidth_eq]
  rw [Method.call, Option.bind_eq_bind, Option.bind_some, if_pos ⟨Int.natCast_nonneg _, hlt⟩, hword]

theorem fromWei_le_iff {a b : Nat} :
    fromWei a Web3.ether ≤ fromWei b Web3.ether ↔ a ≤ b := by
  rw [fromWei, fromWei, div_le_div_iff_of_pos_right ether_pos, Nat.cast_le]

/-- A transfer to another account takes its value from the payer. -/
theorem transfer_leaves {s s' : Token.Storage} {es : List Token.Event} {payer receiver : Address}
    {v : Uint256} (hne : receiver ≠ payer)
    (h : Token.call s ⟨payer, .transfer receiver v⟩ = some (s', es)) :
    s'.balances payer = s.balances payer - v := by
  cases (Token.call_iff _).mp h with
  | move mv hm ok =>
    obtain rfl := Option.some.inj hm
    have hother : ¬ some receiver = some payer := fun hsame => hne (Option.some.inj hsame)
    rw [Token.Commute.applyMove_balance, if_pos rfl, if_neg hother, add_zero]
  | grant x w hg => cases hg
  | own n hc => cases hc

end Sending

end OlsDapp.Controllers
