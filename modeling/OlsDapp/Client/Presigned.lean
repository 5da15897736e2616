import OlsDapp.Client.Send

/-!
# Which messages `sendTokenWithNoEth` signs

The nonce and the fee of a pre-signed transfer are constants of the source, so the message says
no more than who is paid and how much. Two calls sign different messages exactly when they make
different payments: a repeated payment repeats its message and with it the signature.
-/

namespace OlsDapp.Client

open Lib (Byte bigEndian_eq_iff length_bigEndian)
open Web3

/-- A call of `sendTokenWithNoEth`, with what the node and the database answer during it. -/
structure PreSignedCall where
  w : Web3
  input : TransactionInput
  mnemonic : String
  salt : String

namespace PreSignedCall

variable (c : PreSignedCall)

/-- What is hashed and signed; `none` when the call throws before. -/
def message : Option (List Byte) := do
  let _ ← c.w.manager
  let value ← toWei c.input.amount ether
  let fee ← toWei transferFee ether
  return (components c.w c.input.to_ value fee transferNonce).flatten

/-- The recipient as bytes and the amount as a 256-bit word. -/
def payment : Option (List Byte × Nat) := do
  let _ ← c.w.manager
  let value ← toWei c.input.amount ether
  return (formattedAddress c.input.to_, value.natAbs % 2 ^ 256)

def send : Option Prepared := sendTokenWithNoEth c.w c.input c.mnemonic c.salt

/-- The user's key, as `ecsign` gets it. -/
def key : List Byte :=
  bufferFromHex ((c.w.getPrivateKeyByMnemonicAndSalt c.mnemonic c.salt).toList.drop 2)

end PreSignedCall

/-- Any two calls of the sequence sign different messages. -/
def FreshMessages (calls : List PreSignedCall) : Prop :=
  calls.Pairwise fun a b => ∀ x y, a.message = some x → b.message = some y → x ≠ y

/-- Any two calls of the sequence pay another recipient or another amount. -/
def DistinctPayments (calls : List PreSignedCall) : Prop :=
  calls.Pairwise fun a b => ∀ x y, a.payment = some x → b.payment = some y → x ≠ y

section FixedWidth

theorem formattedInt_eq_iff (x y : Nat) :
    formattedInt x = formattedInt y ↔ x % 2 ^ 256 = y % 2 ^ 256 := by
  have hwidth : 256 ^ 32 = 2 ^ 256 := by decide
  rw [formattedInt, formattedInt, bigEndian_eq_iff, hwidth]

/-- All fields but the recipient have a fixed width, so no two payments share a message. -/
theorem components_inj {w w' : Web3} (hw : w.tokenAddress = w'.tokenAddress) (to_ to' : String)
    (value value' fee : Int) (nonce : Nat) :
    (components w to_ value fee nonce).flatten = (components w' to' value' fee nonce).flatten ↔
      formattedAddress to_ = formattedAddress to' ∧
        value.natAbs % 2 ^ 256 = value'.natAbs % 2 ^ 256 := by
  rw [← formattedInt_eq_iff]
  have hlen : (formattedInt value.natAbs ++ (formattedInt fee.natAbs ++ formattedInt nonce)).length
      = (formattedInt value'.natAbs ++ (formattedInt fee.natAbs ++ formattedInt nonce)).length := by
    simp only [formattedInt, List.length_append, length_bigEndian]
  simp only [components, hw, List.flatten_cons, List.flatten_nil, List.append_nil,
    List.append_cancel_left_eq]
  constructor
  · intro h
    obtain ⟨haddr, hrest⟩ := List.append_inj' h hlen
    exact ⟨haddr, List.append_cancel_right hrest⟩
  · intro hgiven
    obtain ⟨haddr, hvalue⟩ := hgiven
    rw [haddr, hvalue]

end FixedWidth

section Calls

variable {c : PreSignedCall}

theorem toWei_transferFee : toWei transferFee ether = some (10 * 10 ^ 18) := by
  rw [toWei_natCast]
  rfl

theorem encodeABI_eq_some {w : Web3} {m m' : Method} (h : w.encodeABI m = some m') : m' = m := by
  unfold encodeABI at h
  split at h
  · exact (Option.some.inj h).symm
  · cases h

theorem message_eq_some {x : List Byte} : c.message = some x ↔
    ∃ m value, c.w.manager = some m ∧ toWei c.input.amount ether = some value ∧
      (components c.w c.input.to_ value (10 * 10 ^ 18) transferNonce).flatten = x := by
  simp only [PreSignedCall.message, toWei_transferFee, Option.bind_eq_bind,
    Option.bind_eq_some_iff, Option.bind_some, Option.pure_def, Option.some.injEq]
  exact exists_congr fun m => exists_and_left.symm

theorem payment_eq_some {x : List Byte × Nat} : c.payment = some x ↔
    ∃ m value, c.w.manager = some m ∧ toWei c.input.amount ether = some value ∧
      (formattedAddress c.input.to_, value.natAbs % 2 ^ 256) = x := by
  simp only [PreSignedCall.payment, Option.bind_eq_bind, Option.bind_eq_some_iff,
    Option.pure_def, Option.some.injEq]
  exact exists_congr fun m => exists_and_left.symm

/-- The signature a call puts into its transaction is one of its message. -/
theorem send_signs {p : Prepared} (h : c.send = some p) :
    ∃ x sig value, c.message = some x ∧ c.w.ecsign (c.w.sha3 x) c.key = some sig ∧
      p.params.data = some (.transferPreSigned sig c.input.to_ value (10 * 10 ^ 18) transferNonce) := by
  simp only [PreSignedCall.send, sendTokenWithNoEth, Option.bind_eq_bind,
    Option.bind_eq_some_iff, Option.pure_def, Option.some.injEq, toWei_transferFee] at h
  obtain ⟨manager, hmanager, value, hvalue, fee, rfl, sig, hsig, price, _, gas, _, data, hdata,
    rfl⟩ := h
  obtain rfl := encodeABI_eq_some hdata
  exact ⟨_, sig, value, message_eq_some.mpr ⟨manager, value, hmanager, hvalue, rfl⟩, hsig, rfl⟩

/-- A call has a message when it has a payment, and the payment is all the message says. -/
theorem message_ne_iff {a b : PreSignedCall} (haddr : a.w.tokenAddress = b.w.tokenAddress) :
    (∀ x y, a.message = some x → b.message = some y → x ≠ y) ↔
      ∀ x y, a.payment = some x → b.payment = some y → x ≠ y := by
  simp only [message_eq_some, payment_eq_some]
  constructor
  · rintro h _ _ ⟨m, v, hm, hv, rfl⟩ ⟨m', v', hm', hv', rfl⟩ heq
    obtain ⟨hto, hvalue⟩ := Prod.mk.inj heq
    exact h _ _ ⟨m, v, hm, hv, rfl⟩ ⟨m', v', hm', hv', rfl⟩
      ((components_inj haddr _ _ _ _ _ _).mpr ⟨hto, hvalue⟩)
  · rintro h _ _ ⟨m, v, hm, hv, rfl⟩ ⟨m', v', hm', hv', rfl⟩ heq
    obtain ⟨hto, hvalue⟩ := (components_inj haddr _ _ _ _ _ _).mp heq
    exact h _ _ ⟨m, v, hm, hv, rfl⟩ ⟨m', v', hm', hv', rfl⟩ (Prod.mk.injEq .. ▸ ⟨hto, hvalue⟩)

end Calls

/-- Over any sequence of calls for one token contract, whatever their keys, no message is signed
twice if and only if no payment is made twice. -/
theorem freshMessages_iff (tokenAddress : String) (calls : List PreSignedCall)
    (htoken : ∀ c ∈ calls, c.w.tokenAddress = tokenAddress) :
    FreshMessages calls ↔ DistinctPayments calls := by
  have haddr {a b : PreSignedCall} (ha : a ∈ calls) (hb : b ∈ calls) :
      a.w.tokenAddress = b.w.tokenAddress := (htoken a ha).trans (htoken b hb).symm
  constructor
  · intro h
    exact List.Pairwise.imp_of_mem
      (fun ha hb hab => (message_ne_iff (haddr ha hb)).mp hab) h
  · intro h
    exact List.Pairwise.imp_of_mem
      (fun ha hb hab => (message_ne_iff (haddr ha hb)).mpr hab) h

section Samples

/-- A payment of so many whole tokens with the sample's key. -/
def samplePreSigned (tokens : Nat) : PreSignedCall :=
  ⟨sampleWeb3, { sampleInput with amount := tokens }, "k", "s"⟩

theorem message_samplePreSigned (tokens : Nat) : (samplePreSigned tokens).message =
    some (components sampleWeb3 "0xb" ((tokens * ether : Nat) : Int) (10 * 10 ^ 18)
      transferNonce).flatten := by
  simp only [PreSignedCall.message, samplePreSigned, toWei_natCast, Option.bind_eq_bind,
    Option.bind_some, Option.pure_def]
  rfl

theorem payment_samplePreSigned (tokens : Nat) : (samplePreSigned tokens).payment =
    some (formattedAddress "0xb", tokens * ether % 2 ^ 256) := by
  simp only [PreSignedCall.payment, samplePreSigned, toWei_natCast, Option.bind_eq_bind,
    Option.bind_some, Option.pure_def]
  rfl

theorem freshMessages_two_amounts : FreshMessages [samplePreSigned 1, samplePreSigned 2] := by
  apply (freshMessages_iff "0xt" [samplePreSigned 1, samplePreSigned 2] ?_).mpr
  · refine List.pairwise_pair.mpr ?_
    intro x y hx hy heq
    rw [payment_samplePreSigned] at hx hy
    have hpair := (Option.some.inj hx).trans (heq.trans (Option.some.inj hy).symm)
    exact absurd (congrArg Prod.snd hpair) (by decide)
  · intro c hc
    rcases List.mem_cons.mp hc with rfl | hc
    · rfl
    · obtain rfl := List.mem_singleton.mp hc
      rfl

/-- The same payment made twice is one message, with one signature. -/
theorem repeated_payment_reuses_message :
    (samplePreSigned 1).message.isSome ∧ ¬ FreshMessages [samplePreSigned 1, samplePreSigned 1] := by
  have hmessage := message_samplePreSigned 1
  constructor
  · rw [hmessage]
    rfl
  · intro h
    exact List.pairwise_pair.mp h _ _ hmessage hmessage rfl

end Samples

end OlsDapp.Client
