import Mathlib.Data.BitVec
import Mathlib.Logic.Function.Basic

/-!
# `contracts/MyToken.sol`

Storage, events and every state-changing function of the contract, one definition a
function, in the order of the source. A revert is `none`: it returns no storage and no
events. `super` calls are calls to the definition of the next contract in the
inheritance chain. View functions, gas and value transfer are not modelled.
-/

namespace OlsDapp.Token

abbrev Address := BitVec 160
abbrev Uint256 := BitVec 256

/-- `require(p)`. -/
def require (p : Prop) [Decidable p] : Option Unit := if p then some () else none

namespace SafeMath

def sub (a b : Uint256) : Option Uint256 := do
  require (b ≤ a)
  let c := a - b
  return c

def add (a b : Uint256) : Option Uint256 := do
  let c := a + b
  require (a ≤ c)
  return c

end SafeMath

structure Storage where
  balances : Address → Uint256
  allowed : Address → Address → Uint256
  totalSupply_ : Uint256
  owner : Address

inductive Event where
  | transfer (from_ to_ : Address) (value : Uint256)
  | approval (owner spender : Address) (value : Uint256)
  | burn (from_ : Address) (value : Uint256)
  | ownershipTransferred (previousOwner newOwner : Address)
  deriving DecidableEq

namespace Storage

def setBalance (s : Storage) (a : Address) (v : Uint256) : Storage :=
  { s with balances := Function.update s.balances a v }

def setAllowed (s : Storage) (o x : Address) (v : Uint256) : Storage :=
  { s with allowed := Function.update s.allowed o (Function.update (s.allowed o) x v) }

def setTotalSupply (s : Storage) (v : Uint256) : Storage := { s with totalSupply_ := v }

def setOwner (s : Storage) (a : Address) : Storage := { s with owner := a }

end Storage

abbrev Outcome := Option (Storage × List Event)

namespace StandardToken

def transfer (s : Storage) (sender to_ : Address) (value : Uint256) : Outcome := do
  require (value ≤ s.balances sender)
  require (to_ ≠ 0)
  let s := s.setBalance sender (← SafeMath.sub (s.balances sender) value)
  let s := s.setBalance to_ (← SafeMath.add (s.balances to_) value)
  return (s, [.transfer sender to_ value])

def approve (s : Storage) (sender spender : Address) (value : Uint256) : Outcome := do
  let s := s.setAllowed sender spender value
  return (s, [.approval sender spender value])

def transferFrom (s : Storage) (sender from_ to_ : Address) (value : Uint256) : Outcome := do
  require (value ≤ s.balances from_)
  require (value ≤ s.allowed from_ sender)
  require (to_ ≠ 0)
  let s := s.setBalance from_ (← SafeMath.sub (s.balances from_) value)
  let s := s.setBalance to_ (← SafeMath.add (s.balances to_) value)
  let s := s.setAllowed from_ sender (← SafeMath.sub (s.allowed from_ sender) value)
  return (s, [.transfer from_ to_ value])

def increaseApproval (s : Storage) (sender spender : Address) (addedValue : Uint256) :
    Outcome := do
  let s := s.setAllowed sender spender (← SafeMath.add (s.allowed sender spender) addedValue)
  return (s, [.approval sender spender (s.allowed sender spender)])

def decreaseApproval (s : Storage) (sender spender : Address) (subtractedValue : Uint256) :
    Outcome := do
  let oldValue := s.allowed sender spender
  let newValue ← (if oldValue ≤ subtractedValue then some 0
    else SafeMath.sub oldValue subtractedValue : Option Uint256)
  let s := s.setAllowed sender spender newValue
  return (s, [.approval sender spender (s.allowed sender spender)])

def _mint (s : Storage) (account : Address) (amount : Uint256) : Outcome := do
  require (account ≠ 0)
  let s := s.setTotalSupply (← SafeMath.add s.totalSupply_ amount)
  let s := s.setBalance account (← SafeMath.add (s.balances account) amount)
  return (s, [.transfer 0 account amount])

def _burn (s : Storage) (account : Address) (amount : Uint256) : Outcome := do
  require (account ≠ 0)
  require (amount ≤ s.balances account)
  let s := s.setTotalSupply (← SafeMath.sub s.totalSupply_ amount)
  let s := s.setBalance account (← SafeMath.sub (s.balances account) amount)
  return (s, [.transfer account 0 amount])

def _burnFrom (s : Storage) (sender account : Address) (amount : Uint256) : Outcome := do
  require (amount ≤ s.allowed account sender)
  let s := s.setAllowed account sender (← SafeMath.sub (s.allowed account sender) amount)
  _burn s account amount

end StandardToken

namespace Burnable

def burn (s : Storage) (sender : Address) (value : Uint256) : Outcome := do
  require (0 < value ∧ value ≤ s.balances sender)
  let s := s.setBalance sender (← SafeMath.sub (s.balances sender) value)
  let s := s.setTotalSupply (← SafeMath.sub s.totalSupply_ value)
  return (s, [.burn sender value])

def burnFrom (s : Storage) (sender from_ : Address) (value : Uint256) : Outcome := do
  require (from_ ≠ 0 ∧ 0 < value ∧ value ≤ s.balances from_)
  require (value ≤ s.allowed from_ sender)
  let s := s.setBalance from_ (← SafeMath.sub (s.balances from_) value)
  let s := s.setTotalSupply (← SafeMath.sub s.totalSupply_ value)
  let s := s.setAllowed from_ sender (← SafeMath.sub (s.allowed from_ sender) value)
  return (s, [.burn from_ value])

def transfer (s : Storage) (sender to_ : Address) (value : Uint256) : Outcome := do
  require (to_ ≠ 0)
  StandardToken.transfer s sender to_ value

def transferFrom (s : Storage) (sender from_ to_ : Address) (value : Uint256) : Outcome := do
  require (to_ ≠ 0)
  StandardToken.transferFrom s sender from_ to_ value

end Burnable

namespace Ownable

def onlyOwner (s : Storage) (sender : Address) : Option Unit := require (sender = s.owner)

def transferOwnership (s : Storage) (sender newOwner : Address) : Outcome := do
  onlyOwner s sender
  require (newOwner ≠ 0)
  return (s.setOwner newOwner, [.ownershipTransferred s.owner newOwner])

end Ownable

namespace MyToken

/-- `500000000 * 1 ether`. -/
def INITIAL_SUPPLY : Uint256 := BitVec.ofNat 256 (500000000 * 10 ^ 18)

/-- The constructors of `Ownable` and `MyToken`, run by `sender`. -/
def deploy (sender : Address) : Storage where
  balances := Function.update (fun _ => 0) sender INITIAL_SUPPLY
  allowed := fun _ _ => 0
  totalSupply_ := INITIAL_SUPPLY
  owner := sender

def transfer (s : Storage) (sender to_ : Address) (value : Uint256) : Outcome :=
  Burnable.transfer s sender to_ value

def transferFrom (s : Storage) (sender from_ to_ : Address) (value : Uint256) : Outcome :=
  Burnable.transferFrom s sender from_ to_ value

def burn (s : Storage) (sender : Address) (value : Uint256) : Outcome := do
  Ownable.onlyOwner s sender
  Burnable.burn s sender value

def burnFrom (s : Storage) (sender from_ : Address) (value : Uint256) : Outcome := do
  Ownable.onlyOwner s sender
  Burnable.burnFrom s sender from_ value

end MyToken

/-- The public state-changing entry points with their arguments. -/
inductive Call where
  | transfer (to_ : Address) (value : Uint256)
  | transferFrom (from_ to_ : Address) (value : Uint256)
  | approve (spender : Address) (value : Uint256)
  | increaseApproval (spender : Address) (addedValue : Uint256)
  | decreaseApproval (spender : Address) (subtractedValue : Uint256)
  | burn (value : Uint256)
  | burnFrom (from_ : Address) (value : Uint256)
  | transferOwnership (newOwner : Address)
  deriving DecidableEq

/-- A transaction to the contract. -/
structure Msg where
  sender : Address
  call : Call
  deriving DecidableEq

def call (s : Storage) (m : Msg) : Outcome :=
  match m.call with
  | .transfer to_ value => MyToken.transfer s m.sender to_ value
  | .transferFrom from_ to_ value => MyToken.transferFrom s m.sender from_ to_ value
  | .approve spender value => StandardToken.approve s m.sender spender value
  | .increaseApproval spender v => StandardToken.increaseApproval s m.sender spender v
  | .decreaseApproval spender v => StandardToken.decreaseApproval s m.sender spender v
  | .burn value => MyToken.burn s m.sender value
  | .burnFrom from_ value => MyToken.burnFrom s m.sender from_ value
  | .transferOwnership newOwner => Ownable.transferOwnership s m.sender newOwner

/-- A reverted call leaves the storage as it was. -/
def exec (s : Storage) (m : Msg) : Storage :=
  match call s m with
  | some (s', _) => s'
  | none => s

def run (s : Storage) (msgs : List Msg) : Storage := msgs.foldl exec s

/-- The states a deployment by a non-zero account can reach. -/
def Reachable (s : Storage) : Prop :=
  ∃ deployer msgs, deployer ≠ 0 ∧ s = run (MyToken.deploy deployer) msgs

end OlsDapp.Token
