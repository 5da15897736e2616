import OlsDapp.Token.MyToken
import Mathlib.Tactic.Common
import Mathlib.Tactic.Cases

/-!
# What a successful call does

The four token-moving entry points differ only in who pays, who receives, and whose
allowance is consumed; `Move` names these parts. The three allowance entry points
write one allowance of the sender. `call_iff` is the inversion of `call`: every fact
about a call below is read off from it and no later proof unfolds the contract.
-/

namespace OlsDapp.Token

theorem require_eq_some {p : Prop} [Decidable p] {u : Unit} : require p = some u ↔ p := by
  unfold require
  split <;> simp_all

namespace SafeMath

theorem sub_eq_some {a b c : Uint256} : sub a b = some c ↔ b ≤ a ∧ a - b = c := by
  simp [sub, Option.bind_eq_some_iff, require_eq_some]

theorem le_add_iff {a b : Uint256} : a ≤ a + b ↔ a.toNat + b.toNat < 2 ^ 256 := by
  have ha := a.isLt
  have hb := b.isLt
  rw [BitVec.le_def, BitVec.toNat_add]
  constructor
  · intro h
    by_contra hlt
    rw [Nat.mod_eq_sub_mod (by omega), Nat.mod_eq_of_lt (by omega)] at h
    omega
  · intro h
    rw [Nat.mod_eq_of_lt h]
    omega

theorem add_eq_some {a b c : Uint256} :
    add a b = some c ↔ a.toNat + b.toNat < 2 ^ 256 ∧ a + b = c := by
  simp only [add, Option.bind_eq_bind, Option.bind_eq_some_iff, require_eq_some, le_add_iff,
    Option.pure_def, Option.some.injEq, exists_and_left, exists_const]

/-- The value `decreaseApproval` writes. -/
def floorSub (a b : Uint256) : Uint256 := if a ≤ b then 0 else a - b

theorem toNat_floorSub (a b : Uint256) : (floorSub a b).toNat = a.toNat - b.toNat := by
  unfold floorSub
  split
  · next h =>
    rw [BitVec.le_def] at h
    simp only [BitVec.ofNat_eq_ofNat, BitVec.toNat_ofNat, Nat.zero_mod]
    omega
  · next h =>
    rw [BitVec.le_def] at h
    exact BitVec.toNat_sub_of_le (BitVec.le_def.mpr (by omega))

end SafeMath

/-- Who pays, who receives (nobody, for a burn), how much, and whose allowance pays. -/
structure Move where
  src : Address
  dst : Option Address
  value : Uint256
  spender : Option Address

namespace Move

def event (mv : Move) : Event :=
  match mv.dst with
  | some d => .transfer mv.src d mv.value
  | none => .burn mv.src mv.value

end Move

namespace Msg

def move? (m : Msg) : Option Move :=
  match m.call with
  | .transfer to_ value => some ⟨m.sender, some to_, value, none⟩
  | .transferFrom from_ to_ value => some ⟨from_, some to_, value, some m.sender⟩
  | .burn value => some ⟨m.sender, none, value, none⟩
  | .burnFrom from_ value => some ⟨from_, none, value, some m.sender⟩
  | _ => none

/-- The spender and the value the call writes into the sender's allowance. -/
def grant? (s : Storage) (m : Msg) : Option (Address × Uint256) :=
  match m.call with
  | .approve x v => some (x, v)
  | .increaseApproval x v =>
    if (s.allowed m.sender x).toNat + v.toNat < 2 ^ 256 then
      some (x, s.allowed m.sender x + v)
    else none
  | .decreaseApproval x v => some (x, SafeMath.floorSub (s.allowed m.sender x) v)
  | _ => none

end Msg

namespace Storage

/-- The balances after the payer's debit and before the receiver's credit. -/
def taken (s : Storage) (mv : Move) : Address → Uint256 :=
  Function.update s.balances mv.src (s.balances mv.src - mv.value)

def applyMove (s : Storage) (mv : Move) : Storage where
  balances :=
    match mv.dst with
    | some d => Function.update (s.taken mv) d (s.taken mv d + mv.value)
    | none => s.taken mv
  allowed :=
    match mv.spender with
    | some x => Function.update s.allowed mv.src
        (Function.update (s.allowed mv.src) x (s.allowed mv.src x - mv.value))
    | none => s.allowed
  totalSupply_ :=
    match mv.dst with
    | some _ => s.totalSupply_
    | none => s.totalSupply_ - mv.value
  owner := s.owner

end Storage

/-- The conditions under which a token-moving call does not revert. -/
structure Movable (s : Storage) (m : Msg) (mv : Move) : Prop where
  funds : mv.value ≤ s.balances mv.src
  budget : ∀ x, mv.spender = some x → mv.value ≤ s.allowed mv.src x
  target : ∀ d, mv.dst = some d →
    d ≠ 0 ∧ (s.taken mv d).toNat + mv.value.toNat < 2 ^ 256
  burning : mv.dst = none →
    m.sender = s.owner ∧ 0 < mv.value ∧ mv.value ≤ s.totalSupply_ ∧
      (mv.spender ≠ none → mv.src ≠ 0)

/-- Everything a successful call can do. -/
inductive Effect (s : Storage) (m : Msg) : Storage → List Event → Prop where
  | move (mv : Move) (hm : m.move? = some mv) (ok : Movable s m mv) :
      Effect s m (s.applyMove mv) [mv.event]
  | grant (x : Address) (w : Uint256) (hg : m.grant? s = some (x, w)) :
      Effect s m (s.setAllowed m.sender x w) [.approval m.sender x w]
  | own (n : Address) (hc : m.call = .transferOwnership n) (ho : m.sender = s.owner)
      (hn : n ≠ 0) :
      Effect s m (s.setOwner n) [.ownershipTransferred s.owner n]

section Inversion

variable {s s' : Storage} {es : List Event}

theorem transfer_iff (x t : Address) (v : Uint256) :
    MyToken.transfer s x t v = some (s', es) ↔
      Movable s ⟨x, .transfer t v⟩ ⟨x, some t, v, none⟩ ∧
        s.applyMove ⟨x, some t, v, none⟩ = s' ∧ [.transfer x t v] = es := by
  simp only [MyToken.transfer, Burnable.transfer, StandardToken.transfer, Option.bind_eq_bind,
    Option.bind_eq_some_iff, require_eq_some, SafeMath.sub_eq_some, SafeMath.add_eq_some,
    Option.pure_def, Option.some.injEq, Prod.mk.injEq]
  constructor
  · rintro ⟨_, ht, _, hv, _, _, _, ⟨_, rfl⟩, _, ⟨hr, rfl⟩, rfl, rfl⟩
    exact ⟨⟨hv, by simp, by rintro d ⟨⟩; exact ⟨ht, hr⟩, by simp⟩, rfl, rfl⟩
  · rintro ⟨ok, rfl, rfl⟩
    have ht := ok.target t rfl
    exact ⟨(), ht.1, (), ok.funds, (), ht.1, _, ⟨ok.funds, rfl⟩, _, ⟨ht.2, rfl⟩, rfl, rfl⟩

theorem transferFrom_iff (x f t : Address) (v : Uint256) :
    MyToken.transferFrom s x f t v = some (s', es) ↔
      Movable s ⟨x, .transferFrom f t v⟩ ⟨f, some t, v, some x⟩ ∧
        s.applyMove ⟨f, some t, v, some x⟩ = s' ∧ [.transfer f t v] = es := by
  simp only [MyToken.transferFrom, Burnable.transferFrom, StandardToken.transferFrom,
    Option.bind_eq_bind, Option.bind_eq_some_iff, require_eq_some, SafeMath.sub_eq_some,
    SafeMath.add_eq_some, Option.pure_def, Option.some.injEq, Prod.mk.injEq]
  constructor
  · rintro ⟨_, ht, _, hv, _, ha, _, _, _, ⟨_, rfl⟩, _, ⟨hr, rfl⟩, _, ⟨_, rfl⟩, rfl, rfl⟩
    exact ⟨⟨hv, by rintro y ⟨⟩; exact ha, by rintro d ⟨⟩; exact ⟨ht, hr⟩, by simp⟩, rfl, rfl⟩
  · rintro ⟨ok, rfl, rfl⟩
    have ht := ok.target t rfl
    have ha := ok.budget x rfl
    exact ⟨(), ht.1, (), ok.funds, (), ha, (), ht.1, _, ⟨ok.funds, rfl⟩, _, ⟨ht.2, rfl⟩, _,
      ⟨ha, rfl⟩, rfl, rfl⟩

theorem burn_iff (x : Address) (v : Uint256) :
    MyToken.burn s x v = some (s', es) ↔
      Movable s ⟨x, .burn v⟩ ⟨x, none, v, none⟩ ∧
        s.applyMove ⟨x, none, v, none⟩ = s' ∧ [.burn x v] = es := by
  simp only [MyToken.burn, Ownable.onlyOwner, Burnable.burn, Option.bind_eq_bind,
    Option.bind_eq_some_iff, require_eq_some, SafeMath.sub_eq_some, Option.pure_def,
    Option.some.injEq, Prod.mk.injEq]
  constructor
  · rintro ⟨_, ho, _, ⟨hp, hv⟩, _, ⟨_, rfl⟩, _, ⟨hs, rfl⟩, rfl, rfl⟩
    exact ⟨⟨hv, by simp, by simp, fun _ => ⟨ho, hp, hs, by simp⟩⟩, rfl, rfl⟩
  · rintro ⟨ok, rfl, rfl⟩
    obtain ⟨ho, hp, hs, _⟩ := ok.burning rfl
    exact ⟨(), ho, (), ⟨hp, ok.funds⟩, _, ⟨ok.funds, rfl⟩, _, ⟨hs, rfl⟩, rfl, rfl⟩

theorem burnFrom_iff (x f : Address) (v : Uint256) :
    MyToken.burnFrom s x f v = some (s', es) ↔
      Movable s ⟨x, .burnFrom f v⟩ ⟨f, none, v, some x⟩ ∧
        s.applyMove ⟨f, none, v, some x⟩ = s' ∧ [.burn f v] = es := by
  simp only [MyToken.burnFrom, Ownable.onlyOwner, Burnable.burnFrom, Option.bind_eq_bind,
    Option.bind_eq_some_iff, require_eq_some, SafeMath.sub_eq_some, Option.pure_def,
    Option.some.injEq, Prod.mk.injEq]
  constructor
  · rintro ⟨_, ho, _, ⟨hf, hp, hv⟩, _, ha, _, ⟨_, rfl⟩, _, ⟨hs, rfl⟩, _, ⟨_, rfl⟩, rfl, rfl⟩
    exact ⟨⟨hv, by rintro y ⟨⟩; exact ha, by simp, fun _ => ⟨ho, hp, hs, fun _ => hf⟩⟩, rfl, rfl⟩
  · rintro ⟨ok, rfl, rfl⟩
    obtain ⟨ho, hp, hs, hf⟩ := ok.burning rfl
    have ha := ok.budget x rfl
    exact ⟨(), ho, (), ⟨hf (by simp), hp, ok.funds⟩, (), ha, _, ⟨ok.funds, rfl⟩, _, ⟨hs, rfl⟩, _,
      ⟨ha, rfl⟩, rfl, rfl⟩

@[simp] theorem setAllowed_allowed_self (o x : Address) (v : Uint256) :
    (s.setAllowed o x v).allowed o x = v := by
  simp [Storage.setAllowed]

theorem decrease_value (a b : Uint256) :
    (if a ≤ b then (some 0 : Option Uint256) else SafeMath.sub a b) =
      some (SafeMath.floorSub a b) := by
  unfold SafeMath.floorSub
  split
  · rfl
  · next h =>
    rw [BitVec.le_def] at h
    exact SafeMath.sub_eq_some.mpr ⟨BitVec.le_def.mpr (by omega), rfl⟩

/-- A call succeeds with an outcome exactly when the outcome is one of its effects. -/
theorem call_iff (m : Msg) : call s m = some (s', es) ↔ Effect s m s' es := by
  obtain ⟨x, c⟩ := m
  constructor
  · intro h
    cases c with
    | transfer t v =>
      obtain ⟨ok, rfl, rfl⟩ := (transfer_iff x t v).mp h
      exact .move _ rfl ok
    | transferFrom f t v =>
      obtain ⟨ok, rfl, rfl⟩ := (transferFrom_iff x f t v).mp h
      exact .move _ rfl ok
    | burn v =>
      obtain ⟨ok, rfl, rfl⟩ := (burn_iff x v).mp h
      exact .move _ rfl ok
    | burnFrom f v =>
      obtain ⟨ok, rfl, rfl⟩ := (burnFrom_iff x f v).mp h
      exact .move _ rfl ok
    | approve y v =>
      simp only [call, StandardToken.approve, Option.pure_def, Option.some.injEq,
        Prod.mk.injEq] at h
      obtain ⟨rfl, rfl⟩ := h
      exact .grant y v rfl
    | increaseApproval y v =>
      simp only [call, StandardToken.increaseApproval, Option.bind_eq_bind,
        Option.bind_eq_some_iff, SafeMath.add_eq_some, Option.pure_def, Option.some.injEq,
        Prod.mk.injEq] at h
      obtain ⟨_, ⟨hfit, rfl⟩, rfl, rfl⟩ := h
      rw [setAllowed_allowed_self]
      exact .grant y _ (if_pos hfit)
    | decreaseApproval y v =>
      simp only [call, StandardToken.decreaseApproval, decrease_value, Option.bind_eq_bind,
        Option.bind_some, Option.pure_def, Option.some.injEq, Prod.mk.injEq] at h
      obtain ⟨rfl, rfl⟩ := h
      rw [setAllowed_allowed_self]
      exact .grant y _ rfl
    | transferOwnership n =>
      simp only [call, Ownable.transferOwnership, Ownable.onlyOwner, Option.bind_eq_bind,
        Option.bind_eq_some_iff, require_eq_some, Option.pure_def, Option.some.injEq,
        Prod.mk.injEq] at h
      obtain ⟨_, ho, _, hn, rfl, rfl⟩ := h
      exact .own n rfl ho hn
  · intro h
    cases h with
    | move mv hm ok =>
      cases c with
      | transfer t v => cases hm; exact (transfer_iff x t v).mpr ⟨ok, rfl, rfl⟩
      | transferFrom f t v => cases hm; exact (transferFrom_iff x f t v).mpr ⟨ok, rfl, rfl⟩
      | burn v => cases hm; exact (burn_iff x v).mpr ⟨ok, rfl, rfl⟩
      | burnFrom f v => cases hm; exact (burnFrom_iff x f v).mpr ⟨ok, rfl, rfl⟩
      | approve | increaseApproval | decreaseApproval | transferOwnership => cases hm
    | grant y w hg =>
      cases c with
      | approve z v => cases hg; rfl
      | increaseApproval z v =>
        simp only [Msg.grant?] at hg
        split at hg
        · next hfit =>
          cases hg
          have hadd := SafeMath.add_eq_some.mpr ⟨hfit, rfl⟩
          simp only [call, StandardToken.increaseApproval, hadd, Option.bind_eq_bind,
            Option.bind_some, setAllowed_allowed_self, Option.pure_def]
        · cases hg
      | decreaseApproval z v =>
        cases hg
        simp only [call, StandardToken.decreaseApproval, decrease_value, Option.bind_eq_bind,
          Option.bind_some, setAllowed_allowed_self, Option.pure_def]
      | transfer | transferFrom | burn | burnFrom | transferOwnership => cases hg
    | own n hc ho hn =>
      dsimp only at hc
      subst hc
      simp only [call, Ownable.transferOwnership, Ownable.onlyOwner, require, if_pos ho, if_pos hn,
        Option.bind_eq_bind, Option.bind_some, Option.pure_def]

end Inversion

/-- A message either reverts and changes nothing or has one of its effects. -/
theorem exec_cases (s : Storage) (m : Msg) :
    (call s m = none ∧ exec s m = s) ∨
      ∃ es, call s m = some (exec s m, es) ∧ Effect s m (exec s m) es := by
  cases h : call s m with
  | none => exact Or.inl ⟨rfl, by simp [exec, h]⟩
  | some r =>
    have he : exec s m = r.1 := by simp [exec, h]
    exact Or.inr ⟨r.2, by rw [he], by rw [he]; exact (call_iff m).mp h⟩

end OlsDapp.Token
