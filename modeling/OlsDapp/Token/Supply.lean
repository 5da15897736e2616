import OlsDapp.Token.Effect
import OlsDapp.Lib.Ledger
import Mathlib.Data.FinEnum

/-!
# Every reachable storage is a conserved ledger

`Refines` relates the modular storage to a ledger over naturals. Each successful call
is matched by one ledger step that creates nothing, so conservation and the supply
bound come from the ledger and are never recomputed on machine words. The internal
`_mint`, `_burn` and `_burnFrom` keep the relation from any conserved storage; they
are not reachable through a public call.
-/

namespace OlsDapp.Token.Supply

open Lib (Ledger)
open SafeMath

structure Refines (s : Storage) (L : Ledger Address) : Prop where
  balance : ∀ a, (s.balances a).toNat = L.balance a
  supply : s.totalSupply_.toNat = L.supply

/-- The balances add up to `totalSupply_`. -/
def Conserved (s : Storage) : Prop := ∑ a, (s.balances a).toNat = s.totalSupply_.toNat

theorem conserved_iff (s : Storage) : Conserved s ↔ ∃ L, Refines s L := by
  constructor
  · intro h
    exact ⟨⟨fun a => (s.balances a).toNat, s.totalSupply_.toNat, h⟩, fun _ => rfl, rfl⟩
  · rintro ⟨L, h⟩
    unfold Conserved
    rw [h.supply, ← L.conserved]
    exact Finset.sum_congr rfl fun a _ => h.balance a

theorem toNat_update (f : Address → Uint256) (a : Address) (v : Uint256) (x : Address) :
    (Function.update f a v x).toNat = Function.update (fun y => (f y).toNat) a v.toNat x := by
  by_cases hx : x = a
  · subst hx; simp
  · simp [hx]

theorem toNat_sub {a b : Uint256} (h : b ≤ a) : (a - b).toNat = a.toNat - b.toNat :=
  BitVec.toNat_sub_of_le h

theorem toNat_add {a b : Uint256} (h : a.toNat + b.toNat < 2 ^ 256) :
    (a + b).toNat = a.toNat + b.toNat :=
  BitVec.toNat_add_of_lt h

section Move

variable {s : Storage} {m : Msg} {mv : Move} {L : Ledger Address}

theorem taken_refines (h : Refines s L) (hv : mv.value ≤ s.balances mv.src) (a : Address) :
    (s.taken mv a).toNat =
      Function.update L.balance mv.src (L.balance mv.src - mv.value.toNat) a := by
  have hb : (fun y => (s.balances y).toNat) = L.balance := funext h.balance
  rw [Storage.taken, toNat_update, toNat_sub hv, hb, h.balance]

theorem funds_refines (h : Refines s L) (hv : mv.value ≤ s.balances mv.src) :
    mv.value.toNat ≤ L.balance mv.src := by
  rw [← h.balance]
  exact BitVec.le_def.mp hv

theorem move_refines (h : Refines s L) (ok : Movable s m mv) :
    ∃ L', Refines (s.applyMove mv) L' ∧ Ledger.Step L L' := by
  have hv := funds_refines h ok.funds
  cases hd : mv.dst with
  | some d =>
    refine ⟨L.transfer mv.src d mv.value.toNat hv, ⟨fun a => ?_, ?_⟩, .transfer ..⟩
    · have hroom := (ok.target d hd).2
      have htaken : (fun y => (s.taken mv y).toNat) =
          Function.update L.balance mv.src (L.balance mv.src - mv.value.toNat) :=
        funext (taken_refines h ok.funds)
      simp only [Storage.applyMove, hd]
      rw [toNat_update, toNat_add hroom, htaken, taken_refines h ok.funds]
      rfl
    · simp only [Storage.applyMove, hd]
      exact h.supply
  | none =>
    refine ⟨L.burn mv.src mv.value.toNat hv, ⟨fun a => ?_, ?_⟩, .burn ..⟩
    · simp only [Storage.applyMove, hd]
      exact taken_refines h ok.funds a
    · simp only [Storage.applyMove, hd]
      rw [toNat_sub (ok.burning hd).2.2.1, h.supply]
      rfl

end Move

theorem effect_refines {s s' : Storage} {m : Msg} {es : List Event} {L : Ledger Address}
    (h : Refines s L) (he : Effect s m s' es) : ∃ L', Refines s' L' ∧ Ledger.Step L L' := by
  cases he with
  | move mv _ ok => exact move_refines h ok
  | grant x w _ => exact ⟨L, ⟨h.balance, h.supply⟩, .rest L⟩
  | own n _ _ _ => exact ⟨L, ⟨h.balance, h.supply⟩, .rest L⟩

theorem exec_refines {s : Storage} {L : Ledger Address} (h : Refines s L) (m : Msg) :
    ∃ L', Refines (exec s m) L' ∧ Ledger.Step L L' := by
  rcases exec_cases s m with ⟨_, he⟩ | ⟨es, _, he⟩
  · rw [he]; exact ⟨L, h, .rest L⟩
  · exact effect_refines h he

theorem run_append (s : Storage) (xs ys : List Msg) : run s (xs ++ ys) = run (run s xs) ys :=
  List.foldl_append

theorem run_refines {s : Storage} {L : Ledger Address} (h : Refines s L) (msgs : List Msg) :
    ∃ L', Refines (run s msgs) L' ∧ L'.supply ≤ L.supply := by
  induction msgs generalizing s L with
  | nil => exact ⟨L, h, le_rfl⟩
  | cons m msgs ih =>
    obtain ⟨L₁, h₁, hstep⟩ := exec_refines h m
    obtain ⟨L₂, h₂, hle⟩ := ih h₁
    exact ⟨L₂, h₂, hle.trans hstep.supply_le⟩

theorem deploy_refines (deployer : Address) :
    Refines (MyToken.deploy deployer) (.single deployer MyToken.INITIAL_SUPPLY.toNat) := by
  refine ⟨fun a => ?_, rfl⟩
  rw [MyToken.deploy, toNat_update]
  rfl

/-- The zero address never holds tokens: it has nothing to pay and may not receive. -/
theorem exec_zero {s : Storage} (h : s.balances 0 = 0) (m : Msg) : (exec s m).balances 0 = 0 := by
  rcases exec_cases s m with ⟨_, he⟩ | ⟨es, _, he⟩
  · rw [he]; exact h
  · generalize exec s m = s' at he
    cases he with
    | grant x w _ => exact h
    | own n _ _ _ => exact h
    | move mv _ ok =>
      have htaken : s.taken mv 0 = 0 := by
        by_cases hs : mv.src = 0
        · have hv : mv.value = 0 := by
            have hle := BitVec.le_def.mp ok.funds
            rw [hs, h] at hle
            exact BitVec.eq_of_toNat_eq (by simpa using hle)
          rw [Storage.taken, hs, Function.update_self, hv, h]
          rfl
        · rw [Storage.taken, Function.update_of_ne (Ne.symm hs), h]
      cases hd : mv.dst with
      | none => simp only [Storage.applyMove, hd]; exact htaken
      | some d =>
        have hne := (ok.target d hd).1
        simp only [Storage.applyMove, hd]
        rw [Function.update_of_ne hne.symm]
        exact htaken

theorem run_zero {s : Storage} (h : s.balances 0 = 0) (msgs : List Msg) :
    (run s msgs).balances 0 = 0 := by
  induction msgs generalizing s with
  | nil => exact h
  | cons m msgs ih => exact ih (exec_zero h m)

theorem deploy_zero {deployer : Address} (hd : deployer ≠ 0) :
    (MyToken.deploy deployer).balances 0 = 0 := by
  show Function.update (fun _ => (0 : Uint256)) deployer _ 0 = 0
  rw [Function.update_of_ne hd.symm]

/-- What holds of every reachable storage. -/
structure Sound (s : Storage) : Prop where
  conserved : Conserved s
  supply_le : s.totalSupply_.toNat ≤ MyToken.INITIAL_SUPPLY.toNat
  zero_empty : s.balances 0 = 0

theorem run_sound {deployer : Address} (hd : deployer ≠ 0) (msgs : List Msg) :
    Sound (run (MyToken.deploy deployer) msgs) := by
  obtain ⟨L, h, hle⟩ := run_refines (deploy_refines deployer) msgs
  exact ⟨(conserved_iff _).mpr ⟨L, h⟩, h.supply ▸ hle, run_zero (deploy_zero hd) msgs⟩

theorem run_supply_le {s : Storage} (h : Conserved s) (msgs : List Msg) :
    (run s msgs).totalSupply_.toNat ≤ s.totalSupply_.toNat := by
  obtain ⟨L, hL⟩ := (conserved_iff s).mp h
  obtain ⟨L', hL', hle⟩ := run_refines hL msgs
  rw [hL.supply, hL'.supply]
  exact hle

section Internal

variable {s s' : Storage} {es : List Event} {a x : Address} {v : Uint256}

theorem mint_conserved (h : Conserved s) (hm : StandardToken._mint s a v = some (s', es)) :
    Conserved s' := by
  obtain ⟨L, hL⟩ := (conserved_iff s).mp h
  simp only [StandardToken._mint, Option.bind_eq_bind, Option.bind_eq_some_iff, require_eq_some,
    add_eq_some, Option.pure_def, Option.some.injEq, Prod.mk.injEq] at hm
  obtain ⟨_, _, _, ⟨hs, rfl⟩, _, ⟨hb, rfl⟩, rfl, rfl⟩ := hm
  have hbal : (fun y => (s.balances y).toNat) = L.balance := funext hL.balance
  refine (conserved_iff _).mpr ⟨L.mint a v.toNat, fun b => ?_, ?_⟩
  · simp only [Storage.setBalance, Storage.setTotalSupply] at hb ⊢
    rw [toNat_update, toNat_add hb, hbal, hL.balance]
    rfl
  · simp only [Storage.setBalance, Storage.setTotalSupply]
    rw [toNat_add hs, hL.supply]
    rfl

theorem burn_conserved (h : Conserved s) (hm : StandardToken._burn s a v = some (s', es)) :
    Conserved s' := by
  obtain ⟨L, hL⟩ := (conserved_iff s).mp h
  simp only [StandardToken._burn, Option.bind_eq_bind, Option.bind_eq_some_iff, require_eq_some,
    sub_eq_some, Option.pure_def, Option.some.injEq, Prod.mk.injEq] at hm
  obtain ⟨_, _, _, hv, _, ⟨hs, rfl⟩, _, ⟨hb, rfl⟩, rfl, rfl⟩ := hm
  have hbal : (fun y => (s.balances y).toNat) = L.balance := funext hL.balance
  have hle : v.toNat ≤ L.balance a := by rw [← hL.balance]; exact BitVec.le_def.mp hv
  refine (conserved_iff _).mpr ⟨L.burn a v.toNat hle, fun b => ?_, ?_⟩
  · simp only [Storage.setBalance, Storage.setTotalSupply]
    rw [toNat_update, toNat_sub hv, hbal, hL.balance]
    rfl
  · simp only [Storage.setBalance, Storage.setTotalSupply]
    rw [toNat_sub hs, hL.supply]
    rfl

theorem burnFrom_conserved (h : Conserved s)
    (hm : StandardToken._burnFrom s x a v = some (s', es)) : Conserved s' := by
  simp only [StandardToken._burnFrom, Option.bind_eq_bind, Option.bind_eq_some_iff,
    require_eq_some, sub_eq_some] at hm
  obtain ⟨_, _, _, ⟨_, rfl⟩, hburn⟩ := hm
  exact burn_conserved (s := s.setAllowed a x (s.allowed a x - v)) h hburn

end Internal

/-- In every state reached from a deployment the balances add up to `totalSupply_`,
the supply has not grown since any earlier point of the run nor passed
`INITIAL_SUPPLY`, and the zero address holds nothing. The internal operations keep
the sum from any state that has it. -/
theorem token_conservation (deployer : Address) (hd : deployer ≠ 0) (msgs : List Msg) :
    Sound (run (MyToken.deploy deployer) msgs) ∧
    (∀ pre post, msgs = pre ++ post →
      (run (MyToken.deploy deployer) msgs).totalSupply_.toNat ≤
        (run (MyToken.deploy deployer) pre).totalSupply_.toNat) ∧
    (∀ s s' es a x v, Conserved s →
      StandardToken._mint s a v = some (s', es) ∨ StandardToken._burn s a v = some (s', es) ∨
        StandardToken._burnFrom s x a v = some (s', es) → Conserved s') := by
  refine ⟨run_sound hd msgs, fun pre post hsplit => ?_, ?_⟩
  · rw [hsplit, run_append]
    exact run_supply_le (run_sound hd pre).conserved post
  · intro s s' es a x v h hm
    rcases hm with hm | hm | hm
    · exact mint_conserved h hm
    · exact burn_conserved h hm
    · exact burnFrom_conserved h hm

theorem token_conservation_at_one :
    (1 : Address) ≠ 0 ∧ Sound (run (MyToken.deploy 1) [⟨1, .transfer 2 5⟩, ⟨2, .burn 1⟩]) :=
  ⟨by decide, (token_conservation 1 (by decide) [⟨1, .transfer 2 5⟩, ⟨2, .burn 1⟩]).1⟩

end OlsDapp.Token.Supply
