import OlsDapp.Token.Supply

/-!
# When a call succeeds

`Movable` has two conditions the source never writes down: the receiver's balance does not
overflow and the supply does not underflow. Both hold wherever the balances add up to
`totalSupply_`, so in a reachable storage a token-moving call is refused by one of its own
`require`s or not at all.
-/

namespace OlsDapp.Token.Success

open Supply

/-- What the `require`s of a token-moving call ask for, those inside SafeMath left out. -/
structure Requires (s : Storage) (m : Msg) (mv : Move) : Prop where
  funds : mv.value ≤ s.balances mv.src
  budget : ∀ x, mv.spender = some x → mv.value ≤ s.allowed mv.src x
  target : ∀ d, mv.dst = some d → d ≠ 0
  burning : mv.dst = none →
    m.sender = s.owner ∧ 0 < mv.value ∧ (mv.spender ≠ none → mv.src ≠ 0)

section Hidden

variable {s : Storage} {m : Msg} {mv : Move}

theorem reachable_conserved (h : Reachable s) : Conserved s := by
  obtain ⟨deployer, msgs, hd, rfl⟩ := h
  exact (run_sound hd msgs).conserved

theorem balance_le_supply (h : Conserved s) (a : Address) :
    (s.balances a).toNat ≤ s.totalSupply_.toNat := by
  obtain ⟨L, hL⟩ := (conserved_iff s).mp h
  rw [hL.balance, hL.supply]
  exact L.balance_le a

theorem add_balance_le_supply (h : Conserved s) {a b : Address} (hne : a ≠ b) :
    (s.balances a).toNat + (s.balances b).toNat ≤ s.totalSupply_.toNat := by
  obtain ⟨L, hL⟩ := (conserved_iff s).mp h
  rw [hL.balance, hL.balance, hL.supply]
  exact L.add_balance_le hne

/-- The addition to the receiver's balance stays below the supply, which is a word. -/
theorem taken_add_lt (h : Conserved s) (hv : mv.value ≤ s.balances mv.src) (d : Address) :
    (s.taken mv d).toNat + mv.value.toNat < 2 ^ 256 := by
  have hsupply := s.totalSupply_.isLt
  have hle := BitVec.le_def.mp hv
  by_cases hd : d = mv.src
  · have hsrc := balance_le_supply h mv.src
    rw [hd, Storage.taken, Function.update_self, toNat_sub hv]
    omega
  · have hpair := add_balance_le_supply h hd
    rw [Storage.taken, Function.update_of_ne hd]
    omega

theorem value_le_supply (h : Conserved s) (hv : mv.value ≤ s.balances mv.src) :
    mv.value ≤ s.totalSupply_ := by
  have hle := BitVec.le_def.mp hv
  have hsrc := balance_le_supply h mv.src
  exact BitVec.le_def.mpr (by omega)

/-- No SafeMath check refuses what the explicit `require`s let through. -/
theorem movable_iff_requires (h : Conserved s) : Movable s m mv ↔ Requires s m mv := by
  constructor
  · intro ok
    refine ⟨ok.funds, ok.budget, fun d hd => (ok.target d hd).1, fun hd => ?_⟩
    obtain ⟨ho, hp, _, hz⟩ := ok.burning hd
    exact ⟨ho, hp, hz⟩
  · intro hr
    refine ⟨hr.funds, hr.budget, fun d hd => ?_, fun hd => ?_⟩
    · exact ⟨hr.target d hd, taken_add_lt h hr.funds d⟩
    · obtain ⟨ho, hp, hz⟩ := hr.burning hd
      exact ⟨ho, hp, value_le_supply h hr.funds, hz⟩

end Hidden

section Outcome

variable {s : Storage} {m : Msg}

theorem isSome_iff_effect : (call s m).isSome ↔ ∃ s' es, Effect s m s' es := by
  rw [Option.isSome_iff_exists]
  constructor
  · intro hgiven
    obtain ⟨⟨s', es⟩, h⟩ := hgiven
    exact ⟨s', es, (call_iff m).mp h⟩
  · intro hgiven
    obtain ⟨s', es, h⟩ := hgiven
    exact ⟨(s', es), (call_iff m).mpr h⟩

theorem grant?_of_move {mv : Move} (hm : m.move? = some mv) : m.grant? s = none := by
  obtain ⟨x, c⟩ := m
  cases c with
  | transfer | transferFrom | burn | burnFrom => rfl
  | approve | increaseApproval | decreaseApproval | transferOwnership => cases hm

theorem isSome_iff_movable {mv : Move} (hm : m.move? = some mv) :
    (call s m).isSome ↔ Movable s m mv := by
  rw [isSome_iff_effect]
  constructor
  · intro hgiven
    obtain ⟨s', es, he⟩ := hgiven
    cases he with
    | move mv' hm' ok =>
      obtain rfl : mv = mv' := Option.some.inj (hm.symm.trans hm')
      exact ok
    | grant y w hg =>
      rw [grant?_of_move hm] at hg
      cases hg
    | own n hc _ _ =>
      simp only [Msg.move?, hc] at hm
      cases hm
  · intro ok
    exact ⟨_, _, .move mv hm ok⟩

theorem isSome_iff_requires (h : Conserved s) {mv : Move} (hm : m.move? = some mv) :
    (call s m).isSome ↔ Requires s m mv := by
  rw [isSome_iff_movable hm, movable_iff_requires h]

theorem increaseApproval_isSome (x y : Address) (v : Uint256) :
    (call s ⟨x, .increaseApproval y v⟩).isSome ↔
      (s.allowed x y).toNat + v.toNat < 2 ^ 256 := by
  rw [isSome_iff_effect]
  constructor
  · intro hgiven
    obtain ⟨s', es, he⟩ := hgiven
    cases he with
    | move mv hm _ => cases hm
    | grant z w hg =>
      simp only [Msg.grant?] at hg
      split at hg
      · assumption
      · cases hg
    | own n hc _ _ => cases hc
  · intro hfit
    exact ⟨_, _, .grant y _ (if_pos hfit)⟩

end Outcome

/-- In a reachable storage each entry point succeeds exactly when its own conditions hold; a
token-moving call that passes its `require`s is not stopped inside SafeMath. -/
theorem success_iff (s : Storage) (hs : Reachable s) (x : Address) :
    (∀ t v, (call s ⟨x, .transfer t v⟩).isSome ↔ t ≠ 0 ∧ v ≤ s.balances x) ∧
    (∀ f t v, (call s ⟨x, .transferFrom f t v⟩).isSome ↔
      t ≠ 0 ∧ v ≤ s.balances f ∧ v ≤ s.allowed f x) ∧
    (∀ v, (call s ⟨x, .burn v⟩).isSome ↔ x = s.owner ∧ 0 < v ∧ v ≤ s.balances x) ∧
    (∀ f v, (call s ⟨x, .burnFrom f v⟩).isSome ↔
      x = s.owner ∧ f ≠ 0 ∧ 0 < v ∧ v ≤ s.balances f ∧ v ≤ s.allowed f x) ∧
    (∀ y v, (call s ⟨x, .increaseApproval y v⟩).isSome ↔
      (s.allowed x y).toNat + v.toNat < 2 ^ 256) ∧
    (∀ y v, (call s ⟨x, .approve y v⟩).isSome) ∧
    (∀ y v, (call s ⟨x, .decreaseApproval y v⟩).isSome) ∧
    (∀ m mv, m.move? = some mv → Requires s m mv → (call s m).isSome) := by
  have h := reachable_conserved hs
  refine ⟨fun t v => ?_, fun f t v => ?_, fun v => ?_, fun f v => ?_,
    fun y v => increaseApproval_isSome x y v,
    fun y v => isSome_iff_effect.mpr ⟨_, _, .grant y v rfl⟩,
    fun y v => isSome_iff_effect.mpr ⟨_, _, .grant y _ rfl⟩,
    fun m mv hm hr => (isSome_iff_requires h hm).mpr hr⟩
  · rw [isSome_iff_requires h rfl]
    constructor
    · intro hr
      exact ⟨hr.target t rfl, hr.funds⟩
    · intro hgiven
      obtain ⟨ht, hv⟩ := hgiven
      exact ⟨hv, by rintro y ⟨⟩, by rintro d ⟨⟩; exact ht, by rintro ⟨⟩⟩
  · rw [isSome_iff_requires h rfl]
    constructor
    · intro hr
      exact ⟨hr.target t rfl, hr.funds, hr.budget x rfl⟩
    · intro hgiven
      obtain ⟨ht, hv, ha⟩ := hgiven
      exact ⟨hv, by rintro y ⟨⟩; exact ha, by rintro d ⟨⟩; exact ht, by rintro ⟨⟩⟩
  · rw [isSome_iff_requires h rfl]
    constructor
    · intro hr
      obtain ⟨ho, hp, _⟩ := hr.burning rfl
      exact ⟨ho, hp, hr.funds⟩
    · intro hgiven
      obtain ⟨ho, hp, hv⟩ := hgiven
      exact ⟨hv, by rintro y ⟨⟩, by rintro d ⟨⟩, fun _ => ⟨ho, hp, fun hne => absurd rfl hne⟩⟩
  · rw [isSome_iff_requires h rfl]
    constructor
    · intro hr
      obtain ⟨ho, hp, hf⟩ := hr.burning rfl
      exact ⟨ho, hf (Option.some_ne_none x), hp, hr.funds, hr.budget x rfl⟩
    · intro hgiven
      obtain ⟨ho, hf, hp, hv, ha⟩ := hgiven
      exact ⟨hv, by rintro y ⟨⟩; exact ha, by rintro d ⟨⟩, fun _ => ⟨ho, hp, fun _ => hf⟩⟩

theorem success_iff_after_deploy :
    (call (MyToken.deploy 1) ⟨1, .transfer 2 5⟩).isSome := by
  have h := success_iff (MyToken.deploy 1) ⟨1, [], by decide, rfl⟩ 1
  exact (h.1 2 5).mpr ⟨by decide, by decide⟩

end OlsDapp.Token.Success
