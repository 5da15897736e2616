import OlsDapp.Token.Supply

/-!
# Who may change what

`Authorised` lists, for one successful call, who can be behind each kind of change:
a falling balance, a rising allowance, a falling supply, a new owner. It also frames
the rest: what the call does not name is untouched. An account that sends nothing and
has granted nothing therefore never loses tokens, whatever the others send.
-/

namespace OlsDapp.Token.Authority

open Supply

/-- The balances a call names. -/
def NamesBalance (m : Msg) (a : Address) : Prop :=
  match m.call with
  | .transfer t _ => a = m.sender ∨ a = t
  | .transferFrom f t _ => a = f ∨ a = t
  | .burn _ => a = m.sender
  | .burnFrom f _ => a = f
  | _ => False

/-- The allowances a call names. -/
def NamesAllowance (m : Msg) (o x : Address) : Prop :=
  match m.call with
  | .approve y _ => o = m.sender ∧ x = y
  | .increaseApproval y _ => o = m.sender ∧ x = y
  | .decreaseApproval y _ => o = m.sender ∧ x = y
  | .transferFrom f _ _ => o = f ∧ x = m.sender
  | .burnFrom f _ => o = f ∧ x = m.sender
  | _ => False

/-- The sender pays from its own account: a transfer, or a burn by the owner. -/
def PaysOwn (s : Storage) (m : Msg) (a : Address) : Prop :=
  m.sender = a ∧ ((∃ t v, m.call = .transfer t v) ∨ (a = s.owner ∧ ∃ v, m.call = .burn v))

/-- The sender spends `d` of the allowance `a` gave it. -/
def SpendsAllowance (s s' : Storage) (m : Msg) (a : Address) (d : Nat) : Prop :=
  ((∃ t v, m.call = .transferFrom a t v) ∨ (∃ v, m.call = .burnFrom a v)) ∧
    d ≤ (s.allowed a m.sender).toNat ∧
    (s'.allowed a m.sender).toNat + d = (s.allowed a m.sender).toNat

structure Authorised (s : Storage) (m : Msg) (s' : Storage) : Prop where
  debit : ∀ a d, 0 < d → (s'.balances a).toNat + d = (s.balances a).toNat →
    PaysOwn s m a ∨ SpendsAllowance s s' m a d
  raise : ∀ a x, (s.allowed a x).toNat < (s'.allowed a x).toNat → m.sender = a
  supply : s'.totalSupply_.toNat < s.totalSupply_.toNat → m.sender = s.owner
  owner : s'.owner ≠ s.owner → m.sender = s.owner
  owner_ne : s'.owner ≠ 0
  balance_frame : ∀ a, ¬ NamesBalance m a → s'.balances a = s.balances a
  allowance_frame : ∀ o x, ¬ NamesAllowance m o x → s'.allowed o x = s.allowed o x

section Move

variable {s : Storage} {m : Msg} {mv : Move}

theorem taken_toNat_src (ok : Movable s m mv) :
    (s.taken mv mv.src).toNat = (s.balances mv.src).toNat - mv.value.toNat := by
  rw [Storage.taken, Function.update_self, toNat_sub ok.funds]

theorem taken_of_ne {a : Address} (h : a ≠ mv.src) : s.taken mv a = s.balances a :=
  Function.update_of_ne h _ _

theorem applyMove_balance_of_ne {a : Address} (h : mv.dst ≠ some a) :
    (s.applyMove mv).balances a = s.taken mv a := by
  cases hd : mv.dst with
  | none => simp only [Storage.applyMove, hd]
  | some d =>
    have hne : a ≠ d := by rintro rfl; exact h hd
    simp only [Storage.applyMove, hd]
    exact Function.update_of_ne hne _ _

theorem applyMove_balance_dst {d : Address} (ok : Movable s m mv) (h : mv.dst = some d) :
    ((s.applyMove mv).balances d).toNat = (s.taken mv d).toNat + mv.value.toNat := by
  simp only [Storage.applyMove, h]
  rw [Function.update_self, toNat_add (ok.target d h).2]

/-- Only the payer can lose, and it loses exactly the moved value. -/
theorem applyMove_debit {a : Address} {d : Nat} (ok : Movable s m mv) (hd : 0 < d)
    (h : ((s.applyMove mv).balances a).toNat + d = (s.balances a).toNat) :
    a = mv.src ∧ d = mv.value.toNat := by
  have hv := BitVec.le_def.mp ok.funds
  by_cases hdst : mv.dst = some a
  · rw [applyMove_balance_dst ok hdst] at h
    by_cases ha : a = mv.src
    · subst ha
      rw [taken_toNat_src ok] at h
      omega
    · rw [taken_of_ne ha] at h
      omega
  · rw [applyMove_balance_of_ne hdst] at h
    by_cases ha : a = mv.src
    · subst ha
      rw [taken_toNat_src ok] at h
      exact ⟨rfl, by omega⟩
    · rw [taken_of_ne ha] at h
      omega

theorem applyMove_allowed_spender {x : Address} (ok : Movable s m mv) (h : mv.spender = some x) :
    ((s.applyMove mv).allowed mv.src x).toNat =
      (s.allowed mv.src x).toNat - mv.value.toNat := by
  simp only [Storage.applyMove, h]
  rw [Function.update_self, Function.update_self, toNat_sub (ok.budget x h)]

theorem applyMove_allowed_of_ne {o y : Address} (h : o = mv.src → mv.spender ≠ some y) :
    (s.applyMove mv).allowed o y = s.allowed o y := by
  cases hs : mv.spender with
  | none => simp only [Storage.applyMove, hs]
  | some x =>
    simp only [Storage.applyMove, hs]
    by_cases ho : o = mv.src
    · subst ho
      have hne : y ≠ x := by rintro rfl; exact h rfl hs
      rw [Function.update_self, Function.update_of_ne hne]
    · rw [Function.update_of_ne ho]

theorem applyMove_allowed_le (ok : Movable s m mv) (o y : Address) :
    ((s.applyMove mv).allowed o y).toNat ≤ (s.allowed o y).toNat := by
  by_cases h : o = mv.src ∧ mv.spender = some y
  · obtain ⟨rfl, hy⟩ := h
    rw [applyMove_allowed_spender ok hy]
    exact Nat.sub_le _ _
  · rw [applyMove_allowed_of_ne fun ho hy => h ⟨ho, hy⟩]

/-- A move without a spender is paid by its sender; one with a spender is a
`transferFrom` or a `burnFrom` of its payer by that spender. -/
theorem move_payer (hm : m.move? = some mv) (ok : Movable s m mv) :
    (mv.spender = none ∧ PaysOwn s m mv.src) ∨
      (mv.spender = some m.sender ∧
        ((∃ t v, m.call = .transferFrom mv.src t v) ∨ ∃ v, m.call = .burnFrom mv.src v)) := by
  obtain ⟨x, c⟩ := m
  cases c with
  | transfer t v => cases hm; exact Or.inl ⟨rfl, rfl, Or.inl ⟨t, v, rfl⟩⟩
  | transferFrom f t v => cases hm; exact Or.inr ⟨rfl, Or.inl ⟨t, v, rfl⟩⟩
  | burn v =>
    cases hm
    exact Or.inl ⟨rfl, rfl, Or.inr ⟨(ok.burning rfl).1, v, rfl⟩⟩
  | burnFrom f v => cases hm; exact Or.inr ⟨rfl, Or.inr ⟨v, rfl⟩⟩
  | approve | increaseApproval | decreaseApproval | transferOwnership => cases hm

theorem move_names (hm : m.move? = some mv) :
    (∀ a, a = mv.src ∨ mv.dst = some a → NamesBalance m a) ∧
      ∀ x, mv.spender = some x → NamesAllowance m mv.src x := by
  obtain ⟨y, c⟩ := m
  cases c with
  | transfer t v =>
    cases hm
    refine ⟨fun a ha => ?_, fun x hx => by cases hx⟩
    rcases ha with rfl | ha
    · exact Or.inl rfl
    · cases ha; exact Or.inr rfl
  | transferFrom f t v =>
    cases hm
    refine ⟨fun a ha => ?_, fun x hx => by cases hx; exact ⟨rfl, rfl⟩⟩
    rcases ha with rfl | ha
    · exact Or.inl rfl
    · cases ha; exact Or.inr rfl
  | burn v =>
    cases hm
    refine ⟨fun a ha => ?_, fun x hx => by cases hx⟩
    rcases ha with rfl | ha
    · rfl
    · cases ha
  | burnFrom f v =>
    cases hm
    refine ⟨fun a ha => ?_, fun x hx => by cases hx; exact ⟨rfl, rfl⟩⟩
    rcases ha with rfl | ha
    · rfl
    · cases ha
  | approve | increaseApproval | decreaseApproval | transferOwnership => cases hm

theorem move_authorised (hm : m.move? = some mv) (ok : Movable s m mv) (ho : s.owner ≠ 0) :
    Authorised s m (s.applyMove mv) where
  debit := by
    intro a d hd h
    obtain ⟨rfl, rfl⟩ := applyMove_debit ok hd h
    rcases move_payer hm ok with ⟨_, hown⟩ | ⟨hs, hcall⟩
    · exact Or.inl hown
    · have hle := BitVec.le_def.mp (ok.budget _ hs)
      refine Or.inr ⟨hcall, hle, ?_⟩
      rw [applyMove_allowed_spender ok hs]
      omega
  raise := by
    intro a x h
    have hle := applyMove_allowed_le ok a x
    omega
  supply := by
    intro h
    cases hd : mv.dst with
    | some d =>
      simp only [Storage.applyMove, hd] at h
      omega
    | none => exact (ok.burning hd).1
  owner := fun h => absurd rfl h
  owner_ne := ho
  balance_frame := by
    intro a h
    have hnames := (move_names hm).1 a
    have hdst : mv.dst ≠ some a := fun hd => h (hnames (Or.inr hd))
    have hsrc : a ≠ mv.src := fun he => h (hnames (Or.inl he))
    rw [applyMove_balance_of_ne hdst, taken_of_ne hsrc]
  allowance_frame := by
    intro o x h
    apply applyMove_allowed_of_ne
    rintro rfl hx
    exact h ((move_names hm).2 x hx)

end Move

theorem setAllowed_of_ne {s : Storage} {o x p y : Address} {w : Uint256}
    (h : ¬ (p = o ∧ y = x)) : (s.setAllowed o x w).allowed p y = s.allowed p y := by
  unfold Storage.setAllowed
  by_cases hp : p = o
  · subst hp
    have hy : y ≠ x := fun hy => h ⟨rfl, hy⟩
    dsimp only
    rw [Function.update_self, Function.update_of_ne hy]
  · dsimp only
    rw [Function.update_of_ne hp]

theorem grant_names {s : Storage} {m : Msg} {x : Address} {w : Uint256}
    (hg : m.grant? s = some (x, w)) : NamesAllowance m m.sender x := by
  obtain ⟨y, c⟩ := m
  cases c with
  | approve z v => cases hg; exact ⟨rfl, rfl⟩
  | increaseApproval z v =>
    simp only [Msg.grant?] at hg
    split at hg
    · cases hg; exact ⟨rfl, rfl⟩
    · cases hg
  | decreaseApproval z v => cases hg; exact ⟨rfl, rfl⟩
  | transfer | transferFrom | burn | burnFrom | transferOwnership => cases hg

theorem grant_authorised {s : Storage} {m : Msg} {x : Address} {w : Uint256}
    (hg : m.grant? s = some (x, w)) (ho : s.owner ≠ 0) :
    Authorised s m (s.setAllowed m.sender x w) where
  debit := fun a d hd h => by
    change (s.balances a).toNat + d = (s.balances a).toNat at h
    omega
  raise := by
    intro a y h
    by_contra hne
    rw [setAllowed_of_ne (fun hp => hne hp.1.symm)] at h
    exact lt_irrefl _ h
  supply := fun h => absurd h (lt_irrefl _)
  owner := fun h => absurd rfl h
  owner_ne := ho
  balance_frame := fun _ _ => rfl
  allowance_frame := by
    intro o y h
    apply setAllowed_of_ne
    rintro ⟨rfl, rfl⟩
    exact h (grant_names hg)

theorem own_authorised {s : Storage} {m : Msg} {n : Address} (ho : m.sender = s.owner)
    (hn : n ≠ 0) : Authorised s m (s.setOwner n) where
  debit := fun a d hd h => by
    change (s.balances a).toNat + d = (s.balances a).toNat at h
    omega
  raise := fun _ _ h => absurd h (lt_irrefl _)
  supply := fun h => absurd h (lt_irrefl _)
  owner := fun _ => ho
  owner_ne := hn
  balance_frame := fun _ _ => rfl
  allowance_frame := fun _ _ _ => rfl

theorem effect_authorised {s s' : Storage} {m : Msg} {es : List Event}
    (he : Effect s m s' es) (ho : s.owner ≠ 0) : Authorised s m s' := by
  cases he with
  | move mv hm ok => exact move_authorised hm ok ho
  | grant x w hg => exact grant_authorised hg ho
  | own n _ hs hn => exact own_authorised hs hn

theorem exec_owner_ne {s : Storage} (h : s.owner ≠ 0) (m : Msg) : (exec s m).owner ≠ 0 := by
  rcases exec_cases s m with ⟨_, he⟩ | ⟨es, _, he⟩
  · rw [he]; exact h
  · exact (effect_authorised he h).owner_ne

theorem run_owner_ne {s : Storage} (h : s.owner ≠ 0) (msgs : List Msg) :
    (run s msgs).owner ≠ 0 := by
  induction msgs generalizing s with
  | nil => exact h
  | cons m msgs ih => exact ih (exec_owner_ne h m)

theorem reachable_owner_ne {s : Storage} (h : Reachable s) : s.owner ≠ 0 := by
  obtain ⟨deployer, msgs, hd, rfl⟩ := h
  exact run_owner_ne hd msgs

section Silent

variable {s : Storage} {a : Address}

/-- Messages of others leave the empty allowances of `a` empty. -/
theorem exec_grants_nothing (ho : s.owner ≠ 0) (h : ∀ x, s.allowed a x = 0) {m : Msg}
    (hm : m.sender ≠ a) (x : Address) : (exec s m).allowed a x = 0 := by
  rcases exec_cases s m with ⟨_, he⟩ | ⟨es, _, he⟩
  · rw [he]; exact h x
  · have hraise := (effect_authorised he ho).raise a x
    by_contra hne
    apply hm
    apply hraise
    rw [h x]
    exact Nat.pos_of_ne_zero fun h0 => hne (BitVec.eq_of_toNat_eq h0)

theorem run_grants_nothing (ho : s.owner ≠ 0) (h : ∀ x, s.allowed a x = 0) {msgs : List Msg}
    (hm : ∀ m ∈ msgs, m.sender ≠ a) (x : Address) : (run s msgs).allowed a x = 0 := by
  induction msgs generalizing s with
  | nil => exact h x
  | cons m msgs ih =>
    exact ih (exec_owner_ne ho m)
      (exec_grants_nothing ho h (hm m List.mem_cons_self))
      (fun m' hm' => hm m' (List.mem_cons_of_mem m hm'))

theorem exec_balance_le (ho : s.owner ≠ 0) (h : ∀ x, s.allowed a x = 0) {m : Msg}
    (hm : m.sender ≠ a) : (s.balances a).toNat ≤ ((exec s m).balances a).toNat := by
  rcases exec_cases s m with ⟨_, he⟩ | ⟨es, _, he⟩
  · rw [he]
  · by_contra hlt
    have hdebit := (effect_authorised he ho).debit a
      ((s.balances a).toNat - ((exec s m).balances a).toNat) (by omega) (by omega)
    rcases hdebit with hown | ⟨_, hle, _⟩
    · exact hm hown.1
    · rw [h] at hle
      change _ ≤ 0 at hle
      omega

end Silent

/-- Every change a successful call makes in a reachable state is authorised, and an
account that sends nothing and has granted nothing never loses tokens at any step. -/
theorem changes_authorised (s : Storage) (hs : Reachable s) :
    (∀ m s' es, call s m = some (s', es) → Authorised s m s') ∧
    (∀ a msgs, (∀ x, s.allowed a x = 0) → (∀ m ∈ msgs, m.sender ≠ a) →
      ∀ pre m post, msgs = pre ++ m :: post →
        ((run s pre).balances a).toNat ≤ ((run s (pre ++ [m])).balances a).toNat) := by
  have ho := reachable_owner_ne hs
  refine ⟨fun m s' es h => effect_authorised ((call_iff m).mp h) ho, ?_⟩
  intro a msgs hzero hsilent pre m post hsplit
  have hpre : ∀ m' ∈ pre, m'.sender ≠ a := fun m' hm' =>
    hsilent m' (hsplit ▸ List.mem_append_left _ hm')
  have hm : m.sender ≠ a :=
    hsilent m (hsplit ▸ List.mem_append_right _ List.mem_cons_self)
  rw [run_append]
  exact exec_balance_le (run_owner_ne ho pre) (run_grants_nothing ho hzero hpre) hm

theorem changes_authorised_after_deploy :
    Authorised (MyToken.deploy 1) ⟨1, .transferOwnership 2⟩ ((MyToken.deploy 1).setOwner 2) ∧
    ((MyToken.deploy 1).balances 2).toNat ≤
      ((run (MyToken.deploy 1) [⟨1, .transfer 2 5⟩]).balances 2).toNat := by
  have h := changes_authorised (MyToken.deploy 1) ⟨1, [], by decide, rfl⟩
  refine ⟨h.1 _ _ _ ((call_iff _).mpr (.own 2 rfl rfl (by decide))), ?_⟩
  exact h.2 2 [⟨1, .transfer 2 5⟩] (fun _ => rfl) (by decide) [] _ [] rfl

end OlsDapp.Token.Authority
