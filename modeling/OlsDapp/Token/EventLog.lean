import OlsDapp.Token.Allowance

/-!
# The event log determines the ledger

A run writes a journal: each message that does not revert, with the events it emits. What the
journal says about a balance, the supply or an allowance is kept equal to the storage by every
effect, so whoever has read all the events knows the storage. A burn has no `Transfer` event
and a decrease an `Approval` of the value it saturates to.
-/

namespace OlsDapp.Token.EventLog

open Supply Authority Allowance

/-- The messages of a run that do not revert, each with the events it emits. -/
def journal : Storage → List Msg → List (Msg × List Event)
  | _, [] => []
  | s, m :: msgs =>
    match call s m with
    | some (s', es) => (m, es) :: journal s' msgs
    | none => journal s msgs

def events (j : List (Msg × List Event)) : List Event := j.flatMap Prod.snd

section Quantities

variable (a o x : Address)

/-- The value of a `Transfer` from `a`. -/
def sent : Event → Nat
  | .transfer from_ _ value => if from_ = a then value.toNat else 0
  | _ => 0

/-- The value of a `Transfer` to `a`. -/
def received : Event → Nat
  | .transfer _ to_ value => if to_ = a then value.toNat else 0
  | _ => 0

/-- The value of a `Burn` of `a`. -/
def burntOf : Event → Nat
  | .burn from_ value => if from_ = a then value.toNat else 0
  | _ => 0

def burnt : Event → Nat
  | .burn _ value => value.toNat
  | _ => 0

def total (f : Event → Nat) (es : List Event) : Nat := (es.map f).sum

/-- The value of an `Approval(o, x)`. -/
def approval? : Event → Option Nat
  | .approval owner spender value =>
    if owner = o ∧ spender = x then some value.toNat else none
  | _ => none

/-- The value of the latest `Approval(o, x)`, 0 if there is none. -/
def latestApproval (es : List Event) : Nat :=
  es.foldl (fun v e => (approval? o x e).getD v) 0

/-- What `x` has spent from `o` since the latest `Approval(o, x)`. -/
def spentSince (j : List (Msg × List Event)) : Nat :=
  j.foldl (fun d r => if r.2.any fun e => (approval? o x e).isSome then 0
    else d + spends o x r.1) 0

end Quantities

/-- The journal explains every cell of the storage of a contract deployed by `deployer`. -/
structure Explains (deployer : Address) (s : Storage) (j : List (Msg × List Event)) : Prop where
  balance : ∀ a, (s.balances a).toNat + total (sent a) (events j) + total (burntOf a) (events j) =
    total (received a) (events j) + if a = deployer then MyToken.INITIAL_SUPPLY.toNat else 0
  supply : s.totalSupply_.toNat + total burnt (events j) = MyToken.INITIAL_SUPPLY.toNat
  allowance : ∀ o x, (s.allowed o x).toNat + spentSince o x j = latestApproval o x (events j)

section Extend

variable (f : Event → Nat) (o x : Address) (j : List (Msg × List Event)) (m : Msg) (e : Event)

theorem events_append_one : events (j ++ [(m, [e])]) = events j ++ [e] := by
  simp [events]

theorem total_append_one :
    total f (events (j ++ [(m, [e])])) = total f (events j) + f e := by
  simp [total, events_append_one]

theorem latestApproval_append_one :
    latestApproval o x (events (j ++ [(m, [e])])) =
      (approval? o x e).getD (latestApproval o x (events j)) := by
  rw [events_append_one, latestApproval, List.foldl_append]
  rfl

theorem spentSince_append_one :
    spentSince o x (j ++ [(m, [e])]) =
      if (approval? o x e).isSome then 0 else spentSince o x j + spends o x m := by
  rw [spentSince, List.foldl_append]
  simp [spentSince]

end Extend

section Step

variable {deployer : Address} {s s' : Storage} {m : Msg} {mv : Move} {e : Event}
  {es : List Event} {j : List (Msg × List Event)}

/-- What a move does to one balance, on naturals. -/
theorem applyMove_balance_toNat (ok : Movable s m mv) (a : Address) :
    ((s.applyMove mv).balances a).toNat + (if mv.src = a then mv.value.toNat else 0) =
      (s.balances a).toNat + if mv.dst = some a then mv.value.toNat else 0 := by
  have htaken : (s.taken mv a).toNat + (if mv.src = a then mv.value.toNat else 0) =
      (s.balances a).toNat := by
    by_cases ha : mv.src = a
    · subst ha
      have hle := BitVec.le_def.mp ok.funds
      rw [if_pos rfl, taken_toNat_src ok]
      omega
    · rw [if_neg ha, taken_of_ne (Ne.symm ha), Nat.add_zero]
  by_cases hd : mv.dst = some a
  · rw [if_pos hd, applyMove_balance_dst ok hd]
    omega
  · rw [if_neg hd, applyMove_balance_of_ne hd]
    omega

theorem applyMove_supply_toNat (ok : Movable s m mv) :
    (s.applyMove mv).totalSupply_.toNat + (if mv.dst = none then mv.value.toNat else 0) =
      s.totalSupply_.toNat := by
  cases hd : mv.dst with
  | some d =>
    simp only [Storage.applyMove, hd]
    rw [if_neg (Option.some_ne_none d), Nat.add_zero]
  | none =>
    have hle := (ok.burning hd).2.2.1
    have hnat := BitVec.le_def.mp hle
    simp only [Storage.applyMove, hd, ↓reduceIte]
    rw [toNat_sub hle]
    omega

/-- The event of a move says what the move does to each balance. -/
theorem event_balance (mv : Move) (a : Address) :
    sent a mv.event + burntOf a mv.event = (if mv.src = a then mv.value.toNat else 0) ∧
      received a mv.event = if mv.dst = some a then mv.value.toNat else 0 := by
  obtain ⟨src, dst, value, spender⟩ := mv
  cases dst with
  | none => exact ⟨Nat.zero_add _, rfl⟩
  | some d => simp [Move.event, sent, received, burntOf]

theorem event_burnt : burnt mv.event = if mv.dst = none then mv.value.toNat else 0 := by
  obtain ⟨src, dst, value, spender⟩ := mv
  cases dst <;> rfl

theorem event_approval? (o x : Address) : approval? o x mv.event = none := by
  obtain ⟨src, dst, value, spender⟩ := mv
  cases dst <;> rfl

theorem explains_move (h : Explains deployer s j) (hm : m.move? = some mv)
    (ok : Movable s m mv) :
    Explains deployer (s.applyMove mv) (j ++ [(m, [mv.event])]) := by
  constructor
  · intro a
    have hbefore := h.balance a
    have hmove := applyMove_balance_toNat ok a
    obtain ⟨hpaid, hgot⟩ := event_balance mv a
    simp only [total_append_one]
    omega
  · have hbefore := h.supply
    have hmove := applyMove_supply_toNat ok
    rw [total_append_one, event_burnt]
    omega
  · intro o x
    have hbefore := h.allowance o x
    have hmove := move_spends o x hm ok
    rw [latestApproval_append_one, spentSince_append_one, event_approval?]
    simp only [Option.isSome_none, Bool.false_eq_true, ↓reduceIte, Option.getD_none]
    omega

/-- An `Approval` carries the value that was written, and no other allowance moves. -/
theorem explains_grant (h : Explains deployer s j) {y : Address} {w : Uint256}
    (hg : m.grant? s = some (y, w)) :
    Explains deployer (s.setAllowed m.sender y w)
      (j ++ [(m, [.approval m.sender y w])]) := by
  constructor
  · intro a
    simp only [total_append_one]
    exact h.balance a
  · rw [total_append_one]
    exact h.supply
  · intro o x
    rw [latestApproval_append_one, spentSince_append_one]
    by_cases hox : m.sender = o ∧ y = x
    · obtain ⟨rfl, rfl⟩ := hox
      rw [setAllowed_allowed_self]
      simp [approval?]
    · have hsame : (s.setAllowed m.sender y w).allowed o x = s.allowed o x :=
        setAllowed_of_ne fun hne => hox ⟨hne.1.symm, hne.2.symm⟩
      have hspent := spends_of_grant o x hg
      have hbefore := h.allowance o x
      rw [hsame]
      simp only [approval?, if_neg hox, Option.isSome_none, Bool.false_eq_true, ↓reduceIte,
        Option.getD_none]
      omega

theorem explains_own (h : Explains deployer s j) {n : Address}
    (hc : m.call = .transferOwnership n) :
    Explains deployer (s.setOwner n) (j ++ [(m, [.ownershipTransferred s.owner n])]) := by
  constructor
  · intro a
    simp only [total_append_one]
    exact h.balance a
  · rw [total_append_one]
    exact h.supply
  · intro o x
    have hspent : spends o x m = 0 := by simp only [spends, hc]
    rw [latestApproval_append_one, spentSince_append_one, hspent]
    exact h.allowance o x

theorem explains_effect (h : Explains deployer s j) (he : Effect s m s' es) :
    Explains deployer s' (j ++ [(m, es)]) := by
  cases he with
  | move mv hm ok => exact explains_move h hm ok
  | grant y w hg => exact explains_grant h hg
  | own n hc _ _ => exact explains_own h hc

end Step

section Run

theorem explains_deploy (deployer : Address) : Explains deployer (MyToken.deploy deployer) [] := by
  constructor
  · intro a
    show (Function.update (fun _ => (0 : Uint256)) deployer _ a).toNat = 0 + _
    by_cases ha : a = deployer
    · rw [ha, Function.update_self, if_pos rfl, Nat.zero_add]
    · rw [Function.update_of_ne ha, if_neg ha]
      rfl
  · rfl
  · intro o x
    rfl

theorem explains_run {deployer : Address} {s : Storage} {j : List (Msg × List Event)}
    (h : Explains deployer s j) (msgs : List Msg) :
    Explains deployer (run s msgs) (j ++ journal s msgs) := by
  induction msgs generalizing s j with
  | nil =>
    show Explains deployer s (j ++ [])
    rw [List.append_nil]
    exact h
  | cons m msgs ih =>
    show Explains deployer (run (exec s m) msgs) _
    rcases exec_cases s m with ⟨hcall, he⟩ | ⟨es, hcall, he⟩
    · simp only [journal, hcall]
      rw [he]
      exact ih h
    · have hnext := ih (explains_effect h he)
      simp only [journal, hcall]
      rwa [List.append_assoc] at hnext

/-- After every run from a deployment, the events alone give each balance and the supply, and
each allowance is the value of its latest `Approval` less what was spent of it since. -/
theorem event_log_determines (deployer : Address) (msgs : List Msg) :
    let s := run (MyToken.deploy deployer) msgs
    let j := journal (MyToken.deploy deployer) msgs
    (∀ a, (s.balances a).toNat + total (sent a) (events j) + total (burntOf a) (events j) =
      total (received a) (events j) +
        if a = deployer then MyToken.INITIAL_SUPPLY.toNat else 0) ∧
    s.totalSupply_.toNat + total burnt (events j) = MyToken.INITIAL_SUPPLY.toNat ∧
    (∀ o x, (s.allowed o x).toNat ≤ latestApproval o x (events j) ∧
      latestApproval o x (events j) - (s.allowed o x).toNat = spentSince o x j) := by
  intro s j
  have h : Explains deployer s j := explains_run (explains_deploy deployer) msgs
  refine ⟨h.balance, h.supply, fun o x => ?_⟩
  have hallowance := h.allowance o x
  omega

end Run

end OlsDapp.Token.EventLog
