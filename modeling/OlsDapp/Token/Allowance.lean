import OlsDapp.Token.Authority

/-!
# The allowance budget

One allowance `allowed[o][x]` is followed through a run. `tally` adds up an amount over
the messages that succeed, in the state each of them meets. The step lemma says what one
message does to the budget; the run law is its sum. Nothing here needs reachability.
-/

namespace OlsDapp.Token.Allowance

open Supply Authority

/-- The total of `f` over the messages of a run that do not revert. -/
def tally (f : Msg → Nat) : Storage → List Msg → Nat
  | _, [] => 0
  | s, m :: msgs => (if (call s m).isSome then f m else 0) + tally f (exec s m) msgs

/-- What a message of `x` takes out of the allowance of `o`. -/
def spends (o x : Address) (m : Msg) : Nat :=
  match m.call with
  | .transferFrom f _ v => if f = o ∧ m.sender = x then v.toNat else 0
  | .burnFrom f v => if f = o ∧ m.sender = x then v.toNat else 0
  | _ => 0

/-- What a message of `o` adds to the allowance of `x`. -/
def raises (o x : Address) (m : Msg) : Nat :=
  match m.call with
  | .increaseApproval y v => if m.sender = o ∧ y = x then v.toNat else 0
  | _ => 0

/-- The value `o` approves for `x`. -/
def approves (o x : Address) (m : Msg) : Nat :=
  match m.call with
  | .approve y v => if m.sender = o ∧ y = x then v.toNat else 0
  | _ => 0

def IsApprove (o x : Address) (m : Msg) : Prop := m.sender = o ∧ ∃ v, m.call = .approve x v

def IsDecrease (o x : Address) (m : Msg) : Prop :=
  m.sender = o ∧ ∃ v, m.call = .decreaseApproval x v

/-- The budget of one message: `spent + after ≤ before + approved + raised`, an equality
unless the message overwrites or lowers the allowance. -/
structure Budget (o x : Address) (s : Storage) (m : Msg) (s' : Storage) (took gave : Nat) :
    Prop where
  le : took + (s'.allowed o x).toNat ≤ (s.allowed o x).toNat + approves o x m + gave
  eq : ¬ IsApprove o x m → ¬ IsDecrease o x m →
    took + (s'.allowed o x).toNat = (s.allowed o x).toNat + gave

section Step

variable {s s' : Storage} {m : Msg} {es : List Event} (o x : Address)

theorem spends_of_move {mv : Move} (hm : m.move? = some mv) :
    spends o x m = if mv.src = o ∧ mv.spender = some x then mv.value.toNat else 0 := by
  obtain ⟨y, c⟩ := m
  cases c with
  | transfer t v => cases hm; simp [spends]
  | transferFrom f t v => cases hm; simp [spends]
  | burn v => cases hm; simp [spends]
  | burnFrom f v => cases hm; simp [spends]
  | approve | increaseApproval | decreaseApproval | transferOwnership => cases hm

theorem raises_of_move {mv : Move} (hm : m.move? = some mv) : raises o x m = 0 := by
  obtain ⟨y, c⟩ := m
  cases c with
  | transfer | transferFrom | burn | burnFrom => rfl
  | approve | increaseApproval | decreaseApproval | transferOwnership => cases hm

/-- A move takes from every allowance what its message spends of it. -/
theorem move_spends {mv : Move} (hm : m.move? = some mv) (ok : Movable s m mv) :
    spends o x m + ((s.applyMove mv).allowed o x).toNat = (s.allowed o x).toNat := by
  rw [spends_of_move o x hm]
  by_cases h : mv.src = o ∧ mv.spender = some x
  · obtain ⟨rfl, hx⟩ := h
    have hle := BitVec.le_def.mp (ok.budget x hx)
    rw [if_pos ⟨rfl, hx⟩, applyMove_allowed_spender ok hx]
    omega
  · rw [if_neg h, applyMove_allowed_of_ne fun ho hx => h ⟨ho.symm, hx⟩, Nat.zero_add]

theorem move_budget {mv : Move} (hm : m.move? = some mv) (ok : Movable s m mv) :
    Budget o x s m (s.applyMove mv) (spends o x m) (raises o x m) := by
  have key := move_spends o x hm ok
  have hr := raises_of_move o x hm
  exact ⟨by omega, fun _ _ => by omega⟩

theorem spends_of_grant {y : Address} {w : Uint256} (hg : m.grant? s = some (y, w)) :
    spends o x m = 0 := by
  obtain ⟨z, c⟩ := m
  cases c with
  | approve | increaseApproval | decreaseApproval => rfl
  | transfer | transferFrom | burn | burnFrom | transferOwnership => cases hg

/-- The write of an allowance entry point, seen from the budget of that very allowance. -/
theorem grant_value {y : Address} {w : Uint256} (hg : m.grant? s = some (y, w)) :
    w.toNat ≤ (s.allowed m.sender y).toNat + approves m.sender y m + raises m.sender y m ∧
    (¬ IsApprove m.sender y m → ¬ IsDecrease m.sender y m →
      w.toNat = (s.allowed m.sender y).toNat + raises m.sender y m) := by
  obtain ⟨z, c⟩ := m
  cases c with
  | approve y' v =>
    cases hg
    refine ⟨?_, fun h => absurd ⟨rfl, _, rfl⟩ h⟩
    simp only [approves, and_self, ↓reduceIte]
    omega
  | increaseApproval y' v =>
    simp only [Msg.grant?] at hg
    split at hg
    · next hfit =>
      cases hg
      simp only [approves, raises, and_self, ↓reduceIte]
      rw [toNat_add hfit]
      exact ⟨by omega, fun _ _ => rfl⟩
    · cases hg
  | decreaseApproval y' v =>
    cases hg
    refine ⟨?_, fun _ h => absurd ⟨rfl, _, rfl⟩ h⟩
    rw [SafeMath.toNat_floorSub]
    omega
  | transfer | transferFrom | burn | burnFrom | transferOwnership => cases hg

/-- An allowance write elsewhere adds nothing here. -/
theorem raises_of_grant_ne {y : Address} {w : Uint256} (hg : m.grant? s = some (y, w))
    (h : ¬ (o = m.sender ∧ x = y)) : raises o x m = 0 := by
  obtain ⟨z, c⟩ := m
  cases c with
  | increaseApproval y' v =>
    simp only [Msg.grant?] at hg
    split at hg
    · cases hg
      have hne : ¬ (z = o ∧ y = x) := fun he => h ⟨he.1.symm, he.2.symm⟩
      simp only [raises]
      rw [if_neg hne]
    · cases hg
  | approve | decreaseApproval => rfl
  | transfer | transferFrom | burn | burnFrom | transferOwnership => cases hg

theorem grant_budget {y : Address} {w : Uint256} (hg : m.grant? s = some (y, w)) :
    Budget o x s m (s.setAllowed m.sender y w) (spends o x m) (raises o x m) := by
  have hs := spends_of_grant o x hg
  by_cases h : o = m.sender ∧ x = y
  · obtain ⟨rfl, rfl⟩ := h
    obtain ⟨hle, heq⟩ := grant_value hg
    rw [hs]
    refine ⟨?_, fun ha hd => ?_⟩
    · rw [setAllowed_allowed_self, Nat.zero_add]
      exact hle
    · rw [setAllowed_allowed_self, Nat.zero_add]
      exact heq ha hd
  · have hr := raises_of_grant_ne o x hg h
    have hsame := setAllowed_of_ne (s := s) (w := w) h
    exact ⟨by rw [hsame]; omega, fun _ _ => by rw [hsame]; omega⟩

theorem effect_budget (he : Effect s m s' es) :
    Budget o x s m s' (spends o x m) (raises o x m) := by
  cases he with
  | move mv hm ok => exact move_budget o x hm ok
  | grant y w hg => exact grant_budget o x hg
  | own n hc _ _ =>
    have hs : spends o x m = 0 := by simp only [spends, hc]
    have hr : raises o x m = 0 := by simp only [raises, hc]
    have hsame : (s.setOwner n).allowed o x = s.allowed o x := rfl
    exact ⟨by rw [hsame]; omega, fun _ _ => by rw [hsame]; omega⟩

theorem exec_budget (s : Storage) (m : Msg) :
    Budget o x s m (exec s m) (if (call s m).isSome then spends o x m else 0)
      (if (call s m).isSome then raises o x m else 0) := by
  rcases exec_cases s m with ⟨hn, he⟩ | ⟨es, hs, he⟩
  · rw [he, hn]
    simp only [Option.isSome_none, Bool.false_eq_true, ↓reduceIte]
    exact ⟨by omega, fun _ _ => by omega⟩
  · have h := effect_budget o x he
    rw [hs]
    exact h

end Step

section Run

variable (o x : Address)

/-- The sum of all values `o` approves for `x`. -/
def approved (msgs : List Msg) : Nat := (msgs.map (approves o x)).sum

theorem run_budget_le (s : Storage) (msgs : List Msg) :
    tally (spends o x) s msgs + ((run s msgs).allowed o x).toNat ≤
      (s.allowed o x).toNat + approved o x msgs + tally (raises o x) s msgs := by
  induction msgs generalizing s with
  | nil => simp [tally, approved, run]
  | cons m msgs ih =>
    have hstep := (exec_budget o x s m).le
    have hrest := ih (exec s m)
    show _ + ((run (exec s m) msgs).allowed o x).toNat ≤ _
    simp only [tally, approved, List.map_cons, List.sum_cons] at hrest ⊢
    omega

theorem run_budget_eq (s : Storage) (msgs : List Msg)
    (ha : ∀ m ∈ msgs, ¬ IsApprove o x m) (hd : ∀ m ∈ msgs, ¬ IsDecrease o x m) :
    tally (spends o x) s msgs + ((run s msgs).allowed o x).toNat =
      (s.allowed o x).toNat + tally (raises o x) s msgs := by
  induction msgs generalizing s with
  | nil => simp [tally, run]
  | cons m msgs ih =>
    have hstep := (exec_budget o x s m).eq (ha m List.mem_cons_self) (hd m List.mem_cons_self)
    have hrest := ih (exec s m) (fun m' hm' => ha m' (List.mem_cons_of_mem m hm'))
      (fun m' hm' => hd m' (List.mem_cons_of_mem m hm'))
    show _ + ((run (exec s m) msgs).allowed o x).toNat = _
    simp only [tally] at hrest ⊢
    omega

theorem approves_of_not {m : Msg} (h : ¬ IsApprove o x m) : approves o x m = 0 := by
  obtain ⟨y, c⟩ := m
  cases c with
  | approve z v =>
    have hne : ¬ (y = o ∧ z = x) := by
      rintro ⟨rfl, rfl⟩
      exact h ⟨rfl, v, rfl⟩
    simp only [approves]
    rw [if_neg hne]
  | _ => rfl

theorem approved_of_not {msgs : List Msg} (h : ∀ m ∈ msgs, ¬ IsApprove o x m) :
    approved o x msgs = 0 := by
  unfold approved
  rw [List.sum_eq_zero]
  intro n hn
  obtain ⟨m, hm, rfl⟩ := List.mem_map.mp hn
  exact approves_of_not o x (h m hm)

theorem exec_decrease (s : Storage) (d : Uint256) :
    ((exec s ⟨o, .decreaseApproval x d⟩).allowed o x).toNat =
      (s.allowed o x).toNat - d.toNat := by
  have hcall : call s ⟨o, .decreaseApproval x d⟩ =
      some (s.setAllowed o x (SafeMath.floorSub (s.allowed o x) d), _) :=
    (call_iff _).mpr (.grant x _ rfl)
  rw [exec, hcall]
  dsimp only
  rw [setAllowed_allowed_self, SafeMath.toNat_floorSub]

/-- Over any run, what `x` spends from `o` and what it is left with is covered by what it
had, what `o` approved and what `o` added; exactly, when `o` neither overwrites nor lowers
the allowance. After a `decreaseApproval` of `o`, wherever it falls among the calls of `x`,
`x` can spend no more than what the decrease left and what `o` adds later. -/
theorem allowance_budget (s : Storage) (msgs : List Msg) :
    (tally (spends o x) s msgs + ((run s msgs).allowed o x).toNat ≤
      (s.allowed o x).toNat + approved o x msgs + tally (raises o x) s msgs) ∧
    ((∀ m ∈ msgs, ¬ IsApprove o x m) → (∀ m ∈ msgs, ¬ IsDecrease o x m) →
      tally (spends o x) s msgs + ((run s msgs).allowed o x).toNat =
        (s.allowed o x).toNat + approved o x msgs + tally (raises o x) s msgs) ∧
    ((∀ m ∈ msgs, ¬ IsApprove o x m) → ∀ pre d post,
      msgs = pre ++ ⟨o, .decreaseApproval x d⟩ :: post →
        tally (spends o x) (run s (pre ++ [⟨o, .decreaseApproval x d⟩])) post ≤
          (((run s pre).allowed o x).toNat - d.toNat) +
            tally (raises o x) (run s (pre ++ [⟨o, .decreaseApproval x d⟩])) post) := by
  refine ⟨run_budget_le o x s msgs, fun ha hd => ?_, fun ha pre d post hsplit => ?_⟩
  · rw [approved_of_not o x ha, Nat.add_zero]
    exact run_budget_eq o x s msgs ha hd
  · have hpost : approved o x post = 0 := approved_of_not o x fun m hm =>
      ha m (hsplit ▸ List.mem_append_right _ (List.mem_cons_of_mem _ hm))
    have hbudget := run_budget_le o x (run s (pre ++ [⟨o, .decreaseApproval x d⟩])) post
    have hafter : ((run s (pre ++ [⟨o, .decreaseApproval x d⟩])).allowed o x).toNat =
        ((run s pre).allowed o x).toNat - d.toNat := by
      rw [run_append]
      exact exec_decrease o x (run s pre) d
    omega

end Run

end OlsDapp.Token.Allowance
