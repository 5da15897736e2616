import OlsDapp.Client.Send

/-!
# Which sends settle

`sendTransactionByPrivateKey` is the sixth method: it runs no check and signs at once. The
promises of the check and of the signature have no rejection handler, so where one of them is
rejected nothing is left that could settle the promise of the caller.
-/

namespace OlsDapp.Client

open Web3
open Lib.Machine (run run_cons_eq_some)

section Definitions

/-- What the executor of an unguarded send closes over. -/
structure Signing where
  params : TxParams
  key : String
  deriving DecidableEq

def sendTransactionByPrivateKey (w : Web3) (input : TransactionInput) (privateKey : String) :
    Option Signing := do
  let params : TxParams :=
    { value := ← toWei input.amount ether
      from_ := some (w.accountAddress privateKey)
      to_ := input.to_
      gas := input.gas
      gasPrice := some (← toWei input.gasPrice gwei)
      data := none }
  return ⟨params, privateKey⟩

/-- The promise has just been built and `signTransaction` was called. -/
def Signing.start (g : Signing) : Flow := ⟨.signing, none, [(g.params, g.key)], []⟩

/-- The callbacks from the signature on, which all six methods have. -/
def signedStep (f : Flow) (e : Event) : Option Flow :=
  match f.phase, e with
  | .signing, .signResolved raw => some { f with phase := .submitted, sent := f.sent ++ [raw] }
  | .signing, .signRejected _ => some { f with phase := .stuck }
  | .submitted, .transactionHash hash => some (f.resolve hash)
  | .submitted, .error error => some (f.reject error)
  | .submitted, .rejected error => some (f.reject error)
  | _, _ => none

/-- The six send methods with their arguments. -/
inductive Send where
  | guarded (c : SendCall)
  | sendTransactionByPrivateKey (input : TransactionInput) (privateKey : String)
  deriving DecidableEq

/-- The events of a send; `none` also when it throws before its promise is built. -/
def Send.run (w : Web3) (c : Send) (es : List Event) : Option Flow :=
  match c with
  | .guarded c => (c.prepare w).bind fun p => Lib.Machine.run (step p) .start es
  | .sendTransactionByPrivateKey input privateKey =>
    (Client.sendTransactionByPrivateKey w input privateKey).bind fun g =>
      Lib.Machine.run signedStep g.start es

/-- Every step the promise has started has finished: none is left, or the submitted transaction
has reported. -/
def Finished (es : List Event) (f : Flow) : Prop :=
  f.phase = .stuck ∨ (f.phase = .submitted ∧ (es.findSome? Event.outcome).isSome)

/-- No promise without a handler was rejected, but for a signature after a failed check. -/
structure Handled (es : List Event) : Prop where
  check : ∀ error, .checkRejected error ∉ es
  sign : ∀ error, .signRejected error ∈ es → .checkResolved false ∈ es

end Definitions

section Runs

variable {p : Prepared} {f f' : Flow} {e : Event} {es : List Event}

/-- After its check a guarded send goes on as the unguarded one does. -/
theorem step_eq_signedStep (hf : f.phase ≠ .checking) : step p f e = signedStep f e := by
  obtain ⟨phase, settled, signed, sent⟩ := f
  cases phase with
  | checking => exact absurd rfl hf
  | signing | submitted | stuck => cases e <;> rfl

theorem signedStep_phase (h : signedStep f e = some f') : f'.phase ≠ .checking := by
  obtain ⟨phase, settled, signed, sent⟩ := f
  cases phase <;> cases e <;> cases h <;> exact Phase.noConfusion

theorem run_eq_run_signedStep (hf : f.phase ≠ .checking) :
    run (step p) f es = run signedStep f es := by
  induction es generalizing f with
  | nil => rfl
  | cons e es ih =>
    rw [run, run, step_eq_signedStep hf]
    cases hstep : signedStep f e with
    | none => rfl
    | some f' => exact ih (signedStep_phase hstep)

theorem run_submitted_phase (hf : f.phase = .submitted) (h : run (step p) f es = some f') :
    f'.phase = .submitted ∧ ∀ e ∈ es, e.outcome.isSome := by
  induction es generalizing f with
  | nil =>
    obtain rfl := Option.some.inj h
    exact ⟨hf, List.forall_mem_nil _⟩
  | cons e es ih =>
    obtain ⟨t, ht, hrest⟩ := run_cons_eq_some.mp h
    obtain ⟨r, hr, rfl⟩ := step_submitted hf ht
    obtain ⟨hphase, hall⟩ := ih (f := f.settle r) hf hrest
    refine ⟨hphase, List.forall_mem_cons.mpr ⟨?_, hall⟩⟩
    rw [hr]
    rfl

/-- From the signature on: the promise is settled at the end if it was before, or if the
signature was not rejected. -/
theorem settled_of_signing (hf : f.phase = .signing) (h : run (step p) f es = some f')
    (hfin : Finished es f') :
    (∀ error, .checkRejected error ∉ es) ∧ .checkResolved false ∉ es ∧
      (f'.settled.isSome ↔ f.settled.isSome ∨ ∀ error, .signRejected error ∉ es) := by
  cases es with
  | nil =>
    obtain rfl := Option.some.inj h
    rcases hfin with hstuck | ⟨hsubmitted, _⟩
    · rw [hf] at hstuck
      cases hstuck
    · rw [hf] at hsubmitted
      cases hsubmitted
  | cons e es =>
    obtain ⟨t, ht, hrest⟩ := run_cons_eq_some.mp h
    rcases step_signing hf ht with ⟨raw, rfl, rfl⟩ | ⟨error, rfl, rfl⟩
    · obtain ⟨hphase, hall⟩ := run_submitted_phase rfl hrest
      obtain ⟨hsettled, _⟩ := run_submitted rfl hrest
      have hreports : (es.findSome? Event.outcome).isSome := by
        rcases hfin with hstuck | ⟨_, hreports⟩
        · rw [hphase] at hstuck
          cases hstuck
        · exact hreports
      -- only reports follow the submission
      have hnot (e : Event) (hne : e ≠ .signResolved raw) (hout : e.outcome = none) :
          e ∉ .signResolved raw :: es := by
        intro hmem
        have hsome := hall e ((List.mem_cons.mp hmem).resolve_left hne)
        rw [hout] at hsome
        cases hsome
      refine ⟨fun error => hnot _ nofun rfl, hnot _ nofun rfl, iff_of_true ?_ ?_⟩
      · rw [hsettled, Option.isSome_or, hreports, Bool.or_true]
      · exact Or.inr fun error => hnot _ nofun rfl
    · obtain ⟨rfl, rfl⟩ := run_stuck rfl hrest
      have hnot (e : Event) (hne : e ≠ .signRejected error) : e ∉ [.signRejected error] :=
        fun hmem => hne (List.mem_singleton.mp hmem)
      refine ⟨fun _ => hnot _ nofun, hnot _ nofun, Or.inl, ?_⟩
      intro hor
      exact hor.resolve_right fun hno => hno error (List.mem_singleton_self _)

theorem handled_iff (hcheck : ∀ error, .checkRejected error ∉ es)
    (hpassed : .checkResolved false ∉ es) :
    Handled es ↔ ∀ error, .signRejected error ∉ es := by
  constructor
  · intro hhandled error hmem
    exact hpassed (hhandled.sign error hmem)
  · intro hsign
    exact ⟨hcheck, fun error hmem => absurd hmem (hsign error)⟩

end Runs

/-- For each of the six methods, every input and every order of outcomes: once everything it
started has finished, the promise of the caller is settled exactly when the balance check was
not rejected, nor the signature after a check that had not failed. -/
theorem settles_iff (w : Web3) (c : Send) (es : List Event) (f : Flow) (h : c.run w es = some f)
    (hfin : Finished es f) : f.settled.isSome ↔ Handled es := by
  cases c with
  | guarded c =>
    obtain ⟨p, _, hrun⟩ := Option.bind_eq_some_iff.mp h
    cases es with
    | nil =>
      obtain rfl := Option.some.inj hrun
      rcases hfin with hstuck | ⟨hsubmitted, _⟩
      · cases hstuck
      · cases hsubmitted
    | cons e es =>
      obtain ⟨t, ht, hrest⟩ := run_cons_eq_some.mp hrun
      rcases step_checking rfl ht with ⟨ok, rfl, rfl⟩ | ⟨error, rfl, rfl⟩
      · obtain ⟨hcheck, hpassed, hsettled⟩ := settled_of_signing rfl hrest hfin
        have hcons (e : Event) (hne : e ≠ .checkResolved ok) (hno : e ∉ es) :
            e ∉ .checkResolved ok :: es := List.not_mem_cons_of_ne_of_not_mem hne hno
        rw [hsettled]
        cases ok with
        | false =>
          refine iff_of_true (Or.inl rfl) ⟨fun error => ?_, fun _ _ => List.mem_cons_self⟩
          exact hcons _ nofun (hcheck error)
        | true =>
          rw [handled_iff (fun error => hcons _ nofun (hcheck error)) (hcons _ nofun hpassed)]
          constructor
          · intro hor error
            exact hcons _ nofun (hor.resolve_left Bool.false_ne_true error)
          · intro hsign
            exact Or.inr fun error hmem => hsign error (List.mem_cons_of_mem _ hmem)
      · obtain ⟨rfl, rfl⟩ := run_stuck rfl hrest
        refine iff_of_false Bool.false_ne_true ?_
        intro hhandled
        exact hhandled.check error (List.mem_singleton_self _)
  | sendTransactionByPrivateKey input privateKey =>
    obtain ⟨g, _, hrun⟩ := Option.bind_eq_some_iff.mp h
    -- it goes on as a guarded send with these parameters would
    let p : Prepared := ⟨input, .sufficientBalance, "", g.params, g.key⟩
    have hsame : run (step p) g.start es = some f :=
      (run_eq_run_signedStep Phase.noConfusion).trans hrun
    obtain ⟨hcheck, hpassed, hsettled⟩ := settled_of_signing rfl hsame hfin
    rw [hsettled, handled_iff hcheck hpassed]
    exact or_iff_right Bool.false_ne_true

section Samples

theorem run_sampleSend (es : List Event) :
    (Send.guarded (.sendTransactionByMnemonic sampleInput "k" "s")).run sampleWeb3 es =
      run (step samplePrepared) .start es := by
  rw [Send.run, prepare_sampleInput]
  rfl

/-- A failed check settles the promise, so the rejected signature after it leaves nothing open. -/
theorem settles_refused :
    (some (.error "您的以太坊量不足") : Option (Except String String)).isSome ↔
      Handled [.checkResolved false, .signRejected "e"] :=
  settles_iff sampleWeb3 (.guarded (.sendTransactionByMnemonic sampleInput "k" "s"))
    [.checkResolved false, .signRejected "e"]
    ⟨.stuck, some (.error "您的以太坊量不足"), [(samplePrepared.params, "k")], []⟩
    (by rw [run_sampleSend]; rfl) (Or.inl rfl)

/-- A rejected check, and a rejected signature of the unguarded method, leave the caller without
an answer. -/
theorem rejected_send_never_settles :
    (∃ f, (Send.guarded (.sendTransactionByMnemonic sampleInput "k" "s")).run sampleWeb3
        [.checkRejected "e"] = some f ∧ Finished [.checkRejected "e"] f ∧ f.settled = none) ∧
    ∃ f, (Send.sendTransactionByPrivateKey sampleInput "k").run sampleWeb3
        [.signRejected "e"] = some f ∧ Finished [.signRejected "e"] f ∧ f.settled = none := by
  constructor
  · refine ⟨⟨.stuck, none, [], []⟩, ?_, Or.inl rfl, rfl⟩
    rw [run_sampleSend]
    rfl
  · have hbuilds : sendTransactionByPrivateKey sampleWeb3 sampleInput "k" =
        some ⟨⟨10 ^ 18, some "k", "0xb", 21000, some (10 ^ 9), none⟩, "k"⟩ := by
      simp only [sendTransactionByPrivateKey, sampleInput, toWei_one, Option.bind_eq_bind,
        Option.bind_some, Option.pure_def]
      rfl
    refine ⟨⟨.stuck, none, [(⟨10 ^ 18, some "k", "0xb", 21000, some (10 ^ 9), none⟩, "k")], []⟩,
      ?_, Or.inl rfl, rfl⟩
    rw [Send.run, hbuilds]
    rfl

end Samples

end OlsDapp.Client
