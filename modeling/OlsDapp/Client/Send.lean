import OlsDapp.Client.Web3Client
import OlsDapp.Lib.Machine

/-!
# The promise of a guarded send

The executor of the returned promise is a machine: its labels are the outcomes of the
asynchronous steps it started, in the order they arrive. `signed` and `sent` record the
invocations of `signTransaction` and `sendSignedTransaction`. Settling a settled promise
does nothing, and settling does not leave the callback that does it.
-/

namespace OlsDapp.Client

open Lib.Machine (run run_cons_eq_some)

inductive Event where
  | checkResolved (sufficient : Bool)
  | checkRejected (error : String)
  | signResolved (rawTransaction : String)
  | signRejected (error : String)
  | transactionHash (hash : String)
  | error (error : String)
  | rejected (error : String)
  deriving DecidableEq

inductive Phase where
  | checking
  | signing
  | submitted
  /-- An inner promise without a rejection handler was rejected. -/
  | stuck
  deriving DecidableEq

structure Flow where
  phase : Phase
  settled : Option (Except String String)
  signed : List (TxParams × String)
  sent : List String

namespace Flow

def settle (f : Flow) (r : Except String String) : Flow :=
  { f with settled := f.settled.or (some r) }

def resolve (f : Flow) (hash : String) : Flow := f.settle (.ok hash)

def reject (f : Flow) (error : String) : Flow := f.settle (.error error)

/-- The promise has just been built and the guard was called. -/
def start : Flow := ⟨.checking, none, [], []⟩

end Flow

def step (p : Prepared) (f : Flow) (e : Event) : Option Flow :=
  match f.phase, e with
  | .checking, .checkResolved sufficient =>
    let f := if !sufficient then f.reject p.message else f
    -- the refused branch has no `return`
    some { f with phase := .signing, signed := f.signed ++ [(p.params, p.key)] }
  | .checking, .checkRejected _ => some { f with phase := .stuck }
  | .signing, .signResolved raw => some { f with phase := .submitted, sent := f.sent ++ [raw] }
  | .signing, .signRejected _ => some { f with phase := .stuck }
  | .submitted, .transactionHash hash => some (f.resolve hash)
  | .submitted, .error error => some (f.reject error)
  | .submitted, .rejected error => some (f.reject error)
  | _, _ => none

/-- A call whose preparation throws builds no promise body and never gets an event. -/
def SendCall.run (w : Web3) (c : SendCall) (es : List Event) : Option Flow :=
  match c.prepare w with
  | some p => Lib.Machine.run (step p) .start es
  | none => if es = [] then some { Flow.start with phase := .stuck } else none

namespace Event

/-- What the submitted transaction reports. -/
def outcome : Event → Option (Except String String)
  | transactionHash hash => some (.ok hash)
  | error e => some (.error e)
  | rejected e => some (.error e)
  | _ => none

end Event

/-- The first report of the submitted transaction is its hash. -/
def HashFirst (es : List Event) : Prop := ∃ h, es.findSome? Event.outcome = some (.ok h)

/-- A refused or failed send moves no funds. -/
structure MovesNoFunds (es : List Event) (f : Flow) : Prop where
  once : f.sent.length ≤ 1
  refused : .checkResolved false ∈ es →
    (∃ e, f.settled = some (.error e)) ∧ f.signed = [] ∧ f.sent = []
  resolves : (∃ h, f.settled = some (.ok h)) ↔ f.sent ≠ [] ∧ HashFirst es

section Runs

variable {p : Prepared} {f f' : Flow} {e : Event} {es : List Event}

theorem step_submitted (hf : f.phase = .submitted) (h : step p f e = some f') :
    ∃ r, e.outcome = some r ∧ f' = f.settle r := by
  obtain ⟨ph, st, sg, sn⟩ := f
  cases hf
  cases e with
  | transactionHash hash => exact ⟨_, rfl, (Option.some.inj h).symm⟩
  | error err => exact ⟨_, rfl, (Option.some.inj h).symm⟩
  | rejected err => exact ⟨_, rfl, (Option.some.inj h).symm⟩
  | checkResolved | checkRejected | signResolved | signRejected => cases h

theorem step_signing (hf : f.phase = .signing) (h : step p f e = some f') :
    (∃ raw, e = .signResolved raw ∧ f' = { f with phase := .submitted, sent := f.sent ++ [raw] }) ∨
      (∃ err, e = .signRejected err ∧ f' = { f with phase := .stuck }) := by
  obtain ⟨ph, st, sg, sn⟩ := f
  cases hf
  cases e with
  | signResolved raw => exact Or.inl ⟨raw, rfl, (Option.some.inj h).symm⟩
  | signRejected err => exact Or.inr ⟨err, rfl, (Option.some.inj h).symm⟩
  | checkResolved | checkRejected | transactionHash | error | rejected => cases h

theorem step_checking (hf : f.phase = .checking) (h : step p f e = some f') :
    (∃ ok, e = .checkResolved ok ∧
        f' = { (if !ok then f.reject p.message else f) with
          phase := .signing, signed := f.signed ++ [(p.params, p.key)] }) ∨
      (∃ err, e = .checkRejected err ∧ f' = { f with phase := .stuck }) := by
  obtain ⟨ph, st, sg, sn⟩ := f
  cases hf
  cases e with
  | checkResolved ok =>
    refine Or.inl ⟨ok, rfl, ?_⟩
    cases ok <;> exact (Option.some.inj h).symm
  | checkRejected err => exact Or.inr ⟨err, rfl, (Option.some.inj h).symm⟩
  | signResolved | signRejected | transactionHash | error | rejected => cases h

theorem run_stuck (hf : f.phase = .stuck) (h : run (step p) f es = some f') : es = [] ∧ f' = f := by
  cases es with
  | nil => exact ⟨rfl, (Option.some.inj h).symm⟩
  | cons e es =>
    obtain ⟨t, ht, _⟩ := run_cons_eq_some.mp h
    obtain ⟨ph, st, sg, sn⟩ := f
    cases hf
    cases e <;> cases ht

/-- Once submitted, only the first report can still settle the promise. -/
theorem run_submitted (hf : f.phase = .submitted) (h : run (step p) f es = some f') :
    f'.settled = f.settled.or (es.findSome? Event.outcome) ∧ f'.signed = f.signed ∧
      f'.sent = f.sent ∧ ∀ ok, .checkResolved ok ∉ es := by
  induction es generalizing f with
  | nil =>
    obtain rfl := Option.some.inj h
    refine ⟨?_, rfl, rfl, fun ok => List.not_mem_nil⟩
    rw [List.findSome?_nil, Option.or_none]
  | cons e es ih =>
    obtain ⟨t, ht, hrest⟩ := run_cons_eq_some.mp h
    obtain ⟨r, hr, rfl⟩ := step_submitted hf ht
    obtain ⟨h1, h2, h3, h4⟩ := ih (f := f.settle r) hf hrest
    refine ⟨?_, h2, h3, fun ok hmem => ?_⟩
    · rw [h1, List.findSome?_cons, hr]
      show (f.settled.or (some r)).or _ = f.settled.or (some r)
      cases f.settled <;> rfl
    · rcases List.mem_cons.mp hmem with rfl | hmem
      · cases hr
      · exact h4 ok hmem

/-- After the check: the rest of the run signs, submits at most once and reports. -/
theorem run_signing (hf : f.phase = .signing) (hsent : f.sent = [])
    (h : run (step p) f es = some f') :
    f'.signed = f.signed ∧ (∀ ok, .checkResolved ok ∉ es) ∧
      ((f'.sent = [] ∧ f'.settled = f.settled ∧ es.findSome? Event.outcome = none) ∨
        (f'.sent.length = 1 ∧ f'.settled = f.settled.or (es.findSome? Event.outcome))) := by
  cases es with
  | nil =>
    obtain rfl := Option.some.inj h
    exact ⟨rfl, fun ok => List.not_mem_nil, Or.inl ⟨hsent, rfl, rfl⟩⟩
  | cons e es =>
    obtain ⟨t, ht, hrest⟩ := run_cons_eq_some.mp h
    rcases step_signing hf ht with ⟨raw, rfl, rfl⟩ | ⟨err, rfl, rfl⟩
    · obtain ⟨h1, h2, h3, h4⟩ := run_submitted rfl hrest
      refine ⟨h2, fun ok hmem => ?_, Or.inr ⟨?_, ?_⟩⟩
      · rcases List.mem_cons.mp hmem with hmem | hmem
        · cases hmem
        · exact h4 ok hmem
      · rw [h3, hsent]; rfl
      · rw [h1, List.findSome?_cons]; rfl
    · obtain ⟨rfl, rfl⟩ := run_stuck rfl hrest
      refine ⟨rfl, fun ok hmem => ?_, Or.inl ⟨hsent, rfl, rfl⟩⟩
      rcases List.mem_cons.mp hmem with hmem | hmem
      · cases hmem
      · exact List.not_mem_nil hmem

/-- A passed check leaves a promise that settles by the transaction's first report. -/
theorem movesNoFunds_of_passed (hf : f.phase = .signing) (hsent : f.sent = [])
    (hset : f.settled = none) (h : run (step p) f es = some f') :
    MovesNoFunds (.checkResolved true :: es) f' := by
  obtain ⟨_, hchk, hcase⟩ := run_signing hf hsent h
  have hno : Event.checkResolved false ∉ Event.checkResolved true :: es := by
    intro hmem
    rcases List.mem_cons.mp hmem with hmem | hmem
    · cases hmem
    · exact hchk false hmem
  have hfirst : (Event.checkResolved true :: es).findSome? Event.outcome =
      es.findSome? Event.outcome := rfl
  rcases hcase with ⟨hs, hst, hnone⟩ | ⟨hs, hst⟩
  · refine ⟨by simp [hs], fun hmem => absurd hmem hno, ?_⟩
    rw [hst, hset]
    simp [hs]
  · refine ⟨hs.le, fun hmem => absurd hmem hno, ?_⟩
    have hne : f'.sent ≠ [] := by rintro he; simp [he] at hs
    rw [HashFirst, hfirst, hst, hset, Option.none_or]
    exact ⟨fun hr => ⟨hne, hr⟩, fun hr => hr.2⟩

/-- A failed check is followed by a signature all the same. -/
theorem not_movesNoFunds_of_refused (hf : f.phase = .signing) (hsent : f.sent = [])
    (hsigned : f.signed ≠ []) (h : run (step p) f es = some f') :
    ¬ MovesNoFunds (.checkResolved false :: es) f' := by
  intro hm
  obtain ⟨hsg, _, _⟩ := run_signing hf hsent h
  exact hsigned (hsg ▸ (hm.refused List.mem_cons_self).2.1)

end Runs

theorem movesNoFunds_idle {f : Flow} {es : List Event} (hsent : f.sent = [])
    (hset : f.settled = none) (hno : .checkResolved false ∉ es) : MovesNoFunds es f := by
  refine ⟨by simp [hsent], fun hmem => absurd hmem hno, ?_⟩
  simp [hsent, hset]

/-- For each of the five methods, every input and every order of asynchronous outcomes,
the send moves no funds it should not exactly when its balance check did not resolve to
`false`. -/
theorem movesNoFunds_iff (w : Web3) (c : SendCall) (es : List Event) (f : Flow)
    (h : c.run w es = some f) : MovesNoFunds es f ↔ .checkResolved false ∉ es := by
  unfold SendCall.run at h
  split at h
  · next p _ =>
    cases es with
    | nil =>
      obtain rfl := Option.some.inj h
      exact ⟨fun _ => List.not_mem_nil, movesNoFunds_idle rfl rfl⟩
    | cons e es =>
      obtain ⟨t, ht, hrest⟩ := run_cons_eq_some.mp h
      rcases step_checking rfl ht with ⟨ok, rfl, rfl⟩ | ⟨err, rfl, rfl⟩
      · cases ok with
        | true =>
          have hm := movesNoFunds_of_passed rfl rfl rfl hrest
          refine ⟨fun _ hmem => ?_, fun _ => hm⟩
          obtain ⟨_, hchk, _⟩ := run_signing rfl rfl hrest
          rcases List.mem_cons.mp hmem with hmem | hmem
          · cases hmem
          · exact hchk false hmem
        | false =>
          have hm := not_movesNoFunds_of_refused rfl rfl (List.cons_ne_nil _ _) hrest
          exact ⟨fun hgood => absurd hgood hm, fun hno => absurd List.mem_cons_self hno⟩
      · obtain ⟨rfl, rfl⟩ := run_stuck rfl hrest
        have hno : Event.checkResolved false ∉ [Event.checkRejected err] := by
          simp
        exact ⟨fun _ => hno, movesNoFunds_idle rfl rfl⟩
  · split at h
    · next hnil =>
      obtain rfl := Option.some.inj h
      rw [hnil]
      exact ⟨fun _ => List.not_mem_nil, movesNoFunds_idle rfl rfl⟩
    · cases h

/-- A node and libraries for one concrete call: every key is its mnemonic. -/
def sampleWeb3 : Web3 where
  tokenAddress := "0xt"
  getPrivateKeyByMnemonicAndSalt := fun mnemonic _ => mnemonic
  accountAddress := id
  getGasPrice := some 1000000000
  manager := some ⟨"0xm"⟩
  encodes := fun _ => true
  sha3 := id
  ecsign := fun _ _ => some "0xs"

def sampleInput : TransactionInput := ⟨"0xa", "0xb", 1, 21000, 1⟩

def samplePrepared : Prepared :=
  ⟨sampleInput, .sufficientBalance, "您的以太坊量不足",
    ⟨10 ^ 18, some "0xa", "0xb", 21000, some (10 ^ 9), none⟩, "k"⟩

theorem prepare_sampleInput :
    (SendCall.sendTransactionByMnemonic sampleInput "k" "s").prepare sampleWeb3 =
      some samplePrepared := by
  simp only [SendCall.prepare, sendTransactionByMnemonic, sampleInput, Web3.toWei_one,
    Option.bind_eq_bind, Option.bind_some, Option.pure_def]
  rfl

theorem run_sampleInput (es : List Event) :
    (SendCall.sendTransactionByMnemonic sampleInput "k" "s").run sampleWeb3 es =
      run (step samplePrepared) .start es := by
  rw [SendCall.run, prepare_sampleInput]

theorem movesNoFunds_passed :
    MovesNoFunds [.checkResolved true, .signResolved "raw", .transactionHash "0xh"]
      ⟨.submitted, some (.ok "0xh"), [(samplePrepared.params, "k")], ["raw"]⟩ :=
  (movesNoFunds_iff sampleWeb3 (.sendTransactionByMnemonic sampleInput "k" "s") _ _
    (by rw [run_sampleInput]; rfl)).mpr (by decide)

/-- The balance check fails, the promise rejects, and the transfer is submitted. -/
theorem refused_send_moves_funds :
    ∃ f, (SendCall.sendTransactionByMnemonic sampleInput "k" "s").run sampleWeb3
      [.checkResolved false, .signResolved "raw", .transactionHash "0xh"] = some f ∧
        f.settled = some (.error "您的以太坊量不足") ∧ f.sent = ["raw"] ∧
        ¬ MovesNoFunds [.checkResolved false, .signResolved "raw", .transactionHash "0xh"] f := by
  refine ⟨⟨.submitted, some (.error "您的以太坊量不足"), [(samplePrepared.params, "k")], ["raw"]⟩,
    ?_, rfl, rfl, fun hm => ?_⟩
  · rw [run_sampleInput]
    rfl
  · have hsent := (hm.refused List.mem_cons_self).2.2
    cases hsent

end OlsDapp.Client
