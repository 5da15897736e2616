import OlsDapp.Handler.Settled
import OlsDapp.Handler.Wallet

/-!
# Deposits across a crash

A crash keeps the database and the cursor. A deposit whose row is settled is never handled
again, so it must not lose its effect before the wallet is saved. In every run in which it
does not, a settled deposit is credited or its effect is still on its way, and a scan that
has the log in its window leaves it settled.
-/

namespace OlsDapp.Handler

open Lib (Row Table)
open Lib.Machine (run Along)

section Definitions

variable (e : TransferEvent) (k : Nat)

/-- The effect has not yet saved the wallet. -/
def EffectPc.uncredited : EffectPc → Bool
  | .manager => true
  | .charge => true
  | .addUserCoin _ _ => true
  | _ => false

/-- An effect that has still to credit the log. -/
def Effect.due (e' : Effect) : Bool := decide (e'.data.SameKey e) && e'.pc.uncredited

/-- Wallet `k` was saved for the log, with the log's own value. -/
def Note.creditedTo : Note → Bool
  | .credited data user amount =>
    data.SameKey e ∧ data.logIndex = e.logIndex ∧ user = k ∧ amount = .num (fromWei e.value)
  | _ => false

def Sys.creditedTo (s : Sys) : Bool := s.history.any (Note.creditedTo e k)

/-- The columns take the wallet the effect saves. -/
def Effect.kept (env : Env) (e' : Effect) : Bool :=
  match e'.pc with
  | .addUserCoin user amount => ((addUserCoin user.val e'.tx.val.type amount).stored env).isSome
  | _ => true

/-- Unless the log has been credited before, no crash, failure or refused save takes away an
effect that has still to credit it. -/
def Uninterrupted (s : Sys) (m : Move) : Prop :=
  s.creditedTo e k = true ∨
    Spares (Effect.due e) (fun e' => e'.due e = true → e'.kept m.env = true) s m.label

instance (s : Sys) (m : Move) : Decidable (Uninterrupted e k s m) :=
  inferInstanceAs (Decidable (_ ∨ Spares _ _ s m.label))

def Owed (s : Sys) : Prop :=
  s.creditedTo e k = true ∨ ∃ e' ∈ s.effects, e'.due e = true

/-- The transaction of the log has succeeded. -/
def SucceededReceipts : Receipts := fun hash receipt => hash = e.transactionHash → receipt = ⟨true⟩

/-- A log of the same key is the same log. -/
def OnlyLog (data : TransferEvent) : Prop :=
  data.SameKey e → data.logIndex = e.logIndex ∧ data.value = e.value

def OwnValue (tx : Transaction) : Prop :=
  e.matches tx = true → tx.tokenAmount = .num (fromWei e.value)

/-- What an effect of the log holds is its wallet and its value. -/
def Priced (s : Sys) : Prop :=
  ∀ e' ∈ s.effects, e'.data.SameKey e → ∀ user amount, e'.pc = .addUserCoin user amount →
    user.id = k ∧ amount = .num (fromWei e.value)

structure Restores (db₀ : Db) (s : Sys) : Prop where
  sound : s.Sound (SucceededReceipts e)
  everywhere : Everywhere (OnlyLog e) (OwnValue e) s
  addressed : Addressed db₀ s
  priced : Priced e k s
  owed : Settled e s → Owed e k s

end Definitions

section Effects

variable {cfg : Config} {env : Env} {db₀ : Db} {e : TransferEvent} {user : Row UOlsWallet}
  {s s' : Sys} {e' : Effect}

theorem route_charge {managerAddress : String} {tx : Transaction}
    (h : tx.from_ ≠ managerAddress) : route managerAddress tx = some .charge := by
  unfold route checkMemberAddress
  rw [if_pos ⟨rfl, h⟩]

/-- The wallet of the log is still found by its address. -/
theorem found_wallet (hdep : DepositTo db₀ e user) (h : Addressed db₀ s) :
    ∃ user', user'.id = user.id ∧
      s.db.uOlsWallet.findOne (fun w => w.eth_address = some e.to_) = some user' := by
  have hid := findOne_address h.addresses e.to_
  rw [hdep.2, Option.map_some, Option.map_eq_some_iff] at hid
  obtain ⟨user', huser', heq⟩ := hid
  exact ⟨user', heq, huser'⟩

theorem confirmed_of_sound (h : e'.Sound (SucceededReceipts e)) (hkey : e'.data.SameKey e) :
    e'.tx.val.status = .confirmed := by
  obtain ⟨receipt, hreceipt, hst⟩ := h.receipt
  rw [hst, hreceipt hkey.1]
  rfl

/-- The row of an effect of the log has the log's addresses, type and value. -/
theorem tx_of_sound (h : e'.Sound (SucceededReceipts e)) (hkey : e'.data.SameKey e)
    (hown : OwnValue e e'.tx.val) :
    e'.tx.val.from_ = e.from_ ∧ e'.tx.val.to_ = e.to_ ∧
      e'.tx.val.coins = .num (fromWei e.value) := by
  have hm := h.row
  rw [hkey.matches_eq] at hm
  obtain ⟨_, htype, hfrom, hto⟩ := matches_iff.mp hm
  refine ⟨hfrom, hto, ?_⟩
  unfold Transaction.coins checkTokenTransfer
  rw [htype, if_pos (by decide)]
  exact hown hm

/-- An effect that has still to credit the log does so in its step, or goes on. -/
theorem due_resume (hdep : DepositTo db₀ e user) (h : Restores e user.id db₀ s)
    (he : e' ∈ s.effects) (hdue : e'.due e = true) (hkept : e'.kept env = true) :
    (∃ pc ∈ (e'.resume env s.db).next, pc.uncredited = true) ∨
      ∃ n ∈ (e'.resume env s.db).notes, n.creditedTo e user.id = true := by
  unfold Effect.due at hdue
  rw [Bool.and_eq_true, decide_eq_true_eq] at hdue
  obtain ⟨hkey, hpc⟩ := hdue
  have hsound := h.sound.effects e' he
  obtain ⟨honly, hown⟩ := h.everywhere.effects e' he
  obtain ⟨hfrom, hto, hcoins⟩ := tx_of_sound hsound hkey hown
  unfold EffectPc.uncredited at hpc
  split at hpc
  · next hpc' =>
    left
    obtain ⟨⟨manager, hmanager, hne⟩, _⟩ := hdep
    rw [← hfrom] at hne
    refine ⟨.charge, ?_, rfl⟩
    simp only [Effect.resume, hpc', h.addressed.manager, hmanager, route_charge hne]
    exact List.mem_cons_self
  · next hpc' =>
    left
    obtain ⟨user', _, huser'⟩ := found_wallet hdep h.addressed
    refine ⟨.addUserCoin user' e'.tx.val.coins, ?_, rfl⟩
    simp only [Effect.resume, hpc', confirmed_of_sound hsound hkey, hto, huser', if_true]
    exact List.mem_cons_self
  · next user' amount hpc' =>
    right
    obtain ⟨hid, hamount⟩ := h.priced e' he hkey user' amount hpc'
    unfold Effect.kept at hkept
    rw [hpc'] at hkept
    obtain ⟨stored, hstored⟩ := Option.isSome_iff_exists.mp hkept
    have hsave : saveWallet env s.db ⟨user'.id, addUserCoin user'.val e'.tx.val.type amount⟩ = _ :=
      saveWallet_eq_some.mpr ⟨stored, hstored, rfl⟩
    refine ⟨.credited e'.data user'.id amount, ?_, ?_⟩
    · simp only [Effect.resume, hpc', hsave]
      exact List.mem_cons_self
    · obtain ⟨hindex, _⟩ := honly hkey
      simp only [Note.creditedTo, hkey, hindex, hid, hamount, and_self, decide_true]
  · cases hpc

theorem owed_of_history {k : Nat} (hhistory : s.history ⊆ s'.history)
    (h : s.creditedTo e k = true) : s'.creditedTo e k = true := by
  obtain ⟨n, hn, hcredit⟩ := List.any_eq_true.mp h
  exact List.any_eq_true.mpr ⟨n, hhistory hn, hcredit⟩

end Effects

section Steps

variable {cfg : Config} {env : Env} {db₀ : Db} {e : TransferEvent} {k : Nat}
  {user : Row UOlsWallet} {s s' : Sys} {l : Label}

/-- What is owed stays owed until it is credited. -/
theorem owed_step (hdep : DepositTo db₀ e user) (h : Restores e user.id db₀ s)
    (hg : Uninterrupted e user.id s ⟨env, l⟩) (hstep : step cfg env s l = some s')
    (howed : Owed e user.id s) : Owed e user.id s' := by
  by_cases hcredited : s.creditedTo e user.id = true
  · exact Or.inl (owed_of_history (history_subset hstep) hcredited)
  obtain ⟨e', he', hdue⟩ := howed.resolve_left hcredited
  rcases due_step hstep (hg.resolve_left hcredited) he' hdue with
    hstays | ⟨hkept, _, hnext, hnotes⟩
  · exact Or.inr ⟨e', hstays, hdue⟩
  · rcases due_resume hdep h he' hdue (hkept hdue) with ⟨pc, hpc, hun⟩ | ⟨n, hn, hcredit⟩
    · right
      refine ⟨{ e' with pc }, hnext pc hpc, ?_⟩
      unfold Effect.due at hdue ⊢
      rw [Bool.and_eq_true] at hdue ⊢
      exact ⟨hdue.1, hun⟩
    · left
      exact List.any_eq_true.mpr ⟨n, hnotes n hn, hcredit⟩

/-- An effect of the log reads its wallet, and takes the log's value from its row. -/
theorem priced_step (hdep : DepositTo db₀ e user) (h : Restores e user.id db₀ s)
    (hstep : step cfg env s l = some s') : Priced e user.id s' := by
  intro e' he' hkey user' amount hpc'
  rcases effect_from hstep he' with hold | hnew | ⟨e₁, he₁, _, pc, hmem, rfl⟩
  · exact h.priced e' hold hkey user' amount hpc'
  · rw [hnew] at hpc'
    cases hpc'
  · obtain rfl : pc = .addUserCoin user' amount := hpc'
    have hres := resumes env s.db e₁
    generalize e₁.resume env s.db = o at hmem hres
    cases hres with
    | charges user₁ at_ confirmed found =>
      obtain ⟨_, hown⟩ := h.everywhere.effects e₁ he₁
      obtain ⟨_, hto, hcoins⟩ := tx_of_sound (h.sound.effects e₁ he₁) hkey hown
      obtain ⟨user₂, hid, huser₂⟩ := found_wallet hdep h.addressed
      rw [hto, huser₂] at found
      obtain rfl := Option.some.inj found
      rcases List.mem_cons.mp hmem with hmem | hmem
      · obtain ⟨rfl, rfl⟩ := EffectPc.addUserCoin.inj hmem
        exact ⟨hid, hcoins⟩
      · cases List.mem_singleton.mp hmem
    | routes manager pc at_ found routed =>
      obtain rfl := List.mem_singleton.mp hmem
      rcases route_cases routed with hc | hc | hc <;> cases hc
    | transfers => cases List.mem_singleton.mp hmem
    | withdraws => cases List.mem_singleton.mp hmem
    | refuses => cases List.mem_singleton.mp hmem
    | looksUp => cases List.mem_singleton.mp hmem
    | stops => exact absurd hmem List.not_mem_nil
    | credits => exact absurd hmem List.not_mem_nil
    | deposits => exact absurd hmem List.not_mem_nil
    | draws => exact absurd hmem List.not_mem_nil
    | settles => exact absurd hmem List.not_mem_nil

theorem restores_step (hdep : DepositTo db₀ e user)
    (hreceipt : (⟨env, l⟩ : Move).Gives e.transactionHash ⟨true⟩)
    (hlogs : ∀ data ∈ l.logs, OnlyLog e data) (h : Restores e user.id db₀ s)
    (hg : Uninterrupted e user.id s ⟨env, l⟩) (hstep : step cfg env s l = some s') :
    Restores e user.id db₀ s' := by
  have henv : env.Gives (SucceededReceipts e) := by
    intro hash receipt hgives hhash
    rw [hhash] at hgives
    exact hreceipt.eq hgives
  refine ⟨sound_step henv h.sound hstep, everywhere_step hlogs ?_ (fun _ _ hp => hp) h.everywhere
    hstep, addressed_step h.addressed hstep, priced_step hdep h hstep, fun hsettled => ?_⟩
  · intro data hdata receipt hm
    have hkey := sameKey_of_matches (matches_transformed env receipt) hm
    show Amount.num (fromWei data.value) = _
    rw [(hdata hkey).2]
  · rcases settled_step h.sound (fun r hl => hreceipt.ne_none hl) hstep hsettled with hold | hnew
    · exact owed_step hdep h hg hstep (h.owed hold)
    · obtain ⟨data, tx, hkey, hmem⟩ := hnew
      right
      refine ⟨_, hmem, ?_⟩
      simp only [Effect.due, hkey, EffectPc.uncredited, decide_true, Bool.and_self]

end Steps

/-- In every run, whatever crashes it has: a deposit in the window of a scan that has ended is
credited with its own value once no effect is due for it, if no effect for it was lost between
its row and its wallet and no other log has its transaction and addresses. -/
theorem no_deposit_lost (cfg : Config) (db : Db) (redis : Option Nat) (e : TransferEvent)
    (user : Row UOlsWallet) (hdep : DepositTo db e user)
    (hrows : ∀ row ∈ db.transaction.rows, e.matches row.val = true →
      row.val.status = .pending ∧ row.val.tokenAmount = .num (fromWei e.value))
    (ms : List Move)
    (hreceipt : ∀ m ∈ ms, m.Gives e.transactionHash ⟨true⟩)
    (honly : ∀ m ∈ ms, ∀ data ∈ m.label.logs, data.SameKey e →
      data.logIndex = e.logIndex ∧ data.value = e.value)
    (s : Sys) (hrun : run (next cfg) (Sys.start db redis) ms = some s)
    (hkeeps : Along (next cfg) (Uninterrupted e user.id) (Sys.start db redis) ms)
    (c : Nat) (evs : List TransferEvent) (hscan : .lastCheckedBlock c evs ∈ s.history)
    (he : e ∈ evs) (hdone : ∀ e' ∈ s.effects, e'.due e = false) :
    ∃ data, data.SameKey e ∧ data.logIndex = e.logIndex ∧
      .credited data user.id (.num (fromWei e.value)) ∈ s.history := by
  have hstart : Restores e user.id db (Sys.start db redis) := by
    refine ⟨sound_start _ db redis, everywhere_start redis fun row hrow hm => (hrows row hrow hm).2,
      addressed_start db redis, fun _ h => absurd h List.not_mem_nil, fun h => ?_⟩
    exact absurd h (settled_start redis fun row hrow hm => (hrows row hrow hm).1)
  have hms : ∀ m ∈ ms, m.Gives e.transactionHash ⟨true⟩ ∧
      ∀ data ∈ m.label.logs, OnlyLog e data := fun m hm => ⟨hreceipt m hm, honly m hm⟩
  obtain ⟨hrestores, hands⟩ := Lib.Machine.run_induction
    (P := fun s => Restores e user.id db s ∧ HandsOver s)
    (fun s m s' hs hg hstep => by
      obtain ⟨⟨hreceipt, hlogs⟩, hkeeps⟩ := hg
      exact ⟨restores_step hdep hreceipt hlogs hs.1 hkeeps hstep, handsOver_step hs.2 hstep⟩)
    ⟨hstart, handsOver_start db redis⟩ (Lib.Machine.along_and_mem hms hkeeps) hrun
  rcases hrestores.owed (settled_of_scan hands hscan he) with hcredited | ⟨e', he', hdue⟩
  · obtain ⟨n, hn, hcredit⟩ := List.any_eq_true.mp hcredited
    cases n with
    | credited data user' amount =>
      simp only [Note.creditedTo, decide_eq_true_eq] at hcredit
      obtain ⟨hkey, hindex, rfl, rfl⟩ := hcredit
      exact ⟨data, hkey, hindex, hn⟩
    | _ => cases hcredit
  · rw [hdone e' he'] at hdue
    cases hdue

section Samples

/-- The process stops before the row is saved, and the rescan does all the work. -/
def sampleHarmlessCrash : List Move :=
  sampleMoves ([.deliver sampleLog, .run ⟨sampleLog, false, .findOne⟩, .crash] ++
    sampleScanTo 9 sampleLog ++ [.redisSet] ++ sampleReads sampleLog 1 ++
    sampleSaves sampleLog 1 sampleUser)

theorem no_deposit_lost_harmless :
    ∃ s, run (next sampleConfig) (Sys.start sampleDb none) sampleHarmlessCrash = some s ∧
      ∃ data, data.SameKey sampleLog ∧ data.logIndex = 0 ∧
        .credited data 1 (.num (fromWei (10 ^ 18))) ∈ s.history := by
  have h : (run (next sampleConfig) (Sys.start sampleDb none) sampleHarmlessCrash).any
      (fun s => .lastCheckedBlock 9 [sampleLog] ∈ s.history ∧
        ∀ e' ∈ s.effects, e'.due sampleLog = false) = true := by
    decide +kernel
  have hkeeps : Along (next sampleConfig) (Uninterrupted sampleLog 1) (Sys.start sampleDb none)
      sampleHarmlessCrash := by
    decide +kernel
  have hlogs : ∀ m ∈ sampleHarmlessCrash, ∀ data ∈ m.label.logs, data = sampleLog := by
    decide +kernel
  have hreceipt : ∀ m ∈ sampleHarmlessCrash, m.Gives sampleLog.transactionHash ⟨true⟩ := by
    intro m hm
    obtain ⟨l, _, rfl⟩ := List.mem_map.mp hm
    exact Or.inl rfl
  obtain ⟨s, hs, hp⟩ := (Option.any_eq_true _ _).mp h
  obtain ⟨hscan, hdone⟩ := of_decide_eq_true hp
  refine ⟨s, hs, no_deposit_lost sampleConfig sampleDb none sampleLog sampleUser
    ⟨⟨⟨1, ⟨"m"⟩⟩, rfl, by decide⟩, rfl⟩ (List.forall_mem_nil _) sampleHarmlessCrash hreceipt ?_ s hs
    hkeeps 9 [sampleLog] hscan List.mem_cons_self hdone⟩
  intro m hm data hdata _
  rw [hlogs m hm data hdata]
  exact ⟨rfl, rfl⟩

/-- The process stops between the save of the row and the save of the wallet; the rescan finds
the row settled. -/
def sampleFatalCrash : List Move :=
  sampleMoves (sampleScanTo 9 sampleLog ++ [.crash] ++ sampleRescan 9 sampleLog)

/-- The deposit is in the window of the rescan, nothing is left to do, and the wallet is as it
was at first. -/
theorem crash_loses_a_deposit :
    ∃ s, run (next sampleConfig) (Sys.start sampleDb none) sampleFatalCrash = some s ∧
      DepositTo sampleDb sampleLog sampleUser ∧
      .lastCheckedBlock 9 [sampleLog] ∈ s.history ∧ s.effects = [] ∧
      (∀ data, ∀ amount, .credited data 1 amount ∉ s.history) ∧
      s.db.uOlsWallet.findById 1 = some sampleUser := by
  have h : (run (next sampleConfig) (Sys.start sampleDb none) sampleFatalCrash).any
      (fun s => .lastCheckedBlock 9 [sampleLog] ∈ s.history ∧ s.effects = [] ∧
        s.history = [.lastCheckedBlock 9 [sampleLog], .handled sampleLog, .handled sampleLog,
          .processReceivedEthOrToken sampleLog (sampleTx sampleLog 1)] ∧
        s.db.uOlsWallet.findById 1 = some sampleUser) = true := by
    decide +kernel
  obtain ⟨s, hs, hp⟩ := (Option.any_eq_true _ _).mp h
  obtain ⟨hscan, heffects, hhistory, huser⟩ := of_decide_eq_true hp
  refine ⟨s, hs, ⟨⟨⟨1, ⟨"m"⟩⟩, rfl, by decide⟩, rfl⟩, hscan, heffects, ?_, huser⟩
  intro data amount hmem
  rw [hhistory] at hmem
  simp only [List.mem_cons, List.not_mem_nil, reduceCtorEq, or_self] at hmem

end Samples

end OlsDapp.Handler
