import OlsDapp.Handler.ExactCredit
import OlsDapp.Handler.Provenance

/-!
# What is drawn on a wallet

`processReceivedEthOrToken` takes the branch of a transfer only when the first one has refused a
log from the manager, so the wallet it draws on is the one of the manager's own address. Every
save of another wallet writes the draw column back, whatever else it writes and however old the
row is that it was computed from.
-/

namespace OlsDapp.Handler

open Lib (Row Table)
open Lib.Machine (run)

section Definitions

/-- `addUserDrawCoin` was called for the wallet. -/
def DrawnOn (u : Nat) (history : List Note) : Prop :=
  ∃ data amount, .addUserDrawCoin data u amount ∈ history

/-- The wallet and every copy of it in flight have `d` drawn, and nothing is being drawn. -/
structure Undrawn (u : Nat) (d : Amount) (s : Sys) : Prop where
  table : ∀ row ∈ s.db.uOlsWallet.rows, row.id = u → row.val.draw_amount = d
  held : ∀ e ∈ s.effects, ∀ user, e.pc.user = some user → user.id = u →
    user.val.draw_amount = d
  idle : ∀ e ∈ s.effects, ∀ user amount, e.pc = .addUserDrawCoin user amount → user.id ≠ u

end Definitions

section Undrawn

variable {u : Nat} {d : Amount} {cfg : Config} {env : Env} {db : Db} {s s' : Sys} {l : Label}
  {e : Effect} {o : Outcome}

theorem addUserCoin_draw_amount (w : UOlsWallet) (type : TxType) (amount : Amount) :
    (addUserCoin w type amount).draw_amount = w.draw_amount := by
  unfold addUserCoin
  split <;> rfl

/-- A wallet is stored with the draw column it had, where MySQL keeps that as it is. -/
theorem stored_draw_amount {w stored : UOlsWallet} (hkept : env.double d = some d)
    (hw : w.draw_amount = d) (h : w.stored env = some stored) : stored.draw_amount = d := by
  obtain ⟨a, c, d', _, _, hd, rfl⟩ := stored_eq_some.mp h
  rw [hw, hkept] at hd
  exact (Option.some.inj hd).symm

theorem DrawnOn.append {history : List Note} (h : DrawnOn u history) (notes : List Note) :
    DrawnOn u (notes ++ history) := by
  obtain ⟨data, amount, hmem⟩ := h
  exact ⟨data, amount, List.mem_append_right _ hmem⟩

/-- The step of an effect draws on the wallet, or leaves it and its copies as they are. -/
theorem Resumes.undrawn (h : Resumes env db e o) (hkept : env.double d = some d)
    (htable : ∀ row ∈ db.uOlsWallet.rows, row.id = u → row.val.draw_amount = d)
    (hheld : ∀ user, e.pc.user = some user → user.id = u → user.val.draw_amount = d)
    (hidle : ∀ user amount, e.pc = .addUserDrawCoin user amount → user.id ≠ u) :
    DrawnOn u o.notes ∨
      (∀ row ∈ o.db.uOlsWallet.rows, row.id = u → row.val.draw_amount = d) ∧
        ∀ pc ∈ o.next, (∀ user, pc.user = some user → user.id = u → user.val.draw_amount = d) ∧
          ∀ user amount, pc = .addUserDrawCoin user amount → user.id ≠ u := by
  have hnone {pc : EffectPc} (huser : pc.user = none) :
      (∀ user, pc.user = some user → user.id = u → user.val.draw_amount = d) ∧
        ∀ user amount, pc = .addUserDrawCoin user amount → user.id ≠ u := by
    refine ⟨fun user hc => ?_, fun user amount hc => ?_⟩
    · rw [huser] at hc
      cases hc
    · rw [hc] at huser
      cases huser
  have hsaved {user : Row UOlsWallet} {stored : UOlsWallet}
      (hstored : user.id = u → stored.draw_amount = d) :
      ∀ row ∈ (db.uOlsWallet.save ⟨user.id, stored⟩).rows, row.id = u →
        row.val.draw_amount = d := by
    intro row hrow hid
    rcases Table.mem_save hrow with rfl | ⟨hrow, _⟩
    · exact hstored hid
    · exact htable row hrow hid
  cases h with
  | stops => exact Or.inr ⟨htable, List.forall_mem_nil _⟩
  | routes manager pc at_ found routed =>
    refine Or.inr ⟨htable, List.forall_mem_singleton.mpr (hnone ?_)⟩
    rcases route_cases routed with rfl | rfl | rfl <;> rfl
  | charges user at_ confirmed found =>
    refine Or.inr ⟨htable, List.forall_mem_cons.mpr ⟨⟨fun user' huser' hid => ?_,
      fun _ _ hc => (by cases hc)⟩, List.forall_mem_singleton.mpr (hnone rfl)⟩⟩
    obtain rfl := Option.some.inj huser'
    exact htable user (Table.mem_of_findOne found).1 hid
  | credits user amount stored at_ kept =>
    refine Or.inr ⟨hsaved fun hid => ?_, List.forall_mem_nil _⟩
    refine stored_draw_amount hkept ?_ kept
    rw [addUserCoin_draw_amount]
    exact hheld user (by rw [at_]; rfl) hid
  | deposits newTx row at_ kept => exact Or.inr ⟨htable, List.forall_mem_nil _⟩
  | transfers user at_ confirmed found =>
    by_cases hid : user.id = u
    · subst hid
      exact Or.inl ⟨e.data, e.tx.val.coins, List.mem_singleton.mpr rfl⟩
    · refine Or.inr ⟨htable, List.forall_mem_singleton.mpr ⟨fun user' huser' hid' => ?_,
        fun user' amount hc => ?_⟩⟩
      · obtain rfl := Option.some.inj huser'
        exact absurd hid' hid
      · obtain ⟨rfl, _⟩ := EffectPc.addUserDrawCoin.inj hc
        exact hid
  | draws user amount stored at_ kept =>
    exact Or.inr ⟨hsaved fun hid => absurd hid (hidle user amount at_), List.forall_mem_nil _⟩
  | withdraws record at_ confirmed found =>
    exact Or.inr ⟨htable, List.forall_mem_singleton.mpr (hnone rfl)⟩
  | refuses record at_ confirmed found =>
    exact Or.inr ⟨htable, List.forall_mem_singleton.mpr (hnone rfl)⟩
  | looksUp record at_ => exact Or.inr ⟨htable, List.forall_mem_singleton.mpr (hnone rfl)⟩
  | settles record at_ => exact Or.inr ⟨htable, List.forall_mem_nil _⟩

theorem undrawn_start {redis : Option Nat}
    (h : ∀ row ∈ db.uOlsWallet.rows, row.id = u → row.val.draw_amount = d) :
    Undrawn u d (Sys.start db redis) :=
  ⟨h, fun _ he => absurd he List.not_mem_nil, fun _ he => absurd he List.not_mem_nil⟩

/-- Only the step of an effect writes a wallet, and it is the one that reads it, too. -/
theorem undrawn_step (hkept : env.double d = some d) (h : Undrawn u d s)
    (hstep : step cfg env s l = some s') (hdrawn : ¬ DrawnOn u s'.history) :
    Undrawn u d s' := by
  have hresumes (e : Effect) (he : e ∈ s.effects) (hl : l = .effect e) :
      (∀ row ∈ (e.resume env s.db).db.uOlsWallet.rows, row.id = u → row.val.draw_amount = d) ∧
        ∀ pc ∈ (e.resume env s.db).next,
          (∀ user, pc.user = some user → user.id = u → user.val.draw_amount = d) ∧
            ∀ user amount, pc = .addUserDrawCoin user amount → user.id ≠ u := by
    refine ((resumes env s.db e).undrawn hkept h.table (h.held e he) (h.idle e he)).resolve_left ?_
    rintro ⟨data, amount, hmem⟩
    refine hdrawn ⟨data, amount, ?_⟩
    rw [effect_history (hl ▸ hstep)]
    exact List.mem_append_left _ hmem
  have hheld : ∀ e ∈ s'.effects,
      (∀ user, e.pc.user = some user → user.id = u → user.val.draw_amount = d) ∧
        ∀ user amount, e.pc = .addUserDrawCoin user amount → user.id ≠ u := by
    intro e he
    rcases effect_from hstep he with hold | hnew | ⟨e₁, he₁, hl, pc, hpc, rfl⟩
    · exact ⟨h.held e hold, h.idle e hold⟩
    · rw [hnew]
      exact ⟨fun _ hc => (by cases hc), fun _ _ hc => (by cases hc)⟩
    · exact (hresumes e₁ he₁ hl).2 pc hpc
  refine ⟨?_, fun e he => (hheld e he).1, fun e he => (hheld e he).2⟩
  rcases step_db hstep with db | ⟨save, db⟩ | ⟨e, he, hl, db⟩ | ⟨_, _, _, _, _, db⟩
  · rw [db]
    exact h.table
  · rw [db, (run_frame save s.db).1]
    exact h.table
  · rw [db]
    exact (hresumes e he hl).1
  · rw [db]
    exact h.table

/-- Until the wallet is drawn on, every state of the run has the column as it was. -/
theorem undrawn_run {redis : Option Nat} {ms : List Move}
    (hkept : ∀ m ∈ ms, m.env.double d = some d)
    (hstart : ∀ row ∈ db.uOlsWallet.rows, row.id = u → row.val.draw_amount = d)
    (hrun : run (next cfg) (Sys.start db redis) ms = some s) :
    DrawnOn u s.history ∨ Undrawn u d s := by
  refine Lib.Machine.run_induction_mem (P := fun s => DrawnOn u s.history ∨ Undrawn u d s)
    (fun s m s' hs hdouble hstep => ?_) (Or.inr (undrawn_start hstart)) hkept hrun
  by_cases hdrawn : DrawnOn u s'.history
  · exact Or.inl hdrawn
  · rcases hs with ⟨data, amount, hmem⟩ | hs
    · exact absurd ⟨data, amount, history_subset hstep hmem⟩ hdrawn
    · exact Or.inr (undrawn_step hdouble hs hstep hdrawn)

end Undrawn

/-- In every run, whatever interleaves, fails or crashes and however the saves of a wallet overwrite
each other: the draw column of a wallet keeps what it held, unless the handler was given a log in
which the manager pays itself, with a receipt of success, and the wallet has the manager's own
address. What a user pays the manager is never booked there. -/
theorem draw_amount_stays (cfg : Config) (db : Db) (redis : Option Nat) (ms : List Move) (s : Sys)
    (u : Nat) (d : Amount) (hkept : ∀ m ∈ ms, m.env.double d = some d)
    (hstart : ∀ row ∈ db.uOlsWallet.rows, row.id = u → row.val.draw_amount = d)
    (hrun : run (next cfg) (Sys.start db redis) ms = some s) :
    (∀ row ∈ s.db.uOlsWallet.rows, row.id = u → row.val.draw_amount = d) ∨
      ∃ data : TransferEvent, data.Attested (Heard ms) (GivenIn ms) .confirmed ∧
        db.managerAddress = some data.from_ ∧ data.to_ = data.from_ ∧
          db.owner data.from_ = some u := by
  rcases undrawn_run hkept hstart hrun with ⟨data, amount, hmem⟩ | h
  · have hms : ∀ m ∈ ms, (∀ data ∈ m.label.logs, Heard ms data) ∧ m.env.Gives (GivenIn ms) :=
      fun m hm => ⟨fun data hdata => ⟨m, hm, hdata⟩, fun hash receipt h => ⟨m, hm, h⟩⟩
    obtain ⟨hattested, ⟨hmanager, hself⟩, howner, _⟩ := (vouches_run hms hrun).notes _ hmem
    exact Or.inr ⟨data, hattested, hmanager, hself, howner⟩
  · exact Or.inl h.table

section Samples

theorem draw_amount_stays_credited :
    ∃ s, run (next sampleConfig) (Sys.start sampleDb none) sampleCredited = some s ∧
      .credited sampleLog 1 (.num 1) ∈ s.history ∧
        ((∀ row ∈ s.db.uOlsWallet.rows, row.id = 1 → row.val.draw_amount = .num 0) ∨
          ∃ data : TransferEvent,
            data.Attested (Heard sampleCredited) (GivenIn sampleCredited) .confirmed ∧
            sampleDb.managerAddress = some data.from_ ∧ data.to_ = data.from_ ∧
              sampleDb.owner data.from_ = some 1) := by
  have h : (run (next sampleConfig) (Sys.start sampleDb none) sampleCredited).any
      (fun s => .credited sampleLog 1 (.num 1) ∈ s.history) = true := by
    decide +kernel
  obtain ⟨s, hs, hp⟩ := (Option.any_eq_true _ _).mp h
  refine ⟨s, hs, of_decide_eq_true hp, draw_amount_stays sampleConfig sampleDb none sampleCredited
    s 1 (.num 0) (fun m hm => ?_) (fun row hrow _ => ?_) hs⟩
  · obtain ⟨l, _, rfl⟩ := List.mem_map.mp hm
    rfl
  · obtain rfl : row = sampleUser := List.mem_singleton.mp hrow
    rfl

end Samples

end OlsDapp.Handler
