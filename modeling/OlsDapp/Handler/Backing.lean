import OlsDapp.Handler.ExactCredit
import OlsDapp.Handler.Provenance
import OlsDapp.Lib.Tally

/-!
# A stored balance is covered by the calls that raised it

Both deposit columns of a wallet are written by whole-row saves of rows read some time before,
so a save may undo another one. It never makes up money: each save writes at most what was read
and the amount of its own call, and what was read was covered already. Rounding adds at most the
error of the column for each call.
-/

namespace OlsDapp.Handler

open Lib (Row Table)
open Lib.Machine (run Along)

section Definitions

/-- A numeric column of MySQL that is off by at most `ε`. -/
structure Column (double : Amount → Option Amount) (ε : ℚ) : Prop where
  error : 0 ≤ ε
  /-- What is stored is written back as it is. -/
  kept : ∀ a b, double a = some b → double b = some b
  null : ∀ b, double .null = some b → b = .null
  nan : ∀ b, double .nan = some b → b = .num 0
  num : ∀ x b, 0 ≤ x → double (.num x) = some b → ∃ y, b = .num y ∧ 0 ≤ y ∧ y ≤ x + ε

/-- The two columns `addUserCoin` raises. -/
inductive Book where
  | amount
  | charge_amount
  deriving DecidableEq

def Book.of : Book → UOlsWallet → Amount
  | .amount, w => w.amount
  | .charge_amount, w => w.charge_amount

/-- What a call of `addUserCoin` for the wallet may add. -/
def Note.worth (ε : ℚ) (u : Nat) : Note → ℚ
  | .addUserCoin _ user (.num a) => if user = u then max a 0 + ε else 0
  | _ => 0

def called (ε : ℚ) (u : Nat) (history : List Note) : ℚ := (history.map (Note.worth ε u)).sum

/-- The column holds a number from zero to the bound, as MySQL keeps it. -/
def Holds (double : Amount → Option Amount) (b : Book) (bound : ℚ) (w : UOlsWallet) : Prop :=
  double (b.of w) = some (b.of w) ∧ ∃ x, (b.of w).value = some x ∧ 0 ≤ x ∧ x ≤ bound

/-- The wallet of the table, and every copy of it in flight, is covered; a copy about to be
credited is covered with its amount. -/
structure Covered (double : Amount → Option Amount) (ε : ℚ) (b : Book) (u : Nat) (x₀ : ℚ)
    (s : Sys) : Prop where
  table : ∀ row ∈ s.db.uOlsWallet.rows, row.id = u →
    Holds double b (x₀ + called ε u s.history) row.val
  held : ∀ e ∈ s.effects, ∀ user, e.pc.user = some user → user.id = u →
    Holds double b (x₀ + called ε u s.history) user.val
  owed : ∀ e ∈ s.effects, ∀ user amount, e.pc = .addUserCoin user amount → user.id = u →
    ∀ a, amount = .num a → 0 ≤ a ∧ ∀ x, (b.of user.val).value = some x →
      x + a + ε ≤ x₀ + called ε u s.history

end Definitions

section Columns

variable {double : Amount → Option Amount} {ε : ℚ} {b : Book} {env : Env} {w stored : UOlsWallet}
  {bound bound' : ℚ}

theorem Holds.mono (h : Holds double b bound w) (hle : bound ≤ bound') :
    Holds double b bound' w := by
  obtain ⟨hkept, x, hx, hnonneg, hbound⟩ := h
  exact ⟨hkept, x, hx, hnonneg, hbound.trans hle⟩

theorem of_addUserCoin (b : Book) (w : UOlsWallet) (amount : Amount) :
    b.of (addUserCoin w .ols amount) =
      ((parseFloat (b.of w)).add (parseFloat amount)).toAmount := by
  cases b <;> rfl

theorem of_addUserDrawCoin (b : Book) (w : UOlsWallet) (type : TxType) (amount : Amount) :
    b.of (addUserDrawCoin w type amount) = b.of w := by
  unfold addUserDrawCoin
  cases b
  · split <;> rfl
  · split <;> rfl

theorem of_stored (b : Book) (h : w.stored env = some stored) :
    env.double (b.of w) = some (b.of stored) := by
  obtain ⟨a, c, d, ha, hc, _, rfl⟩ := stored_eq_some.mp h
  cases b
  · exact ha
  · exact hc

/-- The sum with what is no number is no number, and MySQL stores zero for it or nothing. -/
theorem holds_zero (hcolumn : Column double ε) (hbound : 0 ≤ bound)
    (h : double .nan = some (b.of stored)) : Holds double b bound stored := by
  have hzero := hcolumn.nan _ h
  refine ⟨hcolumn.kept _ _ h, 0, ?_, le_refl 0, hbound⟩
  rw [hzero]
  rfl

/-- The row a credit stores is covered when the row it read was, with the amount. -/
theorem holds_credit (hcolumn : Column double ε) (hdouble : env.double = double)
    {amount : Amount} (hw : Holds double b bound w)
    (howed : ∀ a, amount = .num a → 0 ≤ a ∧ ∀ x, (b.of w).value = some x → x + a + ε ≤ bound)
    (h : (addUserCoin w .ols amount).stored env = some stored) : Holds double b bound stored := by
  have hstored := of_stored b h
  rw [hdouble, of_addUserCoin] at hstored
  obtain ⟨_, x, hx, hnonneg, hle⟩ := hw
  have hpos : 0 ≤ bound := hnonneg.trans hle
  cases hcell : b.of w with
  | nan =>
    rw [hcell] at hx
    cases hx
  | null =>
    rw [hcell] at hstored
    exact holds_zero hcolumn hpos hstored
  | num y =>
    rw [hcell] at hstored hx howed
    obtain rfl := Option.some.inj hx
    cases amount with
    | null => exact holds_zero hcolumn hpos hstored
    | nan => exact holds_zero hcolumn hpos hstored
    | num a =>
      obtain ⟨ha, hbound⟩ := howed a rfl
      have hsum : double (.num (y + a)) = some (b.of stored) := hstored
      obtain ⟨z, hz, hzpos, hzle⟩ := hcolumn.num _ _ (by linarith) hsum
      refine ⟨hcolumn.kept _ _ hsum, z, by rw [hz]; rfl, hzpos, ?_⟩
      have hcovered := hbound y rfl
      linarith

/-- A draw writes the deposit columns back. -/
theorem holds_draw (hdouble : env.double = double) {type : TxType} {amount : Amount}
    (hw : Holds double b bound w)
    (h : (addUserDrawCoin w type amount).stored env = some stored) :
    Holds double b bound stored := by
  have hstored := of_stored b h
  rw [hdouble, of_addUserDrawCoin, hw.1] at hstored
  have hsame : b.of w = b.of stored := Option.some.inj hstored
  unfold Holds at hw ⊢
  rwa [← hsame]

end Columns

section Called

variable {ε : ℚ} {u : Nat} {cfg : Config} {env : Env} {s s' : Sys} {l : Label}

theorem worth_nonneg (hε : 0 ≤ ε) (n : Note) : 0 ≤ n.worth ε u := by
  unfold Note.worth
  split
  · next a =>
    split
    · have hmax := le_max_right a 0
      linarith
    · exact le_refl 0
  · exact le_refl 0

theorem called_append (notes history : List Note) :
    called ε u (notes ++ history) = called ε u notes + called ε u history := by
  exact Lib.Tally.sum_map_append _ notes history

theorem called_nonneg (hε : 0 ≤ ε) (history : List Note) : 0 ≤ called ε u history :=
  Lib.Tally.sum_map_nonneg (worth_nonneg hε) history

/-- The history only grows. -/
theorem history_append (h : step cfg env s l = some s') :
    ∃ notes, s'.history = notes ++ s.history := by
  cases step_change h with
  | arrives _ _ _ _ _ _ history => exact ⟨[], history⟩
  | scans notes _ _ _ _ history => exact ⟨notes, history⟩
  | waits _ _ _ _ _ _ _ history => exact ⟨[], history⟩
  | returns _ _ _ notes _ _ _ _ history => exact ⟨notes, history⟩
  | starts r _ save _ notes _ _ _ _ history =>
    refine ⟨notes ++ [.processReceivedEthOrToken r.data (save.run s.db).2], ?_⟩
    rw [history, List.append_assoc, List.singleton_append]
  | runFails _ _ _ _ _ history => exact ⟨[], history⟩
  | effect e _ _ _ _ history => exact ⟨_, history⟩
  | effectFails _ _ _ _ _ history => exact ⟨[], history⟩
  | crash _ _ _ history => exact ⟨[], history⟩
  | storeTxhash _ _ _ _ _ _ _ _ history => exact ⟨[], history⟩

theorem called_le (hε : 0 ≤ ε) (h : step cfg env s l = some s') :
    called ε u s.history ≤ called ε u s'.history := by
  obtain ⟨notes, hhistory⟩ := history_append h
  have hnotes := called_nonneg (u := u) hε notes
  rw [hhistory, called_append]
  linarith

end Called

section Covered

variable {double : Amount → Option Amount} {ε : ℚ} {b : Book} {u : Nat} {x₀ : ℚ} {cfg : Config}
  {env : Env} {receipts : Receipts} {db : Db} {s s' : Sys} {l : Label} {e : Effect} {o : Outcome}

/-- No pending amount is negative. -/
def NoDebt (db : Db) : Prop := ∀ row ∈ db.transaction.rows, row.val.status = .pending →
  ∀ a, row.val.tokenAmount = .num a → 0 ≤ a

theorem amounts_nonneg (hdebt : NoDebt db) {data : TransferEvent} {amount : Amount}
    (h : data.Amounts db amount) : ∀ a, amount = .num a → 0 ≤ a := by
  rintro a rfl
  rcases h with heq | ⟨row, hrow, hpending, _, hamount⟩
  · rw [Amount.num.inj heq]
    exact fromWei_nonneg _
  · exact hdebt row hrow hpending a hamount

/-- The step of an effect leaves covered what it writes and what it reads. -/
theorem Resumes.covered (h : Resumes env db e o) {bound bound' : ℚ} (hcolumn : Column double ε)
    (hdouble : env.double = double) (htype : e.tx.val.type = .ols)
    (hamount : ∀ a, e.tx.val.coins = .num a → 0 ≤ a) (hle : bound ≤ bound')
    (hcalled : bound + (o.notes.map (Note.worth ε u)).sum ≤ bound')
    (htable : ∀ row ∈ db.uOlsWallet.rows, row.id = u → Holds double b bound row.val)
    (hheld : ∀ user, e.pc.user = some user → user.id = u → Holds double b bound user.val)
    (howed : ∀ user amount, e.pc = .addUserCoin user amount → user.id = u →
      ∀ a, amount = .num a → 0 ≤ a ∧ ∀ x, (b.of user.val).value = some x → x + a + ε ≤ bound) :
    (∀ row ∈ o.db.uOlsWallet.rows, row.id = u → Holds double b bound' row.val) ∧
      ∀ pc ∈ o.next, (∀ user, pc.user = some user → user.id = u →
        Holds double b bound' user.val) ∧
        ∀ user amount, pc = .addUserCoin user amount → user.id = u →
          ∀ a, amount = .num a → 0 ≤ a ∧ ∀ x, (b.of user.val).value = some x →
            x + a + ε ≤ bound' := by
  have hkeep : ∀ row ∈ db.uOlsWallet.rows, row.id = u → Holds double b bound' row.val :=
    fun row hrow hid => (htable row hrow hid).mono hle
  have hsaved {user : Row UOlsWallet} {stored : UOlsWallet}
      (hstored : user.id = u → Holds double b bound' stored) :
      ∀ row ∈ (db.uOlsWallet.save ⟨user.id, stored⟩).rows, row.id = u →
        Holds double b bound' row.val := by
    intro row hrow hid
    rcases Table.mem_save hrow with rfl | ⟨hrow, _⟩
    · exact hstored hid
    · exact hkeep row hrow hid
  have hnone {pc : EffectPc} (huser : pc.user = none) :
      (∀ user, pc.user = some user → user.id = u → Holds double b bound' user.val) ∧
        ∀ user amount, pc = .addUserCoin user amount → user.id = u →
          ∀ a, amount = .num a → 0 ≤ a ∧ ∀ x, (b.of user.val).value = some x →
            x + a + ε ≤ bound' := by
    refine ⟨fun user hc => ?_, fun user amount hc => ?_⟩
    · rw [huser] at hc
      cases hc
    · rw [hc] at huser
      cases huser
  cases h with
  | stops => exact ⟨hkeep, List.forall_mem_nil _⟩
  | routes manager pc at_ found routed =>
    refine ⟨hkeep, List.forall_mem_singleton.mpr (hnone ?_)⟩
    rcases route_cases routed with rfl | rfl | rfl <;> rfl
  | charges user at_ confirmed found =>
    have hmem := (Table.mem_of_findOne found).1
    refine ⟨hkeep, List.forall_mem_cons.mpr ⟨⟨?_, ?_⟩, List.forall_mem_singleton.mpr
      (hnone rfl)⟩⟩
    · intro user' huser' hid
      cases huser'
      exact hkeep user hmem hid
    · intro user' amount hpc hid a ha
      obtain ⟨rfl, rfl⟩ := EffectPc.addUserCoin.inj hpc
      have hnonneg := hamount a ha
      refine ⟨hnonneg, fun x hx => ?_⟩
      obtain ⟨_, y, hy, _, hbound⟩ := htable user hmem hid
      obtain rfl := Option.some.inj (hx.symm.trans hy)
      rw [ha, List.map_singleton, List.sum_singleton] at hcalled
      simp only [Note.worth, hid, ↓reduceIte, max_eq_left hnonneg] at hcalled
      linarith
  | credits user amount stored at_ kept =>
    rw [htype] at kept
    refine ⟨hsaved fun hid => ?_, List.forall_mem_nil _⟩
    have hcredit := holds_credit hcolumn hdouble (hheld user (by rw [at_]; rfl) hid)
      (howed user amount at_ hid) kept
    exact hcredit.mono hle
  | deposits newTx row at_ kept => exact ⟨hkeep, List.forall_mem_nil _⟩
  | transfers user at_ confirmed found =>
    have hmem := (Table.mem_of_findOne found).1
    refine ⟨hkeep, List.forall_mem_singleton.mpr ⟨?_, fun _ _ hc => absurd hc nofun⟩⟩
    intro user' huser' hid
    cases huser'
    exact hkeep user hmem hid
  | draws user amount stored at_ kept =>
    refine ⟨hsaved fun hid => ?_, List.forall_mem_nil _⟩
    exact (holds_draw hdouble (hheld user (by rw [at_]; rfl) hid) kept).mono hle
  | withdraws record at_ confirmed found =>
    exact ⟨hkeep, List.forall_mem_singleton.mpr (hnone rfl)⟩
  | refuses record at_ confirmed found =>
    exact ⟨hkeep, List.forall_mem_singleton.mpr (hnone rfl)⟩
  | looksUp record at_ => exact ⟨hkeep, List.forall_mem_singleton.mpr (hnone rfl)⟩
  | settles record at_ => exact ⟨hkeep, List.forall_mem_nil _⟩

theorem covered_start {redis : Option Nat}
    (h : ∀ row ∈ db.uOlsWallet.rows, row.id = u → Holds double b x₀ row.val) :
    Covered double ε b u x₀ (Sys.start db redis) := by
  refine ⟨fun row hrow hid => (h row hrow hid).mono ?_, fun _ h => absurd h List.not_mem_nil,
    fun _ h => absurd h List.not_mem_nil⟩
  show x₀ ≤ x₀ + 0
  linarith

/-- A step that leaves the wallets alone and whose effects were in flight, or hold no wallet. -/
theorem covered_frame (hε : 0 ≤ ε) (h : Covered double ε b u x₀ s)
    (hstep : step cfg env s l = some s') (hdb : s'.db.uOlsWallet = s.db.uOlsWallet)
    (heffects : ∀ e ∈ s'.effects, e ∈ s.effects ∨ e.pc = .manager) :
    Covered double ε b u x₀ s' := by
  have hle := called_le (u := u) hε hstep
  have hbound : x₀ + called ε u s.history ≤ x₀ + called ε u s'.history := by linarith
  refine ⟨fun row hrow hid => ?_, fun e he user huser hid => ?_,
    fun e he user amount hpc hid a ha => ?_⟩
  · rw [hdb] at hrow
    exact (h.table row hrow hid).mono hbound
  · rcases heffects e he with he | hnew
    · exact (h.held e he user huser hid).mono hbound
    · rw [hnew] at huser
      cases huser
  · rcases heffects e he with he | hnew
    · obtain ⟨hnonneg, howed⟩ := h.owed e he user amount hpc hid a ha
      exact ⟨hnonneg, fun x hx => (howed x hx).trans hbound⟩
    · rw [hnew] at hpc
      cases hpc

theorem covered_step (hcolumn : Column double ε) (hdouble : env.double = double)
    (hdebt : NoDebt db) (hs : s.Sound receipts) (hsourced : Sourced db s)
    (h : Covered double ε b u x₀ s) (hstep : step cfg env s l = some s') :
    Covered double ε b u x₀ s' := by
  have hframe := covered_frame hcolumn.error h hstep
  cases step_change hstep with
  | arrives _ _ _ dbs _ effects _ =>
    exact hframe (by rw [dbs]) fun e he => Or.inl (effects ▸ he)
  | scans _ _ dbs _ effects _ => exact hframe (by rw [dbs]) fun e he => Or.inl (effects ▸ he)
  | waits _ _ _ _ dbs _ effects _ => exact hframe (by rw [dbs]) fun e he => Or.inl (effects ▸ he)
  | returns _ _ _ _ _ dbs _ effects _ =>
    exact hframe (by rw [dbs]) fun e he => Or.inl (effects ▸ he)
  | starts _ _ save _ _ _ dbs _ effects _ =>
    refine hframe (by rw [dbs, (run_frame save s.db).1]) fun e he => ?_
    rcases List.mem_cons.mp (effects ▸ he) with rfl | he
    · exact Or.inr rfl
    · exact Or.inl he
  | runFails _ _ dbs _ effects _ => exact hframe (by rw [dbs]) fun e he => Or.inl (effects ▸ he)
  | effectFails _ _ dbs _ effects _ =>
    exact hframe (by rw [dbs]) fun e he => Or.inl (List.mem_of_mem_erase (effects ▸ he))
  | crash dbs _ effects _ =>
    exact hframe (by rw [dbs]) fun e he => absurd (effects ▸ he) List.not_mem_nil
  | storeTxhash _ _ _ _ _ dbs _ effects _ =>
    exact hframe (by rw [dbs]) fun e he => Or.inl (effects ▸ he)
  | effect e mem dbs _ effects history =>
    have hrow := (hs.effects e mem).row
    have hle := called_le (u := u) hcolumn.error hstep
    have hbound : x₀ + called ε u s.history ≤ x₀ + called ε u s'.history := by linarith
    have hcalled : x₀ + called ε u s.history +
        ((e.resume env s.db).notes.map (Note.worth ε u)).sum ≤ x₀ + called ε u s'.history := by
      rw [history, called_append]
      show _ ≤ x₀ + (((e.resume env s.db).notes.map (Note.worth ε u)).sum + _)
      linarith
    have hamount : ∀ a, e.tx.val.coins = .num a → 0 ≤ a := by
      rw [coins_of_row hrow]
      exact amounts_nonneg hdebt (hsourced.effects e mem)
    obtain ⟨htable, hnext⟩ := (resumes env s.db e).covered (u := u) (b := b) hcolumn hdouble
      (matches_iff.mp hrow).2.1 hamount hbound hcalled h.table (h.held e mem) (h.owed e mem)
    have hcases : ∀ e' ∈ s'.effects,
        (∃ pc ∈ (e.resume env s.db).next, e' = { e with pc }) ∨ e' ∈ s.effects := by
      intro e' he'
      rcases Lib.InFlight.mem_resume_imp (effects ▸ he') with he' | he'
      · obtain ⟨pc, hpc, rfl⟩ := List.mem_map.mp he'
        exact Or.inl ⟨pc, hpc, rfl⟩
      · exact Or.inr he'
    refine ⟨by rw [dbs]; exact htable, fun e' he' => ?_, fun e' he' => ?_⟩
    · rcases hcases e' he' with ⟨pc, hpc, rfl⟩ | he'
      · exact (hnext pc hpc).1
      · exact fun user huser hid => (h.held e' he' user huser hid).mono hbound
    · rcases hcases e' he' with ⟨pc, hpc, rfl⟩ | he'
      · exact (hnext pc hpc).2
      · intro user amount hpc hid a ha
        obtain ⟨hnonneg, howed⟩ := h.owed e' he' user amount hpc hid a ha
        exact ⟨hnonneg, fun x hx => (howed x hx).trans hbound⟩

theorem covered_run {redis : Option Nat} {ms : List Move} (hcolumn : Column double ε)
    (hdouble : ∀ m ∈ ms, m.env.double = double) (hdebt : NoDebt db)
    (hstart : ∀ row ∈ db.uOlsWallet.rows, row.id = u → Holds double b x₀ row.val)
    (hrun : run (next cfg) (Sys.start db redis) ms = some s) : Covered double ε b u x₀ s := by
  have h : (s.Sound fun _ _ => True) ∧ Sourced db s ∧ Covered double ε b u x₀ s := by
    refine Lib.Machine.run_induction_mem
      (P := fun s => (s.Sound fun _ _ => True) ∧ Sourced db s ∧ Covered double ε b u x₀ s)
      (fun s m s' hs henv hstep => ?_)
      ⟨sound_start _ db redis, sourced_start db redis, covered_start hstart⟩ hdouble hrun
    obtain ⟨hsound, hsourced, hcovered⟩ := hs
    exact ⟨sound_step (fun _ _ _ => trivial) hsound hstep, sourced_step hsound hsourced hstep,
      covered_step hcolumn henv hdebt hsound hsourced hcovered hstep⟩
  exact h.2.2

end Covered

/-- In every run, however the saves of a wallet overwrite each other: what either deposit column
holds is at most what it held and, for each call of `addUserCoin` for the wallet, its amount and
the error of the column. -/
theorem balance_at_most_called (cfg : Config) (db : Db) (redis : Option Nat) (ms : List Move)
    (s : Sys) (double : Amount → Option Amount) (ε : ℚ) (b : Book) (u : Nat) (x₀ : ℚ)
    (hcolumn : Column double ε) (hdouble : ∀ m ∈ ms, m.env.double = double) (hdebt : NoDebt db)
    (hstart : ∀ row ∈ db.uOlsWallet.rows, row.id = u → Holds double b x₀ row.val)
    (hrun : run (next cfg) (Sys.start db redis) ms = some s) :
    ∀ row ∈ s.db.uOlsWallet.rows, row.id = u →
      Holds double b (x₀ + called ε u s.history) row.val :=
  (covered_run hcolumn hdouble hdebt hstart hrun).table

section Samples

/-- Columns that keep every number. -/
theorem sampleColumn : Column sampleEnv.double 0 := by
  have hnum {a b : Amount} (h : sampleEnv.double a = some b) : a = b ∧ a ≠ .nan := by
    simp only [sampleEnv, Option.ite_none_left_eq_some, Option.some.injEq] at h
    exact ⟨h.2, h.1⟩
  constructor
  · exact le_refl 0
  · intro a b h
    obtain ⟨rfl, _⟩ := hnum h
    exact h
  · intro b h
    exact (hnum h).1.symm
  · intro b h
    exact absurd rfl (hnum h).2
  · intro x b hx h
    obtain ⟨rfl, _⟩ := hnum h
    exact ⟨x, rfl, hx, by linarith⟩

theorem sampleDb_noDebt : NoDebt sampleDb := fun _ h => absurd h List.not_mem_nil

theorem sampleDb_holds (b : Book) :
    ∀ row ∈ sampleDb.uOlsWallet.rows, row.id = 1 → Holds sampleEnv.double b 0 row.val := by
  intro row hrow _
  obtain rfl : row = sampleUser := List.mem_singleton.mp hrow
  cases b
  · exact ⟨rfl, 0, rfl, le_refl 0, le_refl 0⟩
  · exact ⟨rfl, 0, rfl, le_refl 0, le_refl 0⟩

theorem balance_at_most_called_credited :
    ∃ s, run (next sampleConfig) (Sys.start sampleDb none) sampleCredited = some s ∧
      ∀ row ∈ s.db.uOlsWallet.rows, row.id = 1 →
        Holds sampleEnv.double .charge_amount (0 + called 0 1 s.history) row.val := by
  have h : (run (next sampleConfig) (Sys.start sampleDb none) sampleCredited).isSome = true := by
    decide +kernel
  obtain ⟨s, hs⟩ := Option.isSome_iff_exists.mp h
  have hdouble : ∀ m ∈ sampleCredited, m.env.double = sampleEnv.double := by
    intro m hm
    obtain ⟨l, _, rfl⟩ := List.mem_map.mp hm
    rfl
  exact ⟨s, hs, balance_at_most_called sampleConfig sampleDb none sampleCredited s
    sampleEnv.double 0 .charge_amount 1 0 sampleColumn hdouble sampleDb_noDebt
    (sampleDb_holds .charge_amount) hs⟩

end Samples

end OlsDapp.Handler
