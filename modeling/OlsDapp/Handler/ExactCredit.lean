import OlsDapp.Handler.Change
import OlsDapp.Lib.Rounding

/-!
# What a sequence of deposits adds up to

A deposit is credited by `addUserCoin` to the row as the table has it, and the columns
`amount` and `charge_amount` are `DOUBLE(10,2)`. The stored sums are exact after every deposit
when each deposit is a whole number of hundredths and neither column is `NULL`: a finer deposit
is rounded, and the sum with `NULL` is not a number.
-/

namespace OlsDapp.Handler

open Lib (Row Table)
open Lib.Rounding (OnGrid Nearest)

section Columns

/-- The largest value of a `DOUBLE(10,2)` column. -/
def columnMax : ℚ := 9999999999 / 100

/-- MySQL's `DOUBLE(10,2)`: two decimals, and an error or zero for what is no number. -/
structure DoubleColumn (env : Env) (round : ℚ → ℚ) : Prop where
  nearest : Nearest (1 / 100) round
  null : env.double .null = some .null
  nan : env.double .nan = none ∨ env.double .nan = some (.num 0)
  num : ∀ x, |x| ≤ columnMax → env.double (.num x) = some (.num (round x))

/-- The number a column stands for; `NULL` counts as 0. -/
def Amount.value : Amount → Option ℚ
  | .null => some 0
  | .nan => none
  | .num x => some x

/-- What a `DOUBLE(10,2)` column can hold. -/
def Amount.Stored (amount : Amount) : Prop :=
  amount = .null ∨ ∃ x, amount = .num x ∧ OnGrid (1 / 100) x ∧ |x| ≤ columnMax

/-- A row of the schema. -/
structure UOlsWallet.Admitted (w : UOlsWallet) : Prop where
  amount : w.amount.Stored
  charge_amount : w.charge_amount.Stored
  draw_amount : w.draw_amount.Stored

end Columns

section Deposits

/-- The row after `addUserCoin` has saved it; a refused save leaves it. -/
def UOlsWallet.credited (env : Env) (w : UOlsWallet) (wei : Nat) : UOlsWallet :=
  ((addUserCoin w .ols (.num (fromWei wei))).stored env).getD w

/-- One deposit to wallet `id`: the row is read, credited and saved. -/
def addDeposit (env : Env) (id : Nat) (db : Db) (wei : Nat) : Db :=
  match db.uOlsWallet.findById id with
  | some user =>
    (saveWallet env db ⟨user.id, addUserCoin user.val .ols (.num (fromWei wei))⟩).getD db
  | none => db

/-- The later value is the earlier one and `x` more. -/
def Exceeds (later earlier : Amount) (x : ℚ) : Prop :=
  ∃ y, earlier.value = some y ∧ later.value = some (y + x)

/-- Both amounts have grown by the deposits. -/
structure Exact (w w' : UOlsWallet) (weis : List Nat) : Prop where
  charge_amount : Exceeds w'.charge_amount w.charge_amount (fromWei weis.sum)
  amount : Exceeds w'.amount w.amount (fromWei weis.sum)

/-- The deposits do not fill the column. -/
def Fits (amount : Amount) (weis : List Nat) : Prop :=
  ∀ x, amount.value = some x → x + fromWei weis.sum ≤ columnMax

end Deposits

section Values

theorem fromWei_add (a b : Nat) : fromWei (a + b) = fromWei a + fromWei b := by
  simp only [fromWei]
  push_cast
  ring

theorem fromWei_nonneg (a : Nat) : 0 ≤ fromWei a := by
  unfold fromWei
  positivity

theorem fromWei_pos {a : Nat} (h : 0 < a) : 0 < fromWei a := by
  have hq : (0 : ℚ) < a := by exact_mod_cast h
  unfold fromWei
  positivity

/-- A deposit is a whole number of hundredths when 10^16 wei divide it. -/
theorem onGrid_fromWei (wei : Nat) : OnGrid (1 / 100) (fromWei wei) ↔ 10 ^ 16 ∣ wei := by
  constructor
  · intro hgiven
    obtain ⟨n, hn⟩ := hgiven
    have hscale : (wei : ℚ) = n * (10 ^ 16 : ℕ) := by
      rw [fromWei, div_eq_iff (by norm_num)] at hn
      rw [hn]
      push_cast
      ring
    have hint : (wei : ℤ) = n * (10 ^ 16 : ℕ) := by exact_mod_cast hscale
    exact Int.natCast_dvd_natCast.mp ⟨n, by rw [hint, mul_comm]⟩
  · intro hgiven
    obtain ⟨k, rfl⟩ := hgiven
    refine ⟨k, ?_⟩
    rw [fromWei, div_eq_iff (by norm_num)]
    push_cast
    ring

end Values

section Step

variable {env : Env} {round : ℚ → ℚ} {w s : UOlsWallet} {wei : Nat} {a c : ℚ}

/-- A column keeps what it already holds. -/
theorem DoubleColumn.stored (h : DoubleColumn env round) {x : Amount} (hx : x.Stored) :
    env.double x = some x := by
  rcases hx with rfl | ⟨x, rfl, hgrid, hmax⟩
  · exact h.null
  · rw [h.num x hmax, h.nearest.round_eq_self_iff.mpr hgrid]

/-- An amount added to a row of two numbers is rounded in each column on its own. -/
theorem stored_num (h : DoubleColumn env round) (hd : w.draw_amount.Stored)
    (ha : w.amount = .num a) (hc : w.charge_amount = .num c) {x : ℚ}
    (hamax : |a + x| ≤ columnMax) (hcmax : |c + x| ≤ columnMax) :
    (addUserCoin w .ols (.num x)).stored env = some { w with
      amount := .num (round (a + x))
      charge_amount := .num (round (c + x)) } := by
  apply stored_eq_some.mpr
  refine ⟨_, _, w.draw_amount, ?_, ?_, h.stored hd, rfl⟩
  · simp only [addUserCoin, ↓reduceIte, ha, parseFloat, Number.add, Option.bind_some,
      Option.map_some, Number.toAmount]
    exact h.num _ hamax
  · simp only [addUserCoin, ↓reduceIte, hc, parseFloat, Number.add, Option.bind_some,
      Option.map_some, Number.toAmount]
    exact h.num _ hcmax

theorem credited_num (h : DoubleColumn env round) (hw : w.Admitted) (ha : w.amount = .num a)
    (hc : w.charge_amount = .num c) (hamax : |a + fromWei wei| ≤ columnMax)
    (hcmax : |c + fromWei wei| ≤ columnMax) :
    w.credited env wei = { w with
      amount := .num (round (a + fromWei wei))
      charge_amount := .num (round (c + fromWei wei)) } := by
  rw [UOlsWallet.credited, stored_num h hw.draw_amount ha hc hamax hcmax, Option.getD_some]

/-- A column that was `NULL` holds zero after a deposit, or the save was refused. -/
theorem credited_null (h : DoubleColumn env round) (w : UOlsWallet) (wei : Nat) :
    (w.charge_amount = .null → (w.credited env wei).charge_amount.value = some 0) ∧
      (w.amount = .null → (w.credited env wei).amount.value = some 0) := by
  have hnan {x : Amount} (hx : env.double .nan = some x) : x.value = some 0 := by
    rcases h.nan with hnone | hzero
    · rw [hnone] at hx
      cases hx
    · rw [hzero] at hx
      cases hx
      rfl
  cases hs : (addUserCoin w .ols (.num (fromWei wei))).stored env with
  | none =>
    rw [UOlsWallet.credited, hs, Option.getD_none]
    exact ⟨fun hnull => by rw [hnull]; rfl, fun hnull => by rw [hnull]; rfl⟩
  | some s =>
    rw [UOlsWallet.credited, hs, Option.getD_some]
    obtain ⟨a, c, d, ha, hc, _, rfl⟩ := stored_eq_some.mp hs
    constructor
    · intro hnull
      simp only [addUserCoin, ↓reduceIte, hnull, parseFloat, Number.add, Option.bind_none,
        Number.toAmount] at hc
      exact hnan hc
    · intro hnull
      simp only [addUserCoin, ↓reduceIte, hnull, parseFloat, Number.add, Option.bind_none,
        Number.toAmount] at ha
      exact hnan ha

/-- A positive deposit to a `NULL` column is lost. -/
theorem not_exact_null (h : DoubleColumn env round) (hpos : 0 < wei)
    (hnull : w.charge_amount = .null ∨ w.amount = .null) :
    ¬ Exact w (w.credited env wei) [wei] := by
  have hsum : fromWei [wei].sum ≠ 0 := by
    rw [List.sum_singleton]
    exact (fromWei_pos hpos).ne'
  have hlost {later : Amount} (hzero : later.value = some 0) :
      ¬ Exceeds later .null (fromWei [wei].sum) := by
    intro hgiven
    obtain ⟨y, hy, hlater⟩ := hgiven
    cases hy
    rw [hzero, zero_add] at hlater
    exact hsum (Option.some.inj hlater).symm
  obtain ⟨hcharge, hamount⟩ := credited_null h w wei
  intro hexact
  rcases hnull with hnull | hnull
  · exact hlost (hcharge hnull) (hnull ▸ hexact.charge_amount)
  · exact hlost (hamount hnull) (hnull ▸ hexact.amount)

end Step

section Run

variable {env : Env} {round : ℚ → ℚ} {w w' : UOlsWallet} {wei : Nat} {weis : List Nat} {x : ℚ}

theorem Fits.first_le {amount : Amount} (h : Fits amount (wei :: weis)) (hs : amount.Stored)
    (hx : amount = .num x) : |x + fromWei wei| ≤ columnMax := by
  subst hx
  rcases hs with hnull | ⟨y, hy, _, hmax⟩
  · cases hnull
  · cases hy
    have htotal := h x rfl
    rw [List.sum_cons, fromWei_add] at htotal
    have hrest := fromWei_nonneg weis.sum
    have hwei := fromWei_nonneg wei
    have hlow := (abs_le.mp hmax).1
    exact abs_le.mpr ⟨by linarith, by linarith⟩

theorem Fits.tail {amount : Amount} (h : Fits amount (wei :: weis)) (hx : amount = .num x) :
    Fits (.num (x + fromWei wei)) weis := by
  subst hx
  rintro y ⟨⟩
  have htotal := h x rfl
  rw [List.sum_cons, fromWei_add] at htotal
  linarith

theorem exceeds_cons {later : Amount} :
    Exceeds later (.num x) (fromWei (wei :: weis).sum) ↔
      Exceeds later (.num (x + fromWei wei)) (fromWei weis.sum) := by
  have hsum : x + fromWei (wei :: weis).sum = x + fromWei wei + fromWei weis.sum := by
    rw [List.sum_cons, fromWei_add, add_assoc]
  constructor
  · intro hgiven
    obtain ⟨_, ⟨⟩, hlater⟩ := hgiven
    exact ⟨_, rfl, hsum ▸ hlater⟩
  · intro hgiven
    obtain ⟨_, ⟨⟩, hlater⟩ := hgiven
    exact ⟨_, rfl, hsum ▸ hlater⟩

theorem exact_nil (hw : w.Admitted) : Exact w w [] := by
  have hsame {amount : Amount} (hs : amount.Stored) : Exceeds amount amount (fromWei [].sum) := by
    have hzero : fromWei ([] : List Nat).sum = 0 := by simp [fromWei]
    rw [hzero]
    rcases hs with rfl | ⟨x, rfl, _⟩
    · exact ⟨0, rfl, by rw [add_zero]; rfl⟩
    · exact ⟨x, rfl, by rw [add_zero]; rfl⟩
  exact ⟨hsame hw.charge_amount, hsame hw.amount⟩

/-- The row after a deposit that neither column rounds. -/
def UOlsWallet.plus (w : UOlsWallet) (a c : ℚ) (wei : Nat) : UOlsWallet :=
  { w with amount := .num (a + fromWei wei), charge_amount := .num (c + fromWei wei) }

variable {a c : ℚ}

theorem exact_plus_iff (ha : w.amount = .num a) (hc : w.charge_amount = .num c) :
    Exact w w' (wei :: weis) ↔ Exact (w.plus a c wei) w' weis := by
  constructor
  · intro hgiven
    obtain ⟨hcharge, hamount⟩ := hgiven
    rw [hc] at hcharge
    rw [ha] at hamount
    exact ⟨exceeds_cons.mp hcharge, exceeds_cons.mp hamount⟩
  · intro hgiven
    obtain ⟨hcharge, hamount⟩ := hgiven
    constructor
    · rw [hc]
      exact exceeds_cons.mpr hcharge
    · rw [ha]
      exact exceeds_cons.mpr hamount

theorem Amount.Stored.onGrid {amount : Amount} (hs : amount.Stored) (hx : amount = .num x) :
    OnGrid (1 / 100) x := by
  subst hx
  rcases hs with hnull | ⟨y, hy, hgrid, _⟩
  · cases hnull
  · cases hy
    exact hgrid

theorem Amount.Stored.num_of_ne {amount : Amount} (hs : amount.Stored) (hne : amount ≠ .null) :
    ∃ x, amount = .num x := by
  rcases hs with hnull | ⟨x, hx, _⟩
  · exact absurd hnull hne
  · exact ⟨x, hx⟩

section Deposit

variable (h : DoubleColumn env round) (hw : w.Admitted) (ha : w.amount = .num a)
  (hc : w.charge_amount = .num c) (hamax : |a + fromWei wei| ≤ columnMax)
  (hcmax : |c + fromWei wei| ≤ columnMax)
include h hw ha hc hamax hcmax

/-- The columns hold hundredths, so a deposit of hundredths is kept as it is. -/
theorem credited_plus (hdvd : 10 ^ 16 ∣ wei) : w.credited env wei = w.plus a c wei := by
  have hgrid := (onGrid_fromWei wei).mpr hdvd
  have hagrid := (hw.amount.onGrid ha).add hgrid
  have hcgrid := (hw.charge_amount.onGrid hc).add hgrid
  rw [credited_num h hw ha hc hamax hcmax, h.nearest.round_eq_self_iff.mpr hagrid,
    h.nearest.round_eq_self_iff.mpr hcgrid]
  rfl

/-- A finer deposit is rounded. -/
theorem dvd_of_exact (hexact : Exact w (w.credited env wei) [wei]) : 10 ^ 16 ∣ wei := by
  obtain ⟨y, hy, hlater⟩ := hexact.charge_amount
  rw [hc] at hy
  cases hy
  rw [credited_num h hw ha hc hamax hcmax, List.sum_singleton] at hlater
  have hround := h.nearest.round_eq_self_iff.mp (Option.some.inj hlater)
  exact (onGrid_fromWei wei).mp ((hw.charge_amount.onGrid hc).add_iff.mp hround)

omit h hc in
theorem plus_admitted (hdvd : 10 ^ 16 ∣ wei) (hcgrid : OnGrid (1 / 100) c) :
    (w.plus a c wei).Admitted := by
  have hgrid := (onGrid_fromWei wei).mpr hdvd
  constructor
  · exact Or.inr ⟨_, rfl, (hw.amount.onGrid ha).add hgrid, hamax⟩
  · exact Or.inr ⟨_, rfl, hcgrid.add hgrid, hcmax⟩
  · exact hw.draw_amount

end Deposit

/-- Every initial part of the deposits is credited exactly when each deposit is a whole number
of hundredths and, unless there are no deposits, no column is `NULL`. -/
theorem exact_all_iff (h : DoubleColumn env round) (hw : w.Admitted)
    (hpos : ∀ wei ∈ weis, 0 < wei) (hamount : Fits w.amount weis)
    (hcharge : Fits w.charge_amount weis) :
    (∀ pre post, weis = pre ++ post → Exact w (pre.foldl (UOlsWallet.credited env) w) pre) ↔
      (weis ≠ [] → w.charge_amount ≠ .null ∧ w.amount ≠ .null) ∧ ∀ wei ∈ weis, 10 ^ 16 ∣ wei := by
  induction weis generalizing w with
  | nil =>
    refine iff_of_true ?_ ⟨fun hne => absurd rfl hne, List.forall_mem_nil _⟩
    intro pre post hsplit
    obtain ⟨rfl, rfl⟩ := List.nil_eq_append_iff.mp hsplit
    exact exact_nil hw
  | cons wei weis ih =>
    have hwei := hpos wei List.mem_cons_self
    by_cases hnull : w.charge_amount = .null ∨ w.amount = .null
    · refine iff_of_false ?_ ?_
      · intro hall
        exact not_exact_null h hwei hnull (hall [wei] weis rfl)
      · intro hgiven
        obtain ⟨hne, _⟩ := hgiven
        obtain ⟨hc, ha⟩ := hne (List.cons_ne_nil _ _)
        exact hnull.elim hc ha
    · obtain ⟨hcne, hane⟩ := not_or.mp hnull
      obtain ⟨c, hc⟩ := hw.charge_amount.num_of_ne hcne
      obtain ⟨a, ha⟩ := hw.amount.num_of_ne hane
      have hamax := hamount.first_le hw.amount ha
      have hcmax := hcharge.first_le hw.charge_amount hc
      by_cases hdvd : 10 ^ 16 ∣ wei
      · have hnext := credited_plus h hw ha hc hamax hcmax hdvd
        have hrest := ih (w := w.plus a c wei)
          (plus_admitted hw ha hamax hcmax hdvd (hw.charge_amount.onGrid hc))
          (fun d hd => hpos d (List.mem_cons_of_mem wei hd)) (hamount.tail ha) (hcharge.tail hc)
        constructor
        · intro hall
          refine ⟨fun _ => ⟨hcne, hane⟩, List.forall_mem_cons.mpr ⟨hdvd, ?_⟩⟩
          apply (hrest.mp _).2
          intro pre post hsplit
          have hpre := hall (wei :: pre) post (by rw [hsplit, List.cons_append])
          rw [List.foldl_cons, hnext] at hpre
          exact (exact_plus_iff ha hc).mp hpre
        · rintro ⟨_, hall⟩ pre post hsplit
          cases pre with
          | nil => exact exact_nil hw
          | cons d pre =>
            obtain ⟨rfl, htail⟩ := List.cons.inj hsplit
            apply (exact_plus_iff ha hc).mpr
            rw [List.foldl_cons, hnext]
            apply hrest.mpr _ pre post htail
            exact ⟨fun _ => ⟨Amount.noConfusion, Amount.noConfusion⟩,
              fun d hd => hall d (List.mem_cons_of_mem wei hd)⟩
      · refine iff_of_false ?_ ?_
        · intro hall
          exact hdvd (dvd_of_exact h hw ha hc hamax hcmax (hall [wei] weis rfl))
        · intro hgiven
          obtain ⟨_, hall⟩ := hgiven
          exact hdvd (hall wei List.mem_cons_self)

end Run

section Table

variable {env : Env} {db : Db} {id : Nat} {w : UOlsWallet}

/-- What a deposit leaves in the table is what it leaves of the row. -/
theorem findById_addDeposit (h : db.uOlsWallet.findById id = some ⟨id, w⟩) (wei : Nat) :
    (addDeposit env id db wei).uOlsWallet.findById id = some ⟨id, w.credited env wei⟩ := by
  rw [addDeposit, h, UOlsWallet.credited]
  dsimp only
  cases hs : (addUserCoin w .ols (.num (fromWei wei))).stored env with
  | none =>
    rw [saveWallet_refused hs]
    exact h
  | some stored =>
    rw [saveWallet_eq_some.mpr ⟨stored, hs, rfl⟩]
    exact @Table.findById_save_self _ _ ⟨id, stored⟩ _ h

theorem findById_addDeposits (h : db.uOlsWallet.findById id = some ⟨id, w⟩) (weis : List Nat) :
    (weis.foldl (addDeposit env id) db).uOlsWallet.findById id =
      some ⟨id, weis.foldl (UOlsWallet.credited env) w⟩ := by
  induction weis generalizing db w with
  | nil => exact h
  | cons wei weis ih => exact ih (findById_addDeposit h wei)

end Table

/-- Over every row of the schema and every sequence of positive deposits that fit, both columns
hold the exact sum after each deposit if and only if neither was `NULL` and each deposit is a
whole number of hundredths. -/
theorem deposits_exact_iff (env : Env) (round : ℚ → ℚ) (h : DoubleColumn env round) (db : Db)
    (id : Nat) (w : UOlsWallet) (hrow : db.uOlsWallet.findById id = some ⟨id, w⟩)
    (hw : w.Admitted) (weis : List Nat) (hpos : ∀ wei ∈ weis, 0 < wei)
    (hamount : Fits w.amount weis) (hcharge : Fits w.charge_amount weis) :
    (∀ pre post, weis = pre ++ post →
      ∃ w', (pre.foldl (addDeposit env id) db).uOlsWallet.findById id = some ⟨id, w'⟩ ∧
        Exact w w' pre) ↔
      (weis ≠ [] → w.charge_amount ≠ .null ∧ w.amount ≠ .null) ∧
        ∀ wei ∈ weis, 10 ^ 16 ∣ wei := by
  rw [← exact_all_iff h hw hpos hamount hcharge]
  constructor
  · intro hall pre post hsplit
    obtain ⟨w', hw', hexact⟩ := hall pre post hsplit
    rw [findById_addDeposits hrow] at hw'
    cases hw'
    exact hexact
  · intro hall pre post hsplit
    exact ⟨_, findById_addDeposits hrow pre, hall pre post hsplit⟩

section Samples

/-- Strict mode, two decimals, ties up. -/
def columnEnv : Env :=
  { sampleEnv with
    double := fun
      | .null => some .null
      | .nan => none
      | .num x =>
        if |x| ≤ columnMax then some (.num (Lib.Rounding.halfUp (1 / 100) x)) else none }

theorem columnEnv_double : DoubleColumn columnEnv (Lib.Rounding.halfUp (1 / 100)) where
  nearest := Lib.Rounding.halfUp_nearest (by norm_num)
  null := rfl
  nan := Or.inl rfl
  num := fun _ hx => if_pos hx

theorem deposits_exact_hundredths :
    ∃ w', ([10 ^ 18, 10 ^ 16].foldl (addDeposit columnEnv 1) sampleDb).uOlsWallet.findById 1 =
        some ⟨1, w'⟩ ∧ Exact sampleUser.val w' [10 ^ 18, 10 ^ 16] := by
  have hzero : (Amount.num 0).Stored :=
    Or.inr ⟨0, rfl, Lib.Rounding.onGrid_zero _, by norm_num [columnMax]⟩
  have hfits : Fits (.num 0) [10 ^ 18, 10 ^ 16] := by
    rintro x ⟨⟩
    norm_num [fromWei, columnMax]
  refine (deposits_exact_iff columnEnv _ columnEnv_double sampleDb 1 sampleUser.val rfl
    ⟨hzero, hzero, hzero⟩ [10 ^ 18, 10 ^ 16] (by decide) hfits hfits).mpr ⟨?_, by decide⟩
    [10 ^ 18, 10 ^ 16] [] rfl
  exact fun _ => ⟨by decide, by decide⟩

/-- One wei is credited as nothing. -/
theorem one_wei_lost :
    ¬ ∃ w', ([1].foldl (addDeposit columnEnv 1) sampleDb).uOlsWallet.findById 1 =
        some ⟨1, w'⟩ ∧ Exact sampleUser.val w' [1] := by
  intro hgiven
  obtain ⟨w', hw', ⟨y, hy, hlater⟩, _⟩ := hgiven
  have hrow : ([1].foldl (addDeposit columnEnv 1) sampleDb).uOlsWallet.findById 1 =
      some ⟨1, ⟨some 1, some "b", .num 0, .num 0, .num 0⟩⟩ := by
    decide +kernel
  rw [hrow] at hw'
  cases hw'
  cases hy
  have hsum := Option.some.inj hlater
  norm_num [fromWei] at hsum

end Samples

end OlsDapp.Handler
